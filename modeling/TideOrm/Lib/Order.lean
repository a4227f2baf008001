import Mathlib.Data.List.Sort
import Mathlib.Logic.Relation
import Mathlib.Order.WellFounded
import Mathlib.Data.Fintype.Order

/-! Order inside lists: which of two elements comes first, what a stable sort
keeps of it, and minimal elements of relations without cycles. -/

namespace Lib

/-- `a` comes before `b` in the list. -/
def Precedes {α : Type} (l : List α) (a b : α) : Prop := [a, b].Sublist l

section Precedes

variable {α : Type} {l : List α} {a b : α}

theorem precedes_or (ha : a ∈ l) (hb : b ∈ l) (hne : a ≠ b) : Precedes l a b ∨ Precedes l b a := by
  obtain ⟨front, back, rfl⟩ := List.append_of_mem ha
  rcases List.mem_append.1 hb with hb | hb
  · right
    exact (List.singleton_sublist.2 hb).append (List.singleton_sublist.2 List.mem_cons_self)
  · rcases List.mem_cons.1 hb with rfl | hb
    · exact absurd rfl hne
    · left
      exact ((List.singleton_sublist.2 hb).cons_cons a).trans (List.sublist_append_right _ _)

/-- In a list ordered by `r`, two elements in the wrong order for it are the other way round. -/
theorem precedes_of_pairwise {r : α → α → Prop} (h : l.Pairwise r) (ha : a ∈ l) (hb : b ∈ l)
    (hne : a ≠ b) (hr : ¬ r b a) : Precedes l a b := by
  refine (precedes_or ha hb hne).resolve_right fun hba => hr ?_
  exact List.pairwise_pair.1 (h.sublist hba)

theorem precedes_of_filter {p : α → Bool} (h : Precedes (l.filter p) a b) : Precedes l a b :=
  h.trans List.filter_sublist

theorem precedes_filter {p : α → Bool} (h : Precedes l a b) (ha : p a = true) (hb : p b = true) :
    Precedes (l.filter p) a b := by
  have := List.Sublist.filter p h
  simpa only [Precedes, List.filter_cons, ha, hb, if_true, List.filter_nil] using this

theorem precedes_getElem? (h : Precedes l a b) : ∃ i j : ℕ, i < j ∧ l[i]? = some a ∧ l[j]? = some b := by
  induction l with
  | nil => cases h
  | cons c rest ih =>
    rcases List.sublist_cons_iff.1 h with h | ⟨tail, heq, htail⟩
    · obtain ⟨i, j, hij, hi, hj⟩ := ih h
      exact ⟨i + 1, j + 1, by omega, hi, hj⟩
    · cases heq
      obtain ⟨j, hj⟩ := List.mem_iff_getElem?.1 (List.singleton_sublist.1 htail)
      exact ⟨0, j + 1, by omega, rfl, hj⟩

end Precedes

theorem filterMap_range {α : Type} (l : List α) :
    (List.range l.length).filterMap (fun i => l[i]?) = l := by
  induction l with
  | nil => rfl
  | cons a rest ih =>
    rw [List.length_cons, List.range_succ_eq_map, List.filterMap_cons, List.filterMap_map]
    simpa using ih

/-- A stable sort keeps the order of elements it may leave in place. -/
theorem filter_insertionSort {α : Type} (r : α → α → Prop) [DecidableRel r] [IsTrans α r] [Std.Total r]
    (p : α → Bool) (l : List α) (h : ∀ a b, p a = true → p b = true → r a b) :
    (l.insertionSort r).filter p = l.filter p := by
  have hpw : (l.filter p).Pairwise r := by
    rw [List.pairwise_iff_forall_sublist]
    intro a b hab
    have ha := hab.subset List.mem_cons_self
    have hb := hab.subset (List.mem_cons_of_mem _ List.mem_cons_self)
    exact h a b (List.mem_filter.1 ha).2 (List.mem_filter.1 hb).2
  have hsub := List.Sublist.filter p (List.sublist_insertionSort hpw List.filter_sublist)
  simp only [List.filter_filter, Bool.and_self] at hsub
  refine (hsub.eq_of_length ?_).symm
  exact ((List.perm_insertionSort r l).filter p).length_eq.symm

/-- Without cycles a nonempty list has an element none of the others is before. -/
theorem exists_minimal_of_acyclic {α : Type} (r : α → α → Prop) (h : ∀ a, ¬ Relation.TransGen r a a)
    {l : List α} (hne : l ≠ []) : ∃ a ∈ l, ∀ b ∈ l, ¬ r b a := by
  let below (a b : {x // x ∈ l}) : Prop := Relation.TransGen r a.1 b.1
  have : IsTrans _ below := ⟨fun _ _ _ => Relation.TransGen.trans⟩
  have : Std.Irrefl below := ⟨fun a => h a.1⟩
  have : Finite {x // x ∈ l} := List.finite_toSet l
  have hwf : WellFounded below := Finite.wellFounded_of_trans_of_irrefl below
  obtain ⟨first, hfirst⟩ := List.exists_mem_of_ne_nil l hne
  obtain ⟨a, -, hmin⟩ := hwf.has_min Set.univ ⟨⟨first, hfirst⟩, trivial⟩
  exact ⟨a.1, a.2, fun b hb hr => hmin ⟨b, hb⟩ trivial (Relation.TransGen.single hr)⟩

/-- Where every element has another of the list before it, every element is on a cycle or behind one. -/
theorem exists_cycle_before {α : Type} (r : α → α → Prop) {l : List α} (h : ∀ a ∈ l, ∃ b ∈ l, r b a) {x : α}
    (hx : x ∈ l) : ∃ c, Relation.TransGen r c c ∧ Relation.ReflTransGen r c x := by
  classical
  by_contra hnone
  push Not at hnone
  -- the elements that lead to `x`, none of which is on a cycle
  let among (a b : α) : Prop := r a b ∧ Relation.ReflTransGen r b x
  have hacyclic : ∀ a, ¬ Relation.TransGen among a a := by
    intro a ha
    obtain ⟨b, -, hb⟩ := Relation.TransGen.tail'_iff.1 ha
    have hcycle : Relation.TransGen r a a := Relation.TransGen.lift id (fun _ _ hab => hab.1) a a ha
    exact hnone a hcycle hb.2
  have hmem : x ∈ l.filter fun a => decide (Relation.ReflTransGen r a x) :=
    List.mem_filter.2 ⟨hx, decide_eq_true Relation.ReflTransGen.refl⟩
  obtain ⟨a, ha, hmin⟩ := exists_minimal_of_acyclic among hacyclic (List.ne_nil_of_mem hmem)
  obtain ⟨hal, hax⟩ := List.mem_filter.1 ha
  obtain ⟨b, hbl, hba⟩ := h a hal
  have hreach := of_decide_eq_true hax
  exact hmin b (List.mem_filter.2 ⟨hbl, decide_eq_true (hreach.head hba)⟩) ⟨hba, hreach⟩

theorem idxOf_lt_idxOf {α : Type} [DecidableEq α] {r : α → α → Prop} {l : List α}
    (h : l.Pairwise fun x y => ¬ r y x) {x y : α} (hx : x ∈ l) (hy : y ∈ l) (hne : x ≠ y) (hr : r x y) :
    l.idxOf x < l.idxOf y := by
  have hlx := List.idxOf_lt_length_of_mem hx
  have hly := List.idxOf_lt_length_of_mem hy
  rcases lt_trichotomy (l.idxOf x) (l.idxOf y) with hlt | heq | hgt
  · exact hlt
  · exact absurd ((List.idxOf_inj hx).1 heq) hne
  · have := List.pairwise_iff_getElem.1 h _ _ hly hlx hgt
    rw [List.getElem_idxOf, List.getElem_idxOf] at this
    exact absurd hr this

/-- A list that holds all related elements, each after those related to it, has no cycle. -/
theorem acyclic_of_pairwise {α : Type} [DecidableEq α] {r : α → α → Prop} {l : List α} (h : l.Pairwise fun x y => ¬ r y x)
    (hmem : ∀ a b, r a b → a ∈ l ∧ b ∈ l) (hirrefl : ∀ a, ¬ r a a) (c : α) : ¬ Relation.TransGen r c c := by
  have hforward : ∀ a, Relation.TransGen r a c → l.idxOf a < l.idxOf c := by
    intro a ha
    induction ha with
    | single hstep =>
      exact idxOf_lt_idxOf h (hmem _ _ hstep).1 (hmem _ _ hstep).2 (fun heq => hirrefl _ (heq ▸ hstep)) hstep
    | tail _ hstep ih =>
      exact ih.trans (idxOf_lt_idxOf h (hmem _ _ hstep).1 (hmem _ _ hstep).2 (fun heq => hirrefl _ (heq ▸ hstep)) hstep)
  exact fun hcycle => absurd (hforward c hcycle) (lt_irrefl _)

end Lib
