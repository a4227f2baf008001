import TideOrm.Lib.Order
import TideOrm.Spec.Topology
import Mathlib.Data.List.Range

/-! Kahn's algorithm orders the nodes: a node is taken after all its predecessors,
and of the nodes that wait for none the least goes next. What is left over waits
for something that is left over, so without cycles nothing is. -/

namespace TideOrm

open Lib

variable {K : Type} [LinearOrder K]

namespace Topology

/-- The edges into `node` from nodes not taken yet. -/
def waiting (edges : List (ℕ × ℕ)) (ordered : List ℕ) (node : ℕ) : List (ℕ × ℕ) :=
  edges.filter fun edge => edge.2 = node ∧ edge.1 ∉ ordered

/-- Each node was taken after its predecessors, and was the least that could be. -/
inductive Greedy (count : ℕ) (edges : List (ℕ × ℕ)) (key : ℕ → K) : List ℕ → Prop where
  | nil : Greedy count edges key []
  | snoc (taken : List ℕ) (node : ℕ) (h : Greedy count edges key taken) (hnew : node ∉ taken)
      (hmet : ∀ b, (b, node) ∈ edges → b ∈ taken)
      (hleast : ∀ x < count, x ∉ taken → (∀ b, (b, x) ∈ edges → b ∈ taken) →
        toLex (key node, node) ≤ toLex (key x, x)) : Greedy count edges key (taken ++ [node])

/-- What holds between two steps of the loop; `pending` are the followers of the
node taken last that have not been released yet. -/
structure Inv (count : ℕ) (edges : List (ℕ × ℕ)) (key : ℕ → K) (t : Topology K) (pending : List ℕ) :
    Prop where
  unmet : ∀ x, t.unmet x = (waiting edges t.ordered x).length + pending.count x
  keyed : ∀ p ∈ t.ready, p = toLex (key (ofLex p).2, (ofLex p).2)
  ready : ∀ x, toLex (key x, x) ∈ t.ready ↔ x < count ∧ t.unmet x = 0 ∧ x ∉ t.ordered
  nodup : t.ready.elems.Nodup
  taken : ∀ x ∈ t.ordered, x < count ∧ t.unmet x = 0
  distinct : t.ordered.Nodup

section

variable {count : ℕ} {edges : List (ℕ × ℕ)} {key : ℕ → K} {t : Topology K} {pending : List ℕ}

theorem waiting_eq_nil {ordered : List ℕ} {x : ℕ} :
    (waiting edges ordered x).length = 0 ↔ ∀ b, (b, x) ∈ edges → b ∈ ordered := by
  rw [List.length_eq_zero_iff, waiting, List.filter_eq_nil_iff]
  constructor
  · intro h b hb
    have := h (b, x) hb
    simpa using this
  · rintro h ⟨b, y⟩ hb
    simp only [decide_eq_true_eq, not_and, not_not]
    rintro rfl
    exact h b hb

theorem init_inv : Inv count edges key (init count edges key) [] where
  unmet := by intro x; simp [init, waiting]
  keyed := by
    intro p hp
    obtain ⟨x, -, rfl⟩ := List.mem_map.1 (MinHeap.mem_ofList.1 hp)
    rfl
  ready := by
    intro x
    simp [init, MinHeap.mem_ofList]
  nodup := by
    apply MinHeap.nodup_ofList
    refine (List.nodup_range.filter _).map ?_
    intro a b hab
    exact congrArg (fun p : K ×ₗ ℕ => (ofLex p).2) hab
  taken := by simp [init]
  distinct := List.nodup_nil

theorem release_inv {follower : ℕ} (hf : follower < count)
    (h : Inv count edges key t (follower :: pending)) :
    Inv count edges key (release key t follower) pending := by
  have hu := h.unmet follower
  rw [List.count_cons_self] at hu
  -- its count was positive, so the follower is neither taken nor ready yet
  have hnew : follower ∉ t.ordered := fun hm => by
    have := (h.taken follower hm).2
    omega
  have hnready : ¬ toLex (key follower, follower) ∈ t.ready := fun hm => by
    have := ((h.ready follower).1 hm).2.1
    omega
  refine ⟨?_, ?_, ?_, ?_, ?_, h.distinct⟩
  · intro x
    simp only [release]
    by_cases hx : x = follower
    · subst hx
      rw [Function.update_self]
      omega
    · rw [Function.update_of_ne hx, h.unmet x, List.count_cons_of_ne (Ne.symm hx)]
  · intro p hp
    simp only [release, Function.update_self] at hp
    split_ifs at hp with hz
    · rcases MinHeap.mem_push.1 hp with rfl | hp
      · rfl
      · exact h.keyed p hp
    · exact h.keyed p hp
  · intro x
    simp only [release, Function.update_self]
    by_cases hx : x = follower
    · subst hx
      rw [Function.update_self]
      split_ifs with hz
      · exact ⟨fun _ => ⟨hf, hz, hnew⟩, fun _ => MinHeap.mem_push.2 (Or.inl rfl)⟩
      · exact ⟨fun hm => absurd hm hnready, fun hm => absurd hm.2.1 hz⟩
    · rw [Function.update_of_ne hx]
      split_ifs with hz
      · rw [MinHeap.mem_push, h.ready x]
        refine or_iff_right fun heq => hx ?_
        exact congrArg (fun p : K ×ₗ ℕ => (ofLex p).2) heq
      · exact h.ready x
  · simp only [release, Function.update_self]
    split_ifs with hz
    · exact MinHeap.nodup_push h.nodup hnready
    · exact h.nodup
  · intro x hx
    have hne : x ≠ follower := fun heq => hnew (heq ▸ hx)
    simp only [release, Function.update_of_ne hne]
    exact h.taken x hx

theorem releases_inv (hf : ∀ follower ∈ pending, follower < count) (h : Inv count edges key t pending) :
    Inv count edges key (pending.foldl (release key) t) [] ∧
      (pending.foldl (release key) t).ordered = t.ordered := by
  induction pending generalizing t with
  | nil => exact ⟨h, rfl⟩
  | cons follower rest ih =>
    obtain ⟨hinv, hord⟩ := ih (fun x hx => hf x (List.mem_cons_of_mem _ hx))
      (release_inv (hf follower List.mem_cons_self) h)
    exact ⟨hinv, hord⟩

/-- Of the edges that held a node back, those from `node` are its followers. -/
theorem waiting_take {ordered : List ℕ} {node : ℕ} (hnew : node ∉ ordered) (x : ℕ) :
    (waiting edges ordered x).length =
      (waiting edges (ordered ++ [node]) x).length + (followers edges node).count x := by
  induction edges with
  | nil => rfl
  | cons edge rest ih =>
    obtain ⟨b, y⟩ := edge
    simp only [waiting, followers, List.mem_append, List.mem_singleton, not_or, Bool.decide_and,
      decide_not] at ih ⊢
    by_cases hy : y = x
    · by_cases hb : b = node
      · subst hb hy
        simp [hnew]
        omega
      · by_cases ho : b ∈ ordered
        · simpa [hb, ho, hy] using ih
        · simp [hb, ho, hy]
          omega
    · by_cases hb : b = node
      · simpa [hb, hy] using ih
      · simpa [hb, hy] using ih

theorem take_inv {popped : K ×ₗ ℕ} {ready : MinHeap (K ×ₗ ℕ)} (h : Inv count edges key t [])
    (hpop : t.ready.pop = some (popped, ready)) :
    Inv count edges key { t with ready, ordered := t.ordered ++ [(ofLex popped).2] }
        (followers edges (ofLex popped).2) ∧
      ((ofLex popped).2 ∉ t.ordered ∧ (∀ b, (b, (ofLex popped).2) ∈ edges → b ∈ t.ordered) ∧
        ∀ x < count, x ∉ t.ordered → (∀ b, (b, x) ∈ edges → b ∈ t.ordered) →
          toLex (key (ofLex popped).2, (ofLex popped).2) ≤ toLex (key x, x)) := by
  obtain ⟨helems, hleast⟩ := MinHeap.pop_some hpop
  have hmem : popped ∈ t.ready := by rw [MinHeap.mem_def, helems]; exact List.mem_cons_self
  have hkey := h.keyed popped hmem
  obtain ⟨node, hnode⟩ : ∃ node, node = (ofLex popped).2 := ⟨_, rfl⟩
  rw [← hnode] at hkey ⊢
  subst hkey
  have hn := (h.ready node).1 hmem
  have hunmet : ∀ x, t.unmet x = 0 ↔ ∀ b, (b, x) ∈ edges → b ∈ t.ordered := by
    intro x
    rw [h.unmet x, List.count_nil, Nat.add_zero, waiting_eq_nil]
  have hnodup := h.nodup
  rw [helems, List.nodup_cons] at hnodup
  refine ⟨⟨?_, ?_, ?_, hnodup.2, ?_, ?_⟩, hn.2.2, (hunmet node).1 hn.2.1, ?_⟩
  · intro x
    rw [h.unmet x, List.count_nil, Nat.add_zero]
    exact waiting_take hn.2.2 x
  · intro p hp
    apply h.keyed p
    rw [MinHeap.mem_def, helems]
    exact List.mem_cons_of_mem _ hp
  · intro x
    have hx := h.ready x
    rw [MinHeap.mem_def, helems, List.mem_cons] at hx
    simp only [List.mem_append, List.mem_singleton, not_or]
    constructor
    · intro hm
      obtain ⟨hc, hu, ho⟩ := hx.1 (Or.inr hm)
      refine ⟨hc, hu, ho, ?_⟩
      rintro rfl
      exact hnodup.1 hm
    · rintro ⟨hc, hu, ho, hne⟩
      refine (hx.2 ⟨hc, hu, ho⟩).resolve_left fun heq => hne ?_
      exact congrArg (fun p : K ×ₗ ℕ => (ofLex p).2) heq
  · intro x hx
    rcases List.mem_append.1 hx with hx | hx
    · exact h.taken x hx
    · rw [List.mem_singleton.1 hx]
      exact ⟨hn.1, hn.2.1⟩
  · rw [List.nodup_append]
    refine ⟨h.distinct, List.nodup_singleton _, ?_⟩
    rintro x hx y hy rfl
    exact hn.2.2 (List.mem_singleton.1 hy ▸ hx)
  · intro x hc ho hp
    exact hleast _ ((h.ready x).2 ⟨hc, (hunmet x).2 hp, ho⟩)

theorem mem_followers {node x : ℕ} : x ∈ followers edges node ↔ (node, x) ∈ edges := by
  simp [followers]

/-- Enough rounds empty the heap. -/
theorem drain_inv (hbound : ∀ edge ∈ edges, edge.1 < count ∧ edge.2 < count) (fuel : ℕ) (t : Topology K)
    (h : Inv count edges key t []) (hg : Greedy count edges key t.ordered)
    (hfuel : count ≤ fuel + t.ordered.length) :
    Inv count edges key (drain edges key fuel t) [] ∧ Greedy count edges key (drain edges key fuel t).ordered ∧
      ∀ p, ¬ p ∈ (drain edges key fuel t).ready := by
  induction fuel generalizing t with
  | zero =>
    refine ⟨h, hg, fun p hp => ?_⟩
    simp only [drain] at hp
    rw [h.keyed p hp] at hp
    obtain ⟨hc, -, hnot⟩ := (h.ready _).1 hp
    -- every index below `count` has been taken already
    have hsub : (List.range count).Subperm t.ordered :=
      (List.subperm_of_subset h.distinct fun x hx => List.mem_range.2 (h.taken x hx).1).perm_of_length_le
        (by rw [List.length_range]; omega) |>.symm.subperm
    exact hnot (hsub.subset (List.mem_range.2 hc))
  | succ fuel ih =>
    unfold drain
    cases hpop : t.ready.pop with
    | none => exact ⟨h, hg, MinHeap.pop_none hpop⟩
    | some r =>
      obtain ⟨popped, ready⟩ := r
      obtain ⟨hinv, hnew, hmet, hleast⟩ := take_inv h hpop
      obtain ⟨hinv', hord⟩ := releases_inv (fun f hf => (hbound _ (mem_followers.1 hf)).2) hinv
      apply ih _ hinv'
      · rw [hord]
        exact Greedy.snoc _ _ hg hnew hmet hleast
      · rw [hord]
        simp only [List.length_append, List.length_singleton]
        omega

theorem Inv.length_le (h : Inv count edges key t pending) : t.ordered.length ≤ count := by
  have hsub : t.ordered ⊆ List.range count := fun x hx => List.mem_range.2 (h.taken x hx).1
  have hle := (List.subperm_of_subset h.distinct hsub).length_le
  rwa [List.length_range] at hle

/-- A follower that was not released yet still counts the edge from the node taken. -/
theorem releaseChecked_eq {follower : ℕ} (h : Inv count edges key t (follower :: pending)) :
    releaseChecked key t follower = some (release key t follower) := by
  have hu := h.unmet follower
  rw [List.count_cons_self] at hu
  exact if_neg (by omega)

theorem releasesChecked_eq (hf : ∀ follower ∈ pending, follower < count) (h : Inv count edges key t pending) :
    pending.foldlM (releaseChecked key) t = some (pending.foldl (release key) t) := by
  induction pending generalizing t with
  | nil => rfl
  | cons follower rest ih =>
    rw [List.forall_mem_cons] at hf
    rw [List.foldlM_cons, releaseChecked_eq h]
    exact ih hf.2 (release_inv hf.1 h)

/-- The loop ends, without an underflow, and as the bounded one does. -/
theorem drainChecked_eq (hbound : ∀ edge ∈ edges, edge.1 < count ∧ edge.2 < count) (fuel : ℕ) (t : Topology K)
    (h : Inv count edges key t []) (hfuel : count < fuel + t.ordered.length) (rounds : ℕ)
    (hrounds : count ≤ rounds + t.ordered.length) : drainChecked edges key fuel t = some (drain edges key rounds t) := by
  induction fuel generalizing t rounds with
  | zero =>
    have hle := h.length_le
    omega
  | succ fuel ih =>
    rw [drainChecked]
    cases hpop : t.ready.pop with
    | none => cases rounds <;> simp [drain, hpop]
    | some r =>
      obtain ⟨popped, ready⟩ := r
      obtain ⟨hinv, -⟩ := take_inv h hpop
      have hf : ∀ f ∈ followers edges (ofLex popped).2, f < count := fun f hf => (hbound _ (mem_followers.1 hf)).2
      obtain ⟨hinv', hord⟩ := releases_inv hf hinv
      have hlen : (t.ordered ++ [(ofLex popped).2]).length = t.ordered.length + 1 := by simp
      -- one more node is taken, so a round was left for it
      have hle := hinv.length_le
      cases rounds with
      | zero =>
        simp only [hlen] at hle
        omega
      | succ rounds =>
        simp only [drain, hpop]
        rw [releasesChecked_eq hf hinv]
        exact ih _ hinv' (by rw [hord, hlen]; omega) rounds (by rw [hord, hlen]; omega)

theorem Greedy.closed {l : List ℕ} (h : Greedy count edges key l) {b x : ℕ} (hx : x ∈ l)
    (hb : (b, x) ∈ edges) : b ∈ l := by
  induction h with
  | nil => cases hx
  | snoc taken node _ _ hmet _ ih =>
    rcases List.mem_append.1 hx with hx | hx
    · exact List.mem_append_left _ (ih hx)
    · rw [List.mem_singleton.1 hx] at hb
      exact List.mem_append_left _ (hmet b hb)

/-- A node was taken after its predecessors, and as the least of those that could be. -/
theorem Greedy.split {l : List ℕ} (h : Greedy count edges key l) {before later : List ℕ} {node : ℕ} (heq : l = before ++ node :: later) :
    (∀ b, (b, node) ∈ edges → b ∈ before) ∧
      ∀ x < count, x ∉ before → (∀ b, (b, x) ∈ edges → b ∈ before) → toLex (key node, node) ≤ toLex (key x, x) := by
  induction h generalizing later with
  | nil => exact absurd heq (by simp)
  | snoc taken last _ _ hmet hleast ih =>
    rcases List.eq_nil_or_concat later with rfl | ⟨later, other, rfl⟩
    · obtain ⟨rfl, hlast⟩ := List.append_inj' heq rfl
      obtain rfl := List.singleton_inj.1 hlast
      exact ⟨hmet, hleast⟩
    · rw [List.concat_eq_append, ← List.cons_append, ← List.append_assoc] at heq
      exact ih (List.append_inj' heq rfl).1

/-- No node comes before a node it waits for. -/
theorem Greedy.pairwise {l : List ℕ} (h : Greedy count edges key l) :
    l.Pairwise fun x y => (y, x) ∉ edges := by
  induction h with
  | nil => exact List.Pairwise.nil
  | snoc taken node h hnew _ _ ih =>
    refine List.pairwise_append.2 ⟨ih, List.pairwise_singleton _ _, ?_⟩
    intro x hx y hy
    rw [List.mem_singleton.1 hy]
    exact fun he => hnew (h.closed hx he)

/-- A node goes before a later one that waits for all it waits for. -/
theorem Greedy.keeps {l : List ℕ} (h : Greedy count edges key l) {x y : ℕ} (hx : x < count)
    (hlt : toLex (key x, x) < toLex (key y, y)) (hsub : ∀ b, (b, x) ∈ edges → (b, y) ∈ edges)
    (hy : y ∈ l) : [x, y].Sublist l := by
  induction h with
  | nil => cases hy
  | snoc taken node _ _ hmet hleast ih =>
    rcases List.mem_append.1 hy with hy | hy
    · exact (ih hy).trans (List.sublist_append_left _ _)
    · obtain rfl := List.mem_singleton.1 hy
      have hxt : x ∈ taken := by
        by_contra hnot
        have hle := hleast x hx hnot fun b hb => hmet b (hsub b hb)
        exact absurd hlt (not_lt.2 hle)
      exact (List.singleton_sublist.2 hxt).append (List.Sublist.refl [y])

theorem Greedy.ancestor {l : List ℕ} (h : Greedy count edges key l) {a x : ℕ} (hx : x ∈ l)
    (ha : Relation.ReflTransGen (fun a b => (a, b) ∈ edges) a x) : a ∈ l := by
  induction ha using Relation.ReflTransGen.head_induction_on with
  | refl => exact hx
  | head hstep _ ih => exact h.closed ih hstep

/-- Every edge among the nodes taken goes forward. -/
theorem Greedy.idxOf_lt {l : List ℕ} (h : Greedy count edges key l) {a b : ℕ} (hb : b ∈ l)
    (he : (a, b) ∈ edges) : l.idxOf a < l.idxOf b := by
  induction h with
  | nil => cases hb
  | snoc taken node h hnew hmet _ ih =>
    rcases List.mem_append.1 hb with hb | hb
    · rw [List.idxOf_append_of_mem hb, List.idxOf_append_of_mem (h.closed hb he)]
      exact ih hb
    · obtain rfl := List.mem_singleton.1 hb
      have ha := hmet a he
      rw [List.idxOf_append_of_mem ha, List.idxOf_append_of_notMem hnew]
      have hlt := List.idxOf_lt_length_of_mem ha
      omega

theorem Greedy.acyclic {l : List ℕ} (h : Greedy count edges key l) {x : ℕ} (hx : x ∈ l) :
    ¬ Relation.TransGen (fun a b => (a, b) ∈ edges) x x := by
  have hforward : ∀ a, Relation.TransGen (fun a b => (a, b) ∈ edges) a x → l.idxOf a < l.idxOf x := by
    intro a ha
    induction ha using Relation.TransGen.head_induction_on with
    | single hstep => exact h.idxOf_lt hx hstep
    | head hstep hrest ih => exact (h.idxOf_lt (h.ancestor hx hrest.to_reflTransGen) hstep).trans ih
  exact fun hcycle => absurd (hforward x hcycle) (lt_irrefl _)

end

end Topology

section

variable {count : ℕ} {edges : List (ℕ × ℕ)} (key : ℕ → K)

theorem topologicalOrder_spec (hbound : ∀ edge ∈ edges, edge.1 < count ∧ edge.2 < count) :
    ((topologicalOrder count edges key).1 ++ (topologicalOrder count edges key).2).Perm (List.range count) ∧
      Topology.Greedy count edges key (topologicalOrder count edges key).1 ∧
      ∀ x ∈ (topologicalOrder count edges key).2, ∃ b ∈ (topologicalOrder count edges key).2, (b, x) ∈ edges := by
  obtain ⟨hinv, hg, hempty⟩ := Topology.drain_inv hbound count (Topology.init count edges key)
    Topology.init_inv Topology.Greedy.nil (by simp)
  unfold topologicalOrder
  generalize (Topology.init count edges key).drain edges key count = t at hinv hg hempty
  -- with nothing ready, the nodes left are those that wait
  have hleft : ∀ x < count, (0 < t.unmet x ↔ x ∉ t.ordered) := by
    intro x hx
    constructor
    · intro hpos hm
      have := (hinv.taken x hm).2
      omega
    · intro hm
      by_contra hz
      exact hempty _ ((hinv.ready x).2 ⟨hx, by omega, hm⟩)
  refine ⟨?_, hg, ?_⟩
  · have hfilter : (List.range count).filter (fun node => decide (0 < t.unmet node)) =
        (List.range count).filter fun node => decide (node ∉ t.ordered) := by
      apply List.filter_congr
      intro x hx
      rw [decide_eq_decide]
      exact hleft x (List.mem_range.1 hx)
    simp only [hfilter]
    rw [List.perm_ext_iff_of_nodup]
    · intro x
      simp only [List.mem_append, List.mem_filter, List.mem_range, decide_eq_true_eq]
      constructor
      · rintro (hx | hx)
        · exact (hinv.taken x hx).1
        · exact hx.1
      · intro hx
        by_cases hm : x ∈ t.ordered
        · exact Or.inl hm
        · exact Or.inr ⟨hx, hm⟩
    · rw [List.nodup_append]
      refine ⟨hinv.distinct, List.nodup_range.filter _, ?_⟩
      rintro x hx y hy rfl
      simp only [List.mem_filter, decide_eq_true_eq] at hy
      exact hy.2 hx
    · exact List.nodup_range
  · intro x hx
    simp only [List.mem_filter, List.mem_range, decide_eq_true_eq] at hx ⊢
    have hu := hinv.unmet x
    rw [List.count_nil, Nat.add_zero] at hu
    obtain ⟨⟨b, y⟩, hb⟩ := List.exists_mem_of_length_pos (by rw [← hu]; exact hx.2)
    simp only [Topology.waiting, List.mem_filter, decide_eq_true_eq] at hb
    obtain ⟨he, rfl, hnot⟩ := hb
    exact ⟨b, ⟨(hbound _ he).1, (hleft b (hbound _ he).1).2 hnot⟩, he⟩

theorem topologicalOrderChecked_eq (hbound : ∀ edge ∈ edges, edge.1 < count ∧ edge.2 < count) {fuel : ℕ} (hfuel : count < fuel) :
    topologicalOrderChecked fuel count edges key = some (topologicalOrder count edges key) := by
  rw [topologicalOrderChecked, Topology.drainChecked_eq hbound fuel _ Topology.init_inv (Nat.lt_add_right _ hfuel) count (Nat.le_add_right _ _)]
  rfl

/-- With what is left over appended, the order still keeps a node before a later one
that waits for all it waits for. -/
theorem topologicalOrder_keeps (hbound : ∀ edge ∈ edges, edge.1 < count ∧ edge.2 < count) {x y : ℕ}
    (hy : y < count) (hxy : x < y) (hkey : key x ≤ key y)
    (hsub : ∀ b, (b, x) ∈ edges → (b, y) ∈ edges) :
    Precedes ((topologicalOrder count edges key).1 ++ (topologicalOrder count edges key).2) x y := by
  obtain ⟨hperm, hgreedy, -⟩ := topologicalOrder_spec key hbound
  have hlex : toLex (key x, x) < toLex (key y, y) := by
    rw [Prod.Lex.toLex_lt_toLex]
    rcases hkey.lt_or_eq with h | h
    · exact Or.inl h
    · exact Or.inr ⟨h, hxy⟩
  have hmem : ∀ z < count, z ∈ (topologicalOrder count edges key).1 ∨
      z ∈ (topologicalOrder count edges key).2 :=
    fun z hz => List.mem_append.1 (hperm.mem_iff.2 (List.mem_range.2 hz))
  rcases hmem y hy with hy1 | hy2
  · exact (hgreedy.keeps (hxy.trans hy) hlex hsub hy1).trans (List.sublist_append_left _ _)
  · rcases hmem x (hxy.trans hy) with hx1 | hx2
    · exact (List.singleton_sublist.2 hx1).append (List.singleton_sublist.2 hy2)
    · have hsorted : (topologicalOrder count edges key).2.Pairwise (· < ·) :=
        List.pairwise_lt_range.filter _
      exact (precedes_of_pairwise hsorted hx2 hy2 hxy.ne hxy.le.not_gt).trans
        (List.sublist_append_right _ _)

theorem topologicalOrder_acyclic (hbound : ∀ edge ∈ edges, edge.1 < count ∧ edge.2 < count)
    (hacyclic : ∀ x, ¬ Relation.TransGen (fun a b => (a, b) ∈ edges) x x) :
    (topologicalOrder count edges key).2 = [] := by
  by_contra hne
  obtain ⟨a, ha, hmin⟩ := exists_minimal_of_acyclic _ hacyclic hne
  obtain ⟨b, hb, he⟩ := (topologicalOrder_spec key hbound).2.2 a ha
  exact hmin b hb he

/-- What is left over is what lies on a cycle or behind one. -/
theorem mem_leftOver (hbound : ∀ edge ∈ edges, edge.1 < count ∧ edge.2 < count) {x : ℕ} :
    x ∈ (topologicalOrder count edges key).2 ↔ x < count ∧
      ∃ c, Relation.TransGen (fun a b => (a, b) ∈ edges) c c ∧ Relation.ReflTransGen (fun a b => (a, b) ∈ edges) c x := by
  obtain ⟨hperm, hgreedy, hwaits⟩ := topologicalOrder_spec key hbound
  constructor
  · intro hx
    refine ⟨List.mem_range.1 (hperm.mem_iff.1 (List.mem_append_right _ hx)), ?_⟩
    exact exists_cycle_before (fun a b => (a, b) ∈ edges) hwaits hx
  · rintro ⟨hlt, c, hcycle, hreach⟩
    refine (List.mem_append.1 (hperm.mem_iff.2 (List.mem_range.2 hlt))).resolve_left fun hx => ?_
    exact hgreedy.acyclic (hgreedy.ancestor hx hreach) hcycle

/-- Kahn's algorithm ends, and orders the nodes: those with a cycle on or before them are left over, every other
one comes after its predecessors, and is the least of those that could be taken then. -/
theorem topologicalOrder_correct (hbound : ∀ edge ∈ edges, edge.1 < count ∧ edge.2 < count) : ∃ ordered leftOver,
    (∀ fuel > count, topologicalOrderChecked fuel count edges key = some (ordered, leftOver)) ∧
      (ordered ++ leftOver).Perm (List.range count) ∧
      (∀ a ∈ ordered, ∀ b ∈ ordered, (a, b) ∈ edges → ordered.idxOf a < ordered.idxOf b) ∧
      (∀ x < count, x ∈ leftOver ↔ ∃ c, Relation.TransGen (fun a b => (a, b) ∈ edges) c c ∧
        Relation.ReflTransGen (fun a b => (a, b) ∈ edges) c x) ∧
      ∀ before node later, ordered = before ++ node :: later → (∀ b, (b, node) ∈ edges → b ∈ before) ∧
        ∀ x < count, x ∉ before → (∀ b, (b, x) ∈ edges → b ∈ before) → toLex (key node, node) ≤ toLex (key x, x) := by
  obtain ⟨hperm, hgreedy, -⟩ := topologicalOrder_spec key hbound
  refine ⟨_, _, fun fuel hfuel => topologicalOrderChecked_eq key hbound hfuel, hperm, ?_, fun x hx => ?_, ?_⟩
  · exact fun a _ b hb he => hgreedy.idxOf_lt hb he
  · exact (mem_leftOver key hbound).trans (and_iff_right hx)
  · exact fun before node later heq => hgreedy.split heq

theorem topologicalOrder_correct_cycle : ∃ ordered leftOver,
    (∀ fuel > 4, topologicalOrderChecked fuel 4 [(1, 0), (1, 0), (2, 3), (3, 2)] (fun node => 10 - node) = some (ordered, leftOver)) ∧
      (ordered ++ leftOver).Perm (List.range 4) := by
  have hbound : ∀ edge ∈ [(1, 0), (1, 0), (2, 3), (3, 2)], edge.1 < 4 ∧ edge.2 < 4 := by decide
  obtain ⟨ordered, leftOver, hrun, hperm, -⟩ := topologicalOrder_correct (fun node => 10 - node) hbound
  exact ⟨ordered, leftOver, hrun, hperm⟩

end

end TideOrm
