import Mathlib.Data.List.AList
import Mathlib.Algebra.GroupWithZero.Nat
import Mathlib.Algebra.BigOperators.Group.List.Basic

/-! Hash maps as association lists without repeated keys. The operations are
those of `AList`; added here are `retain`, the number of entries, and the sum
of a weight over the values, with how each update changes them. -/

namespace Lib

abbrev HashMap (K V : Type) := AList (fun _ : K => V)

/-- Pairs of texts are told apart as their parts are. -/
instance lawfulBEqTextPair : LawfulBEq (String × String) := inferInstance

end Lib

namespace AList

open Lib

section

variable {K V : Type}

def len (m : HashMap K V) : ℕ := m.entries.length

def retain (m : HashMap K V) (keep : K → V → Bool) : HashMap K V :=
  ⟨m.entries.filter fun e => keep e.1 e.2, m.nodupKeys.sublist List.filter_sublist⟩

def total (m : HashMap K V) (weight : V → ℕ) : ℕ := (m.entries.map fun e => weight e.2).sum

private theorem filter_sum (weight : V → ℕ) (keep : K → V → Bool) (l : List ((_ : K) × V)) :
    ((l.filter fun e => keep e.1 e.2).map fun e => weight e.2).sum +
      ((l.filter fun e => !keep e.1 e.2).map fun e => weight e.2).sum =
        (l.map fun e => weight e.2).sum := by
  induction l with
  | nil => rfl
  | cons e rest ih =>
    by_cases h : keep e.1 e.2 = true
    · simp only [List.filter_cons, h, if_true, Bool.not_true, Bool.false_eq_true, if_false,
        List.map_cons, List.sum_cons, ← ih]
      omega
    · simp only [List.filter_cons, h, if_false, Bool.not_false, if_true, Bool.false_eq_true,
        List.map_cons, List.sum_cons, ← ih]
      omega

theorem total_retain (m : HashMap K V) (weight : V → ℕ) (keep : K → V → Bool) :
    (m.retain keep).total weight + (m.retain fun k v => !keep k v).total weight = m.total weight :=
  filter_sum weight keep m.entries

end

variable {K V : Type} [DecidableEq K]

/-- Remove the entry with the least key (`BTreeMap::pop_first`). -/
def popFirst (m : HashMap ℕ V) : Option (V × HashMap ℕ V) :=
  match m.keys.min? with
  | none => none
  | some k => (m.lookup k).map fun v => (v, m.erase k)

theorem mem_entries_iff {m : HashMap K V} {k : K} {v : V} :
    (⟨k, v⟩ : (_ : K) × V) ∈ m.entries ↔ m.lookup k = some v :=
  AList.mem_lookup_iff.symm

theorem len_pos_iff {m : HashMap K V} : 0 < m.len ↔ ∃ k v, m.lookup k = some v := by
  constructor
  · intro h
    obtain ⟨⟨k, v⟩, he⟩ := List.exists_mem_of_length_pos h
    exact ⟨k, v, mem_entries_iff.1 he⟩
  · rintro ⟨k, v, h⟩
    exact List.length_pos_of_mem (mem_entries_iff.2 h)

theorem lookup_insert_cases (m : HashMap K V) (k k' : K) (v : V) :
    (m.insert k v).lookup k' = if k' = k then some v else m.lookup k' := by
  split_ifs with h
  · subst h; exact AList.lookup_insert m
  · exact AList.lookup_insert_ne h

theorem lookup_erase_cases (m : HashMap K V) (k k' : K) :
    (m.erase k).lookup k' = if k' = k then none else m.lookup k' := by
  split_ifs with h
  · subst h; exact AList.lookup_erase k' m
  · exact AList.lookup_erase_ne h

theorem lookup_retain (m : HashMap K V) (keep : K → V → Bool) (k : K) (v : V) :
    (m.retain keep).lookup k = some v ↔ m.lookup k = some v ∧ keep k v = true := by
  rw [← mem_entries_iff, ← mem_entries_iff]
  exact List.mem_filter

private theorem kerase_sum (weight : V → ℕ) (k : K) (v : V) (l : List ((_ : K) × V))
    (h : l.dlookup k = some v) :
    ((l.kerase k).map fun e => weight e.2).sum + weight v = (l.map fun e => weight e.2).sum := by
  induction l with
  | nil => simp at h
  | cons e rest ih =>
    obtain ⟨k', v'⟩ := e
    by_cases hk : k = k'
    · subst hk
      rw [List.dlookup_cons_eq] at h
      cases h
      rw [List.kerase_cons_eq (by rfl)]
      simp only [List.map_cons, List.sum_cons]
      omega
    · have := ih ((List.dlookup_cons_ne rest (⟨k', v'⟩ : (_ : K) × V) hk).symm.trans h)
      rw [List.kerase_cons_ne hk]
      simp only [List.map_cons, List.sum_cons]
      omega

theorem total_erase {m : HashMap K V} {k : K} {v : V} (weight : V → ℕ) (h : m.lookup k = some v) :
    (m.erase k : HashMap K V).total weight + weight v = m.total weight :=
  kerase_sum weight k v m.entries h

theorem len_erase {m : HashMap K V} {k : K} {v : V} (h : m.lookup k = some v) :
    (m.erase k : HashMap K V).len + 1 = m.len := by
  have := total_erase (fun _ => 1) h
  simpa [len, total] using this

theorem total_insert (m : HashMap K V) (weight : V → ℕ) (k : K) (v : V) :
    (m.insert k v : HashMap K V).total weight = weight v + (m.erase k : HashMap K V).total weight := by
  unfold total
  rw [AList.entries_insert]
  rfl

theorem erase_of_lookup_none {m : HashMap K V} {k : K} (h : m.lookup k = none) : m.erase k = m := by
  apply AList.ext
  exact List.kerase_of_notMem_keys (AList.lookup_eq_none.1 h)

theorem len_insert_of_none {m : HashMap K V} {k : K} (v : V) (h : m.lookup k = none) :
    (m.insert k v : HashMap K V).len = m.len + 1 := by
  simp only [len, AList.entries_insert, List.kerase_of_notMem_keys (AList.lookup_eq_none.1 h),
    List.length_cons]

theorem len_insert_le (m : HashMap K V) (k : K) (v : V) : (m.insert k v : HashMap K V).len ≤ m.len + 1 := by
  simp only [len, AList.entries_insert, List.length_cons]
  exact Nat.succ_le_succ (List.kerase_sublist k m.entries).length_le

theorem popFirst_none {m : HashMap ℕ V} (h : m.popFirst = none) : m.len = 0 := by
  unfold popFirst at h
  cases hmin : m.keys.min? with
  | none =>
    have hkeys : m.keys = [] := List.min?_eq_none_iff.1 hmin
    have hentries : m.entries = [] := by simpa [AList.keys, List.keys] using hkeys
    rw [len, hentries, List.length_nil]
  | some k =>
    rw [hmin] at h
    have hmem : k ∈ m.keys := List.min?_mem hmin
    have hnone : m.lookup k = none := by simpa using h
    exact absurd hmem (AList.lookup_eq_none.1 hnone)

theorem popFirst_some {m m' : HashMap ℕ V} {v : V} (h : m.popFirst = some (v, m')) :
    ∃ k, m.lookup k = some v ∧ m' = m.erase k := by
  unfold popFirst at h
  cases hmin : m.keys.min? with
  | none =>
    rw [hmin] at h
    cases h
  | some k =>
    rw [hmin] at h
    obtain ⟨v', hv', heq⟩ := Option.map_eq_some_iff.1 h
    obtain ⟨rfl, rfl⟩ := Prod.mk.inj heq
    exact ⟨k, hv', rfl⟩

theorem total_update {m : HashMap K V} (weight : V → ℕ) {k : K} {old : V} (h : m.lookup k = some old) (v : V) :
    (m.insert k v : HashMap K V).total weight + weight old = m.total weight + weight v := by
  have herase := total_erase weight h
  rw [total_insert]
  omega

theorem len_update {m : HashMap K V} {k : K} {old : V} (h : m.lookup k = some old) (v : V) :
    (m.insert k v : HashMap K V).len = m.len := by
  rw [← len_erase h, len, AList.entries_insert]
  rfl

/-- Erasing the keys a list names. -/
theorem lookup_foldl_erase {E : Type} (key : E → K) (l : List E) : ∀ (m : HashMap K V) (k : K),
    (l.foldl (fun m e => m.erase (key e)) m).lookup k = if ∃ e ∈ l, key e = k then none else m.lookup k := by
  induction l with
  | nil => intro m k; simp
  | cons e rest ih =>
    intro m k
    rw [List.foldl_cons, ih, lookup_erase_cases]
    by_cases hrest : ∃ e ∈ rest, key e = k
    · obtain ⟨e', he', hk⟩ := hrest
      rw [if_pos ⟨e', he', hk⟩, if_pos ⟨e', List.mem_cons_of_mem e he', hk⟩]
    · rw [if_neg hrest]
      by_cases hk : k = key e
      · rw [if_pos hk, if_pos ⟨e, List.mem_cons_self, hk.symm⟩]
      · rw [if_neg hk, if_neg]
        rintro ⟨e', he', hk'⟩
        rcases List.mem_cons.1 he' with rfl | hmem
        · exact hk hk'.symm
        · exact hrest ⟨e', hmem, hk'⟩

theorem len_erase_le (m : HashMap K V) (k : K) : (m.erase k : HashMap K V).len ≤ m.len := by
  cases h : m.lookup k with
  | none => exact (congrArg len (erase_of_lookup_none h)).le
  | some v =>
    have := len_erase h
    omega

theorem total_erase_le (m : HashMap K V) (weight : V → ℕ) (k : K) : (m.erase k : HashMap K V).total weight ≤ m.total weight := by
  cases h : m.lookup k with
  | none => exact (congrArg (fun m => total m weight) (erase_of_lookup_none h)).le
  | some v =>
    have := total_erase weight h
    omega

theorem len_foldl_erase_le {E : Type} (key : E → K) (l : List E) : ∀ m : HashMap K V,
    (l.foldl (fun m e => m.erase (key e)) m : HashMap K V).len ≤ m.len := by
  induction l with
  | nil => exact fun m => Nat.le_refl _
  | cons e rest ih => exact fun m => (ih (m.erase (key e))).trans (len_erase_le m _)

end AList
