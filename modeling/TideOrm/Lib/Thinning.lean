import TideOrm.Lib.HashMap
import Mathlib.Data.List.MinMax

/-! Hash maps that are thinned out: the entry of least rank goes first, until there is room for one more. -/

namespace Lib

/-- The order a hash map's entries are visited in, which may be any. -/
structure IterationOrder (K V : Type) where
  entries : HashMap K V → List ((_ : K) × V)
  perm : ∀ m, (entries m).Perm m.entries

/-- The order the entries are kept in. -/
def IterationOrder.stored (K V : Type) : IterationOrder K V := ⟨AList.entries, fun _ => List.Perm.refl _⟩

variable {K V R : Type} [LinearOrder R] (order : IterationOrder K V) (rank : V → R)

/-- The key of the entry of least rank, the one visited first among equals. -/
def minByKey (m : HashMap K V) : Option K := ((order.entries m).argmin fun e => rank e.2).map Sigma.fst

variable {order rank} {m : HashMap K V}

theorem minByKey_none (h : minByKey order rank m = none) : m.len = 0 := by
  have hnil := List.argmin_eq_none.1 (Option.map_eq_none_iff.1 h)
  rw [AList.len, ← (order.perm m).length_eq, hnil, List.length_nil]

variable [DecidableEq K]

theorem mem_order_iff {k : K} {v : V} : (⟨k, v⟩ : (_ : K) × V) ∈ order.entries m ↔ m.lookup k = some v :=
  (order.perm m).mem_iff.trans AList.mem_entries_iff

theorem minByKey_some {k : K} (h : minByKey order rank m = some k) :
    ∃ v, m.lookup k = some v ∧ ∀ k' v', m.lookup k' = some v' → rank v ≤ rank v' := by
  obtain ⟨⟨key, v⟩, hmin, rfl⟩ := Option.map_eq_some_iff.1 h
  refine ⟨v, mem_order_iff.1 (List.argmin_mem hmin), fun k' v' hv' => ?_⟩
  exact List.le_of_mem_argmin (f := fun e : (_ : K) × V => rank e.2) (mem_order_iff.2 hv') hmin

theorem len_minByKey {k : K} (h : minByKey order rank m = some k) : (m.erase k : HashMap K V).len < m.len := by
  obtain ⟨v, hv, -⟩ := minByKey_some h
  have hlen := AList.len_erase hv
  omega

variable (order rank) in
/-- Entries go, least rank first, while there are `max` or more; their number is added to `evictions`. -/
def thin (max : ℕ) (m : HashMap K V) (evictions : ℕ) : HashMap K V × ℕ :=
  if max ≤ m.len then
    match h : minByKey order rank m with
    | some key => thin max (m.erase key) (evictions + 1)
    | none => (m, evictions)
  else (m, evictions)
termination_by m.len
decreasing_by exact len_minByKey h

/-- What thinning leaves: the entries kept are those of the highest ranks, and no more go than have to. -/
structure Thinned (rank : V → R) (max : ℕ) (m : HashMap K V) (after : HashMap K V × ℕ) (evictions : ℕ) : Prop where
  kept : ∀ k v, after.1.lookup k = some v → m.lookup k = some v
  len : after.1.len = min m.len (max - 1)
  evictions : after.2 + after.1.len = evictions + m.len
  total : ∀ weight, after.1.total weight ≤ m.total weight
  least : ∀ k v k' v', m.lookup k = some v → after.1.lookup k = none → after.1.lookup k' = some v' → rank v ≤ rank v'

variable (order rank) in
theorem thin_thinned (max : ℕ) (m : HashMap K V) (evictions : ℕ) :
    Thinned rank max m (thin order rank max m evictions) evictions := by
  fun_induction thin order rank max m evictions with
  | case1 m evictions hmax key hkey ih =>
    obtain ⟨v, hv, hleast⟩ := minByKey_some hkey
    have hlen := AList.len_erase hv
    have hkept := ih.len
    have hevictions := ih.evictions
    refine ⟨fun k w hk => ?_, by omega, by omega, fun weight => (ih.total weight).trans (AList.total_erase_le m weight key),
      fun k w k' w' hk hgone hk' => ?_⟩
    · have herase := ih.kept k w hk
      rw [AList.lookup_erase_cases] at herase
      split_ifs at herase
      exact herase
    · by_cases hkk : k = key
      · have herase := ih.kept k' w' hk'
        rw [AList.lookup_erase_cases] at herase
        split_ifs at herase
        rw [hkk, hv, Option.some_inj] at hk
        exact hk ▸ hleast k' w' herase
      · exact ih.least k w k' w' (by rw [AList.lookup_erase_cases, if_neg hkk, hk]) hgone hk'
  | case2 m evictions hmax hkey =>
    have hlen := minByKey_none hkey
    have hroom : m.len = min m.len (max - 1) := by omega
    exact ⟨fun _ _ h => h, hroom, rfl, fun _ => Nat.le_refl _, fun k v _ _ hk hgone _ => absurd (hk.symm.trans hgone) (Option.some_ne_none v)⟩
  | case3 m evictions hmax =>
    have hroom : m.len = min m.len (max - 1) := by omega
    exact ⟨fun _ _ h => h, hroom, rfl, fun _ => Nat.le_refl _, fun k v _ _ hk hgone _ => absurd (hk.symm.trans hgone) (Option.some_ne_none v)⟩

/-- Nothing goes where there is room already. -/
theorem thin_of_lt {max : ℕ} (h : m.len < max) (evictions : ℕ) : thin order rank max m evictions = (m, evictions) := by
  rw [thin, if_neg (Nat.not_le.2 h)]

end Lib
