import TideOrm.Spec.Validation

/-! Integers against bounds given as `f64`. -/

namespace TideOrm.Validation

open Lib ValidatableValue

variable {T : Type} [ValidatableValue T]

/-- The limit is rounded up, past every `i128`. -/
theorem round_i128Max : ∃ h, BinaryFloat.round binary64 i128Max = .finite (2 ^ 127) h :=
  BinaryFloat.eq_finite_of_toRat (by decide +kernel)

theorem round_i128Min : ∃ h, BinaryFloat.round binary64 i128Min = .finite (-2 ^ 127) h :=
  BinaryFloat.eq_finite_of_toRat (by decide +kernel)

theorem i128_bounds (n : I128) : (-2 ^ 127 : ℚ) ≤ n.val ∧ (n.val : ℚ) ≤ 2 ^ 127 - 1 := by
  obtain ⟨n, hlow, hhigh⟩ := n
  rw [i128Min] at hlow
  rw [i128Max] at hhigh
  constructor
  · exact_mod_cast hlow
  · exact_mod_cast hhigh

/-- Above the last `i128` the next binary64 number is the limit that the cast saturates. -/
theorem eq_limit {b : ℚ} (h : binary64.IsValue b) (hlow : (2 : ℚ) ^ 127 - 1 < b) (hhigh : b ≤ 2 ^ 127) : b = 2 ^ 127 := by
  obtain ⟨m, rfl⟩ := h.whole (by
    rw [abs_of_pos (lt_trans (by norm_num) hlow), binary64]
    norm_num at hlow ⊢
    linarith)
  have hlow' : (2 : ℤ) ^ 127 - 1 < m := by exact_mod_cast hlow
  have hhigh' : m ≤ (2 : ℤ) ^ 127 := by exact_mod_cast hhigh
  have heq : m = 2 ^ 127 := by omega
  exact_mod_cast heq

theorem asI128_ceil {b : ℚ} (h : binary64.IsValue b) :
    (Binary64.asI128 (BinaryFloat.ceil binary64_whole (.finite b h))).val = max i128Min (min i128Max ⌈b⌉) :=
  BinaryFloat.saturate_whole _ _ _ (h.ceil binary64_whole)

theorem asI128_floor {b : ℚ} (h : binary64.IsValue b) :
    (Binary64.asI128 (BinaryFloat.floor binary64_whole (.finite b h))).val = max i128Min (min i128Max ⌊b⌋) :=
  BinaryFloat.saturate_whole _ _ _ (h.floor binary64_whole)

variable (x : Crates) {value : T} {n : I128} (hvalue : asI128Value value = some n)

include hvalue

theorem belowBound_integer {b : ℚ} (h : binary64.IsValue b) :
    belowBound x value (.finite b h) = some (if 2 ^ 127 < b then true else if b ≤ -2 ^ 127 then false
      else decide (n.val < max i128Min (min i128Max ⌈b⌉))) := by
  obtain ⟨hmax, hmax'⟩ := round_i128Max
  obtain ⟨hmin, hmin'⟩ := round_i128Min
  rw [belowBound, hvalue]
  simp only [hmax', hmin', BinaryFloat.lt_finite, BinaryFloat.le_finite, asI128_ceil, decide_eq_true_eq]

theorem aboveBound_integer {b : ℚ} (h : binary64.IsValue b) :
    aboveBound x value (.finite b h) = some (if 2 ^ 127 ≤ b then false else if b < -2 ^ 127 then true
      else decide (n.val > max i128Min (min i128Max ⌊b⌋))) := by
  obtain ⟨hmax, hmax'⟩ := round_i128Max
  obtain ⟨hmin, hmin'⟩ := round_i128Min
  rw [aboveBound, hvalue]
  simp only [hmax', hmin', BinaryFloat.lt_finite, BinaryFloat.le_finite, asI128_floor, decide_eq_true_eq]

/-- The one integer and bound that the saturating cast confuses. -/
theorem belowBound_exact_iff {b : ℚ} (h : binary64.IsValue b) :
    belowBound x value (.finite b h) = some (decide ((n.val : ℚ) < b)) ↔ ¬(n.val = i128Max ∧ b = 2 ^ 127) := by
  obtain ⟨hlow, hhigh⟩ := i128_bounds n
  rw [belowBound_integer x hvalue h, Option.some_inj]
  split_ifs with hover hunder
  · have hlt : (n.val : ℚ) < b := by linarith
    have hne : b ≠ 2 ^ 127 := hover.ne'
    simp [hlt, hne]
  · have hge : ¬(n.val : ℚ) < b := by linarith
    have hne : b ≠ 2 ^ 127 := by
      intro heq
      rw [heq] at hunder
      norm_num at hunder
    simp [hge, hne]
  · rw [not_lt] at hover
    rw [not_le] at hunder
    have hceil : i128Min ≤ min i128Max ⌈b⌉ := by
      have hb : (-2 ^ 127 : ℤ) < ⌈b⌉ := Int.lt_ceil.2 (by push_cast; exact hunder)
      rw [i128Min, i128Max]
      omega
    rw [max_eq_right hceil, decide_eq_decide, lt_min_iff, Int.lt_ceil]
    constructor
    · rintro hiff ⟨hn, rfl⟩
      have hlt : (n.val : ℚ) < 2 ^ 127 := by linarith
      exact absurd (hiff.2 hlt).1 (by omega)
    · intro hnot
      refine ⟨And.right, fun hlt => ⟨?_, hlt⟩⟩
      by_contra hge
      have hn : n.val = i128Max := le_antisymm n.within.2 (not_lt.1 hge)
      refine hnot ⟨hn, eq_limit h ?_ hover⟩
      rw [hn, i128Max] at hlt
      exact_mod_cast hlt

theorem aboveBound_exact {b : ℚ} (h : binary64.IsValue b) :
    aboveBound x value (.finite b h) = some (decide (b < n.val)) := by
  obtain ⟨hlow, hhigh⟩ := i128_bounds n
  rw [aboveBound_integer x hvalue h, Option.some_inj]
  split_ifs with hover hunder
  · have hge : ¬b < n.val := by linarith
    simp [hge]
  · have hlt : b < n.val := by linarith
    simp [hlt]
  · rw [not_le] at hover
    rw [not_lt] at hunder
    have hfloor : ⌊b⌋ < 2 ^ 127 := Int.floor_lt.2 (by push_cast; exact hover)
    have hfloor' : -2 ^ 127 ≤ ⌊b⌋ := Int.le_floor.2 (by push_cast; exact hunder)
    have hclamp : max i128Min (min i128Max ⌊b⌋) = ⌊b⌋ := by
      rw [i128Min, i128Max]
      omega
    rw [hclamp, decide_eq_decide, gt_iff_lt, Int.floor_lt]

omit hvalue

/-- What the float bounds promise for the integer `n`: its exact place among them. -/
structure FloatBoundsExact (u : CharTables) (value : T) (n : ℤ) {low high : ℚ} (hlow : binary64.IsValue low)
    (hhigh : binary64.IsValue high) : Prop where
  below : belowBound x value (.finite low hlow) = some (decide ((n : ℚ) < low))
  above : aboveBound x value (.finite high hhigh) = some (decide (high < n))
  min : ∀ field, validateRule u x value (.min (.finite low hlow)) field ≠ none ↔ (n : ℚ) < low
  max : ∀ field, validateRule u x value (.max (.finite high hhigh)) field ≠ none ↔ high < n
  range : ∀ field, validateRule u x value (.range (.finite low hlow) (.finite high hhigh)) field ≠ none ↔
    (n : ℚ) < low ∨ high < n

include hvalue

theorem floatBoundsExact_iff (u : CharTables) {low high : ℚ} (hlow : binary64.IsValue low) (hhigh : binary64.IsValue high) :
    FloatBoundsExact x u value n.val hlow hhigh ↔ ¬(n.val = i128Max ∧ low = 2 ^ 127) := by
  rw [← belowBound_exact_iff x hvalue hlow]
  have habove := aboveBound_exact x hvalue hhigh
  constructor
  · exact FloatBoundsExact.below
  · intro hbelow
    refine ⟨hbelow, habove, fun field => ?_, fun field => ?_, fun field => ?_⟩
    · simp [validateRule, hbelow]
    · simp [validateRule, habove]
    · rw [or_iff_not_imp_left, not_lt]
      simp [validateRule, hbelow, habove]

omit hvalue

theorem floatBoundsExact_iff_zero : ∃ hhalf : binary64.IsValue (1 / 2), ∀ (x : Crates) (u : CharTables),
    FloatBoundsExact x u (⟨0, by decide⟩ : I128) 0 hhalf hhalf ↔ ¬((0 : ℤ) = i128Max ∧ (1 / 2 : ℚ) = 2 ^ 127) := by
  have hhalf : binary64.IsValue (1 / 2 : ℚ) := ⟨1, -1, by decide, by decide, by decide, by norm_num⟩
  exact ⟨hhalf, fun x u => @floatBoundsExact_iff I128 _ x ⟨0, by decide⟩ ⟨0, by decide⟩ rfl u _ _ hhalf hhalf⟩

/-- The largest `i128` passes a minimum above it. -/
theorem passes_minimum_above : ∃ hlimit : binary64.IsValue (2 ^ 127), (i128Max : ℚ) < 2 ^ 127 ∧ ∀ (x : Crates) (u : CharTables),
    asI128Value (⟨i128Max, by decide⟩ : I128) = some ⟨i128Max, by decide⟩ ∧
    belowBound x (⟨i128Max, by decide⟩ : I128) (.finite (2 ^ 127) hlimit) = some false ∧
    validateRule u x (⟨i128Max, by decide⟩ : I128) (.min (.finite (2 ^ 127) hlimit)) "n".toList = none := by
  have hlimit : binary64.IsValue (2 ^ 127 : ℚ) := ⟨1, 127, by decide, by decide, by decide, by norm_num⟩
  refine ⟨hlimit, by norm_num [i128Max], fun x u => ?_⟩
  have hbelow : belowBound x (⟨i128Max, by decide⟩ : I128) (.finite (2 ^ 127) hlimit) = some false := by
    rw [belowBound_integer x (n := ⟨i128Max, by decide⟩) rfl hlimit]
    decide +kernel
  exact ⟨rfl, hbelow, by simp [validateRule, hbelow]⟩

end TideOrm.Validation
