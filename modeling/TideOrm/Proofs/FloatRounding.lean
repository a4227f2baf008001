import TideOrm.Spec.FloatRounding
import Mathlib.Tactic.IntervalCases
import Mathlib.Tactic.NormNum

/-! The query rounds to the nearest binary32 value: its eight steps find the spacing around the
value, the largest power of two, from the least on, that the value holds `2 ^ 23` of. -/

namespace TideOrm

open Lib

section Rows

variable (value : Option ℚ)

/-- The row of a step. -/
def spacingAt : ℕ → SpacingRow
  | 0 => ⟨0, f32Minimum⟩
  | n + 1 =>
    ⟨n + 1,
      if value.any fun value => decide (|value| ≥ (spacingAt n).quantum * f32Factor n * 8388608) then
        (spacingAt n).quantum * f32Factor n
      else (spacingAt n).quantum⟩

@[simp] theorem spacingAt_step (n : ℕ) : (spacingAt value n).step = n := by
  cases n <;> rfl

theorem nextSpacing_spacingAt (n : ℕ) :
    nextSpacing value (spacingAt value n) = if n < 8 then [spacingAt value (n + 1)] else [] := by
  rw [nextSpacing, spacingAt_step]
  rfl

/-- A row for every step from one on, however long the recursion may go on. -/
theorem recursiveRows_spacingAt : ∀ (left n rounds : ℕ), n + left = 8 → left < rounds →
    recursiveRows (nextSpacing value) rounds [spacingAt value n] = (List.range' n (left + 1)).map (spacingAt value) := by
  intro left
  induction left with
  | zero =>
    intro n rounds hn hrounds
    obtain rfl : n = 8 := hn
    obtain ⟨rounds, rfl⟩ : ∃ r, rounds = r + 1 := ⟨rounds - 1, by omega⟩
    rw [recursiveRows, List.flatMap_singleton, nextSpacing_spacingAt, if_neg (Nat.lt_irrefl 8)]
    cases rounds <;> simp [recursiveRows]
  | succ left ih =>
    intro n rounds hn hrounds
    obtain ⟨rounds, rfl⟩ : ∃ r, rounds = r + 1 := ⟨rounds - 1, by omega⟩
    rw [recursiveRows, List.flatMap_singleton, nextSpacing_spacingAt, if_pos (by omega : n < 8),
      ih (n + 1) rounds (by omega) (by omega), List.range'_succ]
    rfl

theorem spacingRows_eq : spacingRows value = (List.range' 0 9).map (spacingAt value) :=
  recursiveRows_spacingAt value 8 0 9 rfl (by decide)

/-- The recursion ends by itself. -/
theorem spacingRows_ends {rounds : ℕ} (h : 9 ≤ rounds) :
    recursiveRows (nextSpacing value) rounds [⟨0, f32Minimum⟩] = spacingRows value :=
  (recursiveRows_spacingAt value 8 0 rounds rfl (by omega)).trans (spacingRows_eq value).symm

/-- The ninth row is the one that is read. -/
theorem sqliteF32RoundValue_eq : sqliteF32RoundValue value =
    value.map fun v => f32Part v (spacingAt value 8).quantum (|v| / (spacingAt value 8).quantum) := by
  have hscaled : ((spacingRows value).filter fun row => row.step == 8) = [spacingAt value 8] := by
    rw [spacingRows_eq, List.filter_map]
    have hsteps : ((List.range' 0 9).filter ((fun row : SpacingRow => row.step == 8) ∘ spacingAt value)) = [8] := by
      have hstep : ((fun row : SpacingRow => row.step == 8) ∘ spacingAt value) = fun n => n == 8 := by
        funext n
        rw [Function.comp_apply, spacingAt_step]
      rw [hstep]
      decide
    rw [hsteps, List.map_singleton]
  rw [sqliteF32RoundValue, hscaled]
  rfl

end Rows

section Spacing

variable {v : ℚ}

theorem f32Factor_eq {n : ℕ} (h : n < 8) : f32Factor n = 2 ^ (2 ^ (7 - n)) := by
  have hshift : 128 >>> n = 2 ^ (7 - n) := by
    interval_cases n <;> rfl
  rw [f32Factor, hshift]
  rfl

/-- The step doubles the exponent's found part or leaves it, and what is left to find halves. -/
theorem spacing_search (hmax : |v| < 2 ^ 128) (n : ℕ) (hn : n ≤ 8) :
    ∃ k : ℕ, (spacingAt (some v) n).quantum = 2 ^ ((k : ℤ) - 149) ∧ (k = 0 ∨ 2 ^ ((k : ℤ) - 126) ≤ |v|) ∧
      |v| < 2 ^ ((k : ℤ) + 2 ^ (8 - n) - 126) := by
  induction n with
  | zero =>
    refine ⟨0, rfl, .inl rfl, hmax.trans ?_⟩
    norm_num
  | succ n ih =>
    obtain ⟨k, hquantum, hlow, hhigh⟩ := ih (by omega)
    have hbound : (spacingAt (some v) n).quantum * f32Factor n * 8388608 = 2 ^ (((k + 2 ^ (7 - n) : ℕ) : ℤ) - 126) := by
      have hbits : (8388608 : ℚ) = 2 ^ (23 : ℤ) := by norm_num
      rw [hquantum, f32Factor_eq (by omega), hbits, ← zpow_natCast (2 : ℚ) (2 ^ (7 - n)), ← zpow_add₀ two_ne_zero,
        ← zpow_add₀ two_ne_zero]
      congr 1
      push_cast
      ring
    have hquantum' : (spacingAt (some v) n).quantum * f32Factor n = 2 ^ (((k + 2 ^ (7 - n) : ℕ) : ℤ) - 149) := by
      rw [hquantum, f32Factor_eq (by omega), ← zpow_natCast (2 : ℚ) (2 ^ (7 - n)), ← zpow_add₀ two_ne_zero]
      congr 1
      push_cast
      ring
    have hhalf : 8 - n = 8 - (n + 1) + 1 := by omega
    have hseven : 7 - n = 8 - (n + 1) := by omega
    rw [spacingAt, Option.any_some, hbound, hquantum', hseven]
    by_cases hle : (2 : ℚ) ^ (((k + 2 ^ (8 - (n + 1)) : ℕ) : ℤ) - 126) ≤ |v|
    · refine ⟨k + 2 ^ (8 - (n + 1)), if_pos (decide_eq_true hle), .inr hle, ?_⟩
      rw [hhalf, pow_succ] at hhigh
      convert hhigh using 2
      push_cast
      ring
    · refine ⟨k, ?_, hlow, ?_⟩
      · rw [← hquantum]
        exact if_neg fun h => hle (of_decide_eq_true h)
      · rw [not_le] at hle
        exact_mod_cast hle

/-- What a row of `parts` gives for a value that is not negative is a multiple of the spacing. -/
theorem f32Part_of_nonneg (hv : 0 ≤ v) (quantum units : ℚ) : f32Part v quantum units = roundEven units * quantum := by
  have hhalf : (0.5 : ℚ) = 1 / 2 := by norm_num
  rw [f32Part, roundEven, if_neg hv.not_gt, one_mul, mul_comm, hhalf]
  split_ifs <;> push_cast <;> ring

theorem f32Part_of_neg (hv : v < 0) (quantum units : ℚ) : f32Part v quantum units = -(roundEven units * quantum) := by
  have hhalf : (0.5 : ℚ) = 1 / 2 := by norm_num
  rw [f32Part, roundEven, if_pos hv, hhalf]
  split_ifs <;> push_cast <;> ring

/-- The quantum of the last row is the spacing at the value, so rounding the multiple of it rounds
the value. -/
theorem roundEven_quantum_nearest (hmax : |v| ≤ f32Max) :
    binary32.NearestEven |v| (roundEven (|v| / (spacingAt (some v) 8).quantum) * (spacingAt (some v) 8).quantum) := by
  have hlt : |v| < 2 ^ 128 := hmax.trans_lt (by norm_num [f32Max])
  obtain ⟨k, hquantum, hlow, hhigh⟩ := spacing_search hlt 8 le_rfl
  have hpow : ∀ n : ℕ, (2 : ℚ) ^ n * 2 ^ ((k : ℤ) - 149) = 2 ^ ((k : ℤ) + n - 149) := by
    intro n
    rw [← zpow_natCast, ← zpow_add₀ two_ne_zero]
    congr 1
    ring
  rw [hquantum]
  refine BinaryFormat.nearestEven_of_spacing (by decide) (by decide) (abs_nonneg v) ?_ ?_ ?_ hmax
  · show (-149 : ℤ) ≤ k - 149
    omega
  · show |v| < 2 ^ 24 * 2 ^ ((k : ℤ) - 149)
    rw [hpow]
    convert hhigh using 2
    push_cast
    ring
  · show (k : ℤ) - 149 = -149 ∨ 2 ^ 23 * 2 ^ ((k : ℤ) - 149) ≤ |v|
    refine hlow.imp (fun h => by omega) fun h => ?_
    rw [hpow]
    convert h using 2
    push_cast
    ring

end Spacing

/-- `NULL` stays `NULL`, and a value of at most the largest binary32 value's size is rounded to
the nearest binary32 value, the even one of two. -/
theorem sqliteF32RoundValue_nearest : sqliteF32RoundValue none = none ∧
    ∀ v : ℚ, |v| ≤ f32Max → ∃ r, sqliteF32RoundValue (some v) = some r ∧ binary32.NearestEven v r := by
  refine ⟨sqliteF32RoundValue_eq none, fun v hmax => ⟨_, sqliteF32RoundValue_eq (some v), ?_⟩⟩
  have hnearest := roundEven_quantum_nearest hmax
  beta_reduce
  rcases lt_or_ge v 0 with hv | hv
  · rw [f32Part_of_neg hv]
    rw [abs_of_neg hv] at hnearest ⊢
    have hneg := hnearest.neg
    rwa [neg_neg] at hneg
  · rw [f32Part_of_nonneg hv]
    rwa [abs_of_nonneg hv] at hnearest ⊢

/-- Half way between the two least positive values. -/
theorem sqliteF32RoundValue_nearest_subnormal : sqliteF32RoundValue none = none ∧ |-(3 / 2 ^ 150 : ℚ)| ≤ f32Max ∧
    ∃ r, sqliteF32RoundValue (some (-(3 / 2 ^ 150))) = some r ∧ binary32.NearestEven (-(3 / 2 ^ 150)) r :=
  have hmax : |-(3 / 2 ^ 150 : ℚ)| ≤ f32Max := by norm_num [f32Max]
  ⟨sqliteF32RoundValue_nearest.1, hmax, sqliteF32RoundValue_nearest.2 _ hmax⟩

end TideOrm
