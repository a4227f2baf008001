import TideOrm.Lib.BinaryFormat
import Mathlib.Data.Rat.Floor
import Mathlib.Data.Int.Log

/-! The numbers of a binary floating point format with infinities and `NaN`: their order, how a
rational is rounded to one, and casts to integers. One zero stands for both. -/

namespace Lib

namespace BinaryFormat

variable {f : BinaryFormat}

/-- Where all integers of `precision` bits are values, a value's ceiling is one. -/
theorem IsValue.ceil (hformat : f.minExponent ≤ 0 ∧ 0 ≤ f.maxExponent) {x : ℚ} (h : f.IsValue x) : f.IsValue (⌈x⌉ : ℚ) := by
  obtain ⟨m, e, hm, hmin, hmax, rfl⟩ := h
  rcases le_or_gt 0 e with he | he
  · refine ⟨m, e, hm, hmin, hmax, ?_⟩
    have hwhole : (m : ℚ) * 2 ^ e = ((m * 2 ^ e.toNat : ℤ) : ℚ) := by
      push_cast
      rw [← zpow_natCast, Int.toNat_of_nonneg he]
    rw [hwhole, Int.ceil_intCast]
  · refine ⟨⌈(m : ℚ) * 2 ^ e⌉, 0, ?_, hformat.1, hformat.2, by rw [zpow_zero, mul_one]⟩
    have hpos : (0 : ℚ) < 2 ^ e := zpow_pos two_pos e
    have hle : (2 : ℚ) ^ e ≤ 1 := zpow_le_one_of_nonpos₀ one_le_two he.le
    have hsize : |(m : ℚ) * 2 ^ e| ≤ ((|m| : ℤ) : ℚ) := by
      rw [abs_mul, abs_of_pos hpos, Int.cast_abs]
      exact mul_le_of_le_one_right (abs_nonneg _) hle
    obtain ⟨hlow, hhigh⟩ := abs_le.1 hsize
    have hupper : ⌈(m : ℚ) * 2 ^ e⌉ ≤ |m| := Int.ceil_le.2 hhigh
    have hlower : -|m| ≤ ⌈(m : ℚ) * 2 ^ e⌉ := by
      have hceil := hlow.trans (Int.le_ceil _)
      exact_mod_cast hceil
    exact lt_of_le_of_lt (abs_le.2 ⟨hlower, hupper⟩) hm

theorem IsValue.floor (hformat : f.minExponent ≤ 0 ∧ 0 ≤ f.maxExponent) {x : ℚ} (h : f.IsValue x) :
    f.IsValue (⌊x⌋ : ℚ) := by
  have hneg := (h.neg.ceil hformat).neg
  rwa [Int.ceil_neg, Int.cast_neg, neg_neg] at hneg

/-- From where the spacing is 1 on, the values are whole numbers. -/
theorem IsValue.whole {x : ℚ} (h : f.IsValue x) (hx : 2 ^ f.precision ≤ |x|) : ∃ n : ℤ, x = n := by
  obtain ⟨m, e, hm, -, -, rfl⟩ := h
  rcases le_or_gt 0 e with he | he
  · refine ⟨m * 2 ^ e.toNat, ?_⟩
    push_cast
    rw [← zpow_natCast, Int.toNat_of_nonneg he]
  · have hle : (2 : ℚ) ^ e ≤ 1 := zpow_le_one_of_nonpos₀ one_le_two he.le
    have hsize : |(m : ℚ) * 2 ^ e| ≤ |(m : ℚ)| := by
      rw [abs_mul, abs_of_pos (zpow_pos two_pos e : (0 : ℚ) < 2 ^ e)]
      exact mul_le_of_le_one_right (abs_nonneg _) hle
    have hm' : |(m : ℚ)| < 2 ^ f.precision := by exact_mod_cast hm
    exact absurd (hx.trans hsize) (not_le.2 hm')

theorem IsValue.lt {x : ℚ} (h : f.IsValue x) : |x| < 2 ^ (f.maxExponent + f.precision) := by
  obtain ⟨m, e, hm, -, he, rfl⟩ := h
  have hm' : |(m : ℚ)| < 2 ^ (f.precision : ℤ) := by
    rw [zpow_natCast]
    exact_mod_cast hm
  rw [abs_mul, abs_of_pos (zpow_pos two_pos e : (0 : ℚ) < 2 ^ e), add_comm, zpow_add₀ two_ne_zero]
  exact mul_lt_mul hm' (zpow_le_zpow_right₀ one_le_two he) (zpow_pos two_pos e) (zpow_nonneg zero_le_two _)

/-- The exponent of the last of a number's `precision` bits, or the least one. -/
def spacing (f : BinaryFormat) (x : ℚ) : ℤ := max f.minExponent (Int.log 2 |x| + 1 - f.precision)

/-- A significand that rounding carried to one bit more. -/
theorem isValue_of_carry (hprecision : 0 < f.precision) {m e : ℤ} (hm : |m| = 2 ^ f.precision) (hmin : f.minExponent ≤ e)
    (hmax : e < f.maxExponent) : f.IsValue ((m : ℚ) * 2 ^ e) := by
  have hpow : (2 : ℤ) ^ f.precision = 2 ^ (f.precision - 1) * 2 := by
    rw [← pow_succ, Nat.sub_add_cancel hprecision]
  have hpos : (0 : ℤ) < 2 ^ (f.precision - 1) := pow_pos two_pos _
  obtain ⟨half, rfl⟩ : ∃ half, m = half * 2 := by
    rcases abs_eq (by positivity) |>.1 hm with rfl | rfl
    · exact ⟨_, hpow⟩
    · exact ⟨-2 ^ (f.precision - 1), by rw [hpow, neg_mul]⟩
  rw [abs_mul, abs_two] at hm
  refine ⟨half, e + 1, by omega, by omega, by omega, ?_⟩
  rw [zpow_add_one₀ two_ne_zero]
  push_cast
  ring

end BinaryFormat

inductive BinaryFloat (f : BinaryFormat) where
  | finite (x : ℚ) (isValue : f.IsValue x)
  | infinite (negative : Bool)
  | nan

namespace BinaryFloat

variable {f g : BinaryFormat}

def isNan : BinaryFloat f → Bool
  | .nan => true
  | _ => false

def isFinite : BinaryFloat f → Bool
  | .finite _ _ => true
  | _ => false

def toRat : BinaryFloat f → Option ℚ
  | .finite x _ => some x
  | _ => none

/-- `<`, false where either is `NaN`. -/
def lt : BinaryFloat f → BinaryFloat f → Bool
  | .finite x _, .finite y _ => x < y
  | .finite _ _, .infinite negative => !negative
  | .infinite negative, .finite _ _ => negative
  | .infinite negative, .infinite negative' => negative && !negative'
  | .nan, _ | _, .nan => false

def le : BinaryFloat f → BinaryFloat f → Bool
  | .finite x _, .finite y _ => x ≤ y
  | .finite _ _, .infinite negative => !negative
  | .infinite negative, .finite _ _ => negative
  | .infinite negative, .infinite negative' => negative || !negative'
  | .nan, _ | _, .nan => false

/-- The nearest number of the format, ties to even, or an infinity past the last. -/
def round (f : BinaryFormat) (x : ℚ) : BinaryFloat f :=
  let e := f.spacing x
  let m := roundEven (x / 2 ^ e)
  if h : |m| < 2 ^ f.precision ∧ e ≤ f.maxExponent then .finite (m * 2 ^ e) ⟨m, e, h.1, le_max_left _ _, h.2, rfl⟩
  else if h : 0 < f.precision ∧ |m| = 2 ^ f.precision ∧ e < f.maxExponent then
    .finite (m * 2 ^ e) (BinaryFormat.isValue_of_carry h.1 h.2.1 (le_max_left _ _) h.2.2)
  else .infinite (x < 0)

/-- What is a bit below the format's largest numbers is rounded to a finite number. -/
theorem isFinite_round (hprecision : 0 < f.precision) (hmin : f.minExponent < f.maxExponent) (hmax : 0 < f.maxExponent) {x : ℚ}
    (hx : |x| < 2 ^ (f.maxExponent + f.precision - 1)) : (round f x).isFinite = true := by
  have hspacing : f.spacing x < f.maxExponent := by
    refine max_lt hmin ?_
    rcases (abs_nonneg x).eq_or_lt with hzero | hpos
    · rw [← hzero, Int.log_zero_right]
      omega
    · have hlog := (Int.lt_zpow_iff_log_lt one_lt_two hpos).1 hx
      omega
  have hpos : (0 : ℚ) < 2 ^ f.spacing x := zpow_pos two_pos _
  have hsmall : |x / 2 ^ f.spacing x| < 2 ^ f.precision := by
    rw [abs_div, abs_of_pos hpos, div_lt_iff₀ hpos, ← zpow_natCast, ← zpow_add₀ two_ne_zero]
    refine (Int.lt_zpow_succ_log_self one_lt_two |x|).trans_le (zpow_le_zpow_right₀ one_le_two ?_)
    have hle : Int.log 2 |x| + 1 - f.precision ≤ f.spacing x := le_max_right _ _
    omega
  have hm : |roundEven (x / 2 ^ f.spacing x)| ≤ 2 ^ f.precision := by
    obtain ⟨hlow, hhigh⟩ := abs_lt.1 hsmall
    obtain ⟨hfloor, hceil⟩ := roundEven_bounds (x / 2 ^ f.spacing x)
    have hlower : -2 ^ f.precision ≤ ⌊x / 2 ^ f.spacing x⌋ := Int.le_floor.2 (by exact_mod_cast hlow.le)
    have hupper : ⌊x / 2 ^ f.spacing x⌋ < 2 ^ f.precision := Int.floor_lt.2 (by exact_mod_cast hhigh)
    exact abs_le.2 ⟨hlower.trans hfloor, hceil.trans hupper⟩
  rw [round]
  split_ifs with hless hcarry
  · rfl
  · rfl
  · exact absurd ⟨hprecision, (lt_or_eq_of_le hm).resolve_left fun h => hless ⟨h, hspacing.le⟩, hspacing⟩ hcarry

/-- A number of one format in another. -/
def cast (g : BinaryFormat) : BinaryFloat f → BinaryFloat g
  | .finite x _ => round g x
  | .infinite negative => .infinite negative
  | .nan => .nan

def ceil (hformat : f.minExponent ≤ 0 ∧ 0 ≤ f.maxExponent) : BinaryFloat f → BinaryFloat f
  | .finite x h => .finite ⌈x⌉ (h.ceil hformat)
  | x => x

def floor (hformat : f.minExponent ≤ 0 ∧ 0 ≤ f.maxExponent) : BinaryFloat f → BinaryFloat f
  | .finite x h => .finite ⌊x⌋ (h.floor hformat)
  | x => x

/-- The cast to an integer type: towards zero, and to the type's nearest limit outside it. -/
def saturate (low high : ℤ) : BinaryFloat f → ℤ
  | .finite x _ => max low (min high (if 0 ≤ x then ⌊x⌋ else ⌈x⌉))
  | .infinite negative => if negative then low else high
  | .nan => max low (min high 0)

theorem saturate_mem {low high : ℤ} (h : low ≤ high) (x : BinaryFloat f) :
    low ≤ x.saturate low high ∧ x.saturate low high ≤ high := by
  cases x with
  | finite x hx => exact ⟨le_max_left _ _, max_le h (min_le_left _ _)⟩
  | infinite negative =>
    rw [saturate]
    split <;> omega
  | nan => exact ⟨le_max_left _ _, max_le h (min_le_left _ _)⟩

@[simp] theorem lt_finite {x y : ℚ} (hx : f.IsValue x) (hy : f.IsValue y) : lt (.finite x hx) (.finite y hy) = decide (x < y) := rfl

@[simp] theorem le_finite {x y : ℚ} (hx : f.IsValue x) (hy : f.IsValue y) : le (.finite x hx) (.finite y hy) = decide (x ≤ y) := rfl

/-- A whole number is cast exactly, but for the type's limits. -/
theorem saturate_whole (low high n : ℤ) (h : f.IsValue (n : ℚ)) :
    saturate low high (.finite (n : ℚ) h) = max low (min high n) := by
  rw [saturate, Int.floor_intCast, Int.ceil_intCast, ite_self]

theorem eq_finite_of_toRat {x : BinaryFloat f} {q : ℚ} (h : x.toRat = some q) : ∃ hq, x = .finite q hq := by
  cases x with
  | finite y hy =>
    obtain rfl := Option.some_inj.1 h
    exact ⟨hy, rfl⟩
  | infinite negative => cases h
  | nan => cases h

theorem not_infinity_lt (x : BinaryFloat f) : lt (.infinite false) x = false := by
  cases x <;> rfl

end BinaryFloat

end Lib
