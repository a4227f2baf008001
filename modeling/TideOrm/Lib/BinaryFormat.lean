import Mathlib.Algebra.Order.Floor.Ring
import Mathlib.Data.Int.ModEq
import Mathlib.Algebra.Order.Round
import Mathlib.Tactic.FieldSimp
import Mathlib.Tactic.Linarith
import Mathlib.Tactic.Ring
import Mathlib.Algebra.Order.Field.Power

/-! Binary floating point without infinities: the values of a format, and rounding to the nearest
of them with ties to an even significand. -/

namespace Lib

section Integers

variable {K : Type} [Field K] [LinearOrder K] [IsStrictOrderedRing K] [FloorRing K]

/-- The nearest integer, the even one of two. -/
def roundEven (x : K) : ℤ :=
  if x - ⌊x⌋ > 1 / 2 ∨ x - ⌊x⌋ = 1 / 2 ∧ ⌊x⌋ % 2 = 1 then ⌊x⌋ + 1 else ⌊x⌋

omit [IsStrictOrderedRing K] in
theorem roundEven_bounds (x : K) : ⌊x⌋ ≤ roundEven x ∧ roundEven x ≤ ⌊x⌋ + 1 := by
  rw [roundEven]
  split_ifs <;> omega

theorem roundEven_error (x : K) : |x - roundEven x| ≤ 1 / 2 := by
  have hlow := Int.floor_le x
  have hhigh := Int.lt_floor_add_one x
  rw [roundEven]
  split_ifs with h
  · have hhalf : 1 / 2 ≤ x - ⌊x⌋ := by
      rcases h with h | h
      · exact h.le
      · exact h.1.ge
    rw [abs_le]
    push_cast
    constructor <;> linarith
  · rw [not_or] at h
    rw [abs_le]
    constructor <;> linarith

/-- Half way between two integers, the even one is taken. -/
theorem even_roundEven_of_half {x : K} (h : |x - roundEven x| = 1 / 2) : Even (roundEven x) := by
  have hlow := Int.floor_le x
  have hhigh := Int.lt_floor_add_one x
  rw [roundEven] at h ⊢
  split_ifs at h ⊢ with hup
  · have hhalf : x - ⌊x⌋ = 1 / 2 := by
      push_cast at h
      rw [abs_of_neg (by linarith)] at h
      linarith
    have hodd : ⌊x⌋ % 2 = 1 := by
      rcases hup with hup | hup
      · linarith
      · exact hup.2
    rw [Int.even_iff]
    omega
  · rw [abs_of_nonneg (by linarith)] at h
    rw [not_or, not_and] at hup
    have heven := hup.2 h
    rw [Int.even_iff]
    omega

theorem roundEven_nearest (x : K) (n : ℤ) : |x - roundEven x| ≤ |x - n| := by
  by_cases hn : n = roundEven x
  · rw [hn]
  · have hdist : (1 : K) ≤ |(n : K) - roundEven x| := by
      have hne : (1 : ℤ) ≤ |n - roundEven x| := Int.one_le_abs (sub_ne_zero.2 hn)
      exact_mod_cast hne
    have htriangle := abs_sub_le (n : K) x (roundEven x)
    have herror := roundEven_error x
    rw [abs_sub_comm (n : K) x] at htriangle
    linarith

/-- Only half way is another integer as near. -/
theorem roundEven_tie {x : K} {n : ℤ} (hn : n ≠ roundEven x) (h : |x - n| = |x - roundEven x|) : Even (roundEven x) := by
  have hdist : (1 : K) ≤ |(n : K) - roundEven x| := by
    have hne : (1 : ℤ) ≤ |n - roundEven x| := Int.one_le_abs (sub_ne_zero.2 hn)
    exact_mod_cast hne
  have htriangle := abs_sub_le (n : K) x (roundEven x)
  have herror := roundEven_error x
  rw [abs_sub_comm (n : K) x] at htriangle
  exact even_roundEven_of_half (by linarith)

end Integers

/-- Significands of `precision` bits and exponents of the last of them. -/
structure BinaryFormat where
  precision : ℕ
  minExponent : ℤ
  maxExponent : ℤ

namespace BinaryFormat

variable {K : Type} [Field K] (f : BinaryFormat)

def IsValue (x : K) : Prop :=
  ∃ m e : ℤ, |m| < 2 ^ f.precision ∧ f.minExponent ≤ e ∧ e ≤ f.maxExponent ∧ x = m * 2 ^ e

/-- The value's significand, with all its bits or at the least exponent, is even. -/
def EvenSignificand (x : K) : Prop :=
  ∃ m e : ℤ, |m| < 2 ^ f.precision ∧ (e = f.minExponent ∨ 2 ^ (f.precision - 1) ≤ |m|) ∧ f.minExponent ≤ e ∧
    e ≤ f.maxExponent ∧ x = m * 2 ^ e ∧ Even m

/-- `y` is a value of the format nearest to `x`, and the even one where another is as near. -/
structure NearestEven [LinearOrder K] (x y : K) : Prop where
  isValue : f.IsValue y
  nearest : ∀ z, f.IsValue z → |x - y| ≤ |x - z|
  even : ∀ z, f.IsValue z → z ≠ y → |x - z| = |x - y| → f.EvenSignificand y

variable {f}

theorem IsValue.neg {x : K} (h : f.IsValue x) : f.IsValue (-x) := by
  obtain ⟨m, e, hm, hmin, hmax, rfl⟩ := h
  refine ⟨-m, e, by rwa [abs_neg], hmin, hmax, ?_⟩
  push_cast
  ring

theorem EvenSignificand.neg {x : K} (h : f.EvenSignificand x) : f.EvenSignificand (-x) := by
  obtain ⟨m, e, hm, hfull, hmin, hmax, rfl, heven⟩ := h
  refine ⟨-m, e, by rwa [abs_neg], by rwa [abs_neg], hmin, hmax, ?_, heven.neg⟩
  push_cast
  ring

section Ordered

variable [LinearOrder K] [IsStrictOrderedRing K]

omit [IsStrictOrderedRing K] in
theorem NearestEven.neg {x y : K} (h : f.NearestEven x y) : f.NearestEven (-x) (-y) := by
  have hmirror : ∀ z : K, |-x - z| = |x - -z| := by
    intro z
    rw [← abs_neg]
    congr 1
    ring
  refine ⟨h.isValue.neg, fun z hz => ?_, fun z hz hne htie => ?_⟩
  · rw [hmirror, hmirror, neg_neg]
    exact h.nearest (-z) hz.neg
  · rw [hmirror, hmirror, neg_neg] at htie
    exact (h.even (-z) hz.neg (fun heq => hne (by rw [← heq, neg_neg])) htie).neg

/-- A value stands on the grid of a spacing, or below where that spacing begins. -/
theorem IsValue.on_grid (hprecision : 1 < f.precision) {z : K} (h : f.IsValue z) (e : ℤ) :
    (∃ n : ℤ, z = n * 2 ^ e) ∨ f.minExponent < e ∧ |z| < 2 ^ (f.precision - 1) * 2 ^ e := by
  obtain ⟨m, e', hm, hmin, -, rfl⟩ := h
  rcases le_or_gt e e' with hle | hlt
  · left
    refine ⟨m * 2 ^ (e' - e).toNat, ?_⟩
    have hsum : (2 : K) ^ e' = 2 ^ (e' - e).toNat * 2 ^ e := by
      rw [← zpow_natCast, ← zpow_add₀ two_ne_zero]
      congr 1
      omega
    push_cast
    rw [hsum]
    ring
  · right
    refine ⟨by omega, ?_⟩
    have hstep : (2 : K) * 2 ^ e' ≤ 2 ^ e := by
      rw [← zpow_one_add₀ two_ne_zero]
      exact zpow_le_zpow_right₀ one_le_two (by omega)
    have hpow : (2 : K) ^ f.precision = 2 ^ (f.precision - 1) * 2 := by
      rw [← pow_succ, Nat.sub_add_cancel (by omega)]
    have hm' : |(m : K)| < 2 ^ f.precision := by exact_mod_cast hm
    have hpos : (0 : K) < 2 ^ e' := zpow_pos two_pos e'
    calc |(m : K) * 2 ^ e'| = |(m : K)| * 2 ^ e' := by rw [abs_mul, abs_of_pos hpos]
      _ < 2 ^ f.precision * 2 ^ e' := mul_lt_mul_of_pos_right hm' hpos
      _ = 2 ^ (f.precision - 1) * (2 * 2 ^ e') := by rw [hpow]; ring
      _ ≤ 2 ^ (f.precision - 1) * 2 ^ e := mul_le_mul_of_nonneg_left hstep (pow_pos two_pos _).le

/-- A whole number of spacings that is no more than one significand can hold, or one more. -/
theorem significand_of_le (hprecision : 1 < f.precision) {r e : ℤ} (hnonneg : 0 ≤ r) (hle : r ≤ 2 ^ f.precision)
    (hfull : e = f.minExponent ∨ 2 ^ (f.precision - 1) ≤ r) (hmin : f.minExponent ≤ e) (hmax : e ≤ f.maxExponent)
    (hcarry : r = 2 ^ f.precision → e < f.maxExponent) :
    ∃ m e' : ℤ, |m| < 2 ^ f.precision ∧ (e' = f.minExponent ∨ 2 ^ (f.precision - 1) ≤ |m|) ∧ f.minExponent ≤ e' ∧
      e' ≤ f.maxExponent ∧ (r : K) * 2 ^ e = m * 2 ^ e' ∧ (Even r → Even m) := by
  have hpos : (0 : ℤ) < 2 ^ (f.precision - 1) := pow_pos two_pos _
  have hpow : (2 : ℤ) ^ f.precision = 2 * 2 ^ (f.precision - 1) := by
    rw [← pow_succ', Nat.sub_add_cancel (by omega)]
  rcases hle.lt_or_eq with hlt | rfl
  · refine ⟨r, e, by rwa [abs_of_nonneg hnonneg], ?_, hmin, hmax, rfl, id⟩
    rwa [abs_of_nonneg hnonneg]
  · refine ⟨2 ^ (f.precision - 1), e + 1, ?_, ?_, by omega, by have := hcarry rfl; omega, ?_, fun _ => ?_⟩
    · rw [abs_of_pos hpos]
      omega
    · right
      rw [abs_of_pos hpos]
    · rw [zpow_add_one₀ two_ne_zero, hpow]
      push_cast
      ring
    · exact even_two.pow_of_ne_zero (by omega)

variable [FloorRing K]

/-- Rounding the multiple of the spacing rounds the value, when `2 ^ e` is the spacing there. -/
theorem nearestEven_of_spacing (hprecision : 1 < f.precision) (hformat : f.minExponent ≤ f.maxExponent) {a : K}
    (ha : 0 ≤ a) {e : ℤ} (he : f.minExponent ≤ e) (hupper : a < 2 ^ f.precision * 2 ^ e)
    (hlower : e = f.minExponent ∨ 2 ^ (f.precision - 1) * 2 ^ e ≤ a)
    (hmax : a ≤ (2 ^ f.precision - 1) * 2 ^ f.maxExponent) : f.NearestEven a (roundEven (a / 2 ^ e) * 2 ^ e) := by
  have htwo : (1 : K) < 2 := one_lt_two
  have hq : (0 : K) < 2 ^ e := zpow_pos two_pos e
  have hpow : (2 : K) ^ f.precision = 2 * 2 ^ (f.precision - 1) := by
    rw [← pow_succ', Nat.sub_add_cancel (by omega)]
  obtain ⟨u, rfl⟩ : ∃ u, a = u * 2 ^ e := ⟨a / 2 ^ e, (div_mul_cancel₀ a hq.ne').symm⟩
  rw [mul_div_cancel_right₀ u hq.ne']
  have hu : 0 ≤ u := nonneg_of_mul_nonneg_left ha hq
  have hu' : u < 2 ^ f.precision := lt_of_mul_lt_mul_right hupper hq.le
  have hfull : e = f.minExponent ∨ 2 ^ (f.precision - 1) ≤ u :=
    hlower.imp_right fun h => le_of_mul_le_mul_right h hq
  obtain ⟨hfloor, hceil⟩ := roundEven_bounds u
  have herror := abs_le.1 (roundEven_error u)
  have hnonneg : 0 ≤ roundEven u := (Int.floor_nonneg.2 hu).trans hfloor
  have hle : roundEven u ≤ 2 ^ f.precision := by
    have hlt : ⌊u⌋ < 2 ^ f.precision := by
      rw [Int.floor_lt]
      exact_mod_cast hu'
    omega
  have hfull' : e = f.minExponent ∨ 2 ^ (f.precision - 1) ≤ roundEven u := by
    refine hfull.imp_right fun h => le_trans ?_ hfloor
    rw [Int.le_floor]
    exact_mod_cast h
  have hexponent : e ≤ f.maxExponent := by
    rcases hfull with rfl | hfull
    · exact hformat
    · by_contra hlt
      have hstep : (2 : K) * 2 ^ f.maxExponent ≤ 2 ^ e := by
        rw [← zpow_one_add₀ two_ne_zero]
        exact zpow_le_zpow_right₀ htwo.le (by omega)
      have hmaxpos : (0 : K) < 2 ^ f.maxExponent := zpow_pos two_pos _
      have hpos : (0 : K) < 2 ^ (f.precision - 1) := pow_pos two_pos _
      nlinarith
  have hcarry : roundEven u = 2 ^ f.precision → e < f.maxExponent := by
    intro hround
    by_contra hlt
    obtain rfl : e = f.maxExponent := by omega
    have hule := le_of_mul_le_mul_right hmax hq
    rw [hround] at herror
    push_cast at herror
    linarith [herror.1]
  obtain ⟨m, e', hm, hm', hmin, hmax', hvalue, heven⟩ :=
    @significand_of_le K _ f _ _ hprecision _ _ hnonneg hle hfull' he hexponent hcarry
  have hdist : ∀ n : ℤ, |u * 2 ^ e - n * 2 ^ e| = |u - n| * 2 ^ e := by
    intro n
    rw [← sub_mul, abs_mul, abs_of_pos hq]
  -- a value below where this spacing begins is further off than the beginning
  have hbelow : ∀ z : K, f.minExponent < e → |z| < 2 ^ (f.precision - 1) * 2 ^ e →
      |u * 2 ^ e - roundEven u * 2 ^ e| < |u * 2 ^ e - z| := by
    intro z hlt hz
    have hstart : 2 ^ (f.precision - 1) * 2 ^ e ≤ u * 2 ^ e :=
      mul_le_mul_of_nonneg_right (hfull.resolve_left (by omega)) hq.le
    have hnearest := mul_le_mul_of_nonneg_right (roundEven_nearest u (2 ^ (f.precision - 1))) hq.le
    rw [← hdist, ← hdist] at hnearest
    push_cast at hnearest
    rw [abs_of_nonneg (sub_nonneg.2 hstart)] at hnearest
    have hz' := (abs_lt.1 hz).2
    rw [abs_of_pos (by linarith : 0 < u * 2 ^ e - z)]
    linarith
  refine ⟨⟨m, e', hm, hmin, hmax', hvalue⟩, fun z hz => ?_, fun z hz hne htie => ?_⟩
  · obtain ⟨n, rfl⟩ | ⟨hlt, hz⟩ := hz.on_grid hprecision e
    · rw [hdist, hdist]
      exact mul_le_mul_of_nonneg_right (roundEven_nearest u n) hq.le
    · exact (hbelow z hlt hz).le
  · obtain ⟨n, rfl⟩ | ⟨hlt, hz⟩ := hz.on_grid hprecision e
    · rw [hdist, hdist] at htie
      have hn : n ≠ roundEven u := by
        rintro rfl
        exact hne rfl
      exact ⟨m, e', hm, hm', hmin, hmax', hvalue, heven (roundEven_tie hn (mul_right_cancel₀ hq.ne' htie))⟩
    · exact absurd htie (hbelow z hlt hz).ne'

end Ordered

end BinaryFormat

end Lib
