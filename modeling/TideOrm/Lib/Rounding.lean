import Mathlib.Algebra.Order.Floor.Ring
import Mathlib.Data.Rat.Floor
import Mathlib.Tactic.Linarith
import Mathlib.Tactic.Ring
import Mathlib.Tactic.FieldSimp

/-! Rounding half away from zero, and how a product over a positive divisor is rounded in
truncating integer arithmetic. -/

namespace Lib

def roundHalfAway (x : ℚ) : ℤ := if 0 ≤ x then ⌊x + 1 / 2⌋ else -⌊-x + 1 / 2⌋

theorem roundHalfAway_neg (x : ℚ) : roundHalfAway (-x) = -roundHalfAway x := by
  unfold roundHalfAway
  rcases lt_trichotomy x 0 with hx | rfl | hx
  · rw [if_pos (by linarith), if_neg (by linarith), neg_neg]
  · norm_num
  · rw [if_neg (by linarith), if_pos hx.le, neg_neg]

theorem abs_roundHalfAway_sub_le (x : ℚ) : |(roundHalfAway x : ℚ) - x| ≤ 1 / 2 := by
  unfold roundHalfAway
  rw [abs_le]
  split_ifs
  · have hle := Int.floor_le (x + 1 / 2)
    have hlt := Int.lt_floor_add_one (x + 1 / 2)
    exact ⟨by linarith, by linarith⟩
  · have hle := Int.floor_le (-x + 1 / 2)
    have hlt := Int.lt_floor_add_one (-x + 1 / 2)
    push_cast
    exact ⟨by linarith, by linarith⟩

/-- The half is added before the division truncates; an odd divisor's half is rounded down. -/
theorem roundHalfAway_div {x d : ℤ} (hx : 0 ≤ x) (hd : 0 < d) : roundHalfAway (x / d) = (x + d / 2) / d := by
  have hdq : (0 : ℚ) < d := Int.cast_pos.2 hd
  rw [roundHalfAway, if_pos (div_nonneg (Int.cast_nonneg hx) hdq.le), Int.floor_eq_iff]
  have hdiv := Int.mul_ediv_add_emod (x + d / 2) d
  have hlt := Int.emod_lt_of_pos (x + d / 2) hd
  have hnonneg := Int.emod_nonneg (x + d / 2) hd.ne'
  have hhalf : 2 * (d / 2) ≤ d ∧ d ≤ 2 * (d / 2) + 1 := by omega
  generalize (x + d / 2) / d = quotient at *
  have hlow : 2 * (d * quotient) ≤ 2 * x + d := by omega
  have hhigh : 2 * x + d < 2 * (d * quotient) + 2 * d := by omega
  have hlow' : (2 : ℚ) * (d * quotient) ≤ 2 * x + d := by exact_mod_cast hlow
  have hhigh' : (2 : ℚ) * x + d < 2 * (d * quotient) + 2 * d := by exact_mod_cast hhigh
  rw [div_add_div _ _ hdq.ne' two_ne_zero, le_div_iff₀ (by linarith), div_lt_iff₀ (by linarith)]
  exact ⟨by linarith, by linarith⟩

/-- A truncated quotient lies between zero and the dividend. -/
theorem tdiv_within {n d low high : ℤ} (hd : 0 < d) (hlow : low ≤ n) (hlow0 : low ≤ 0) (hhigh : n ≤ high) (hhigh0 : 0 ≤ high) :
    low ≤ n.tdiv d ∧ n.tdiv d ≤ high := by
  rcases le_or_gt 0 n with hn | hn
  · have hnonneg := Int.tdiv_nonneg hn hd.le
    have hle := Int.tdiv_le_self d hn
    omega
  · have hnonneg := Int.tdiv_nonneg (a := -n) (by omega) hd.le
    have hle := Int.tdiv_le_self (a := -n) d (by omega)
    rw [Int.neg_tdiv] at hnonneg hle
    omega

theorem tmod_within {n low high : ℤ} (d : ℤ) (hlow : low ≤ n) (hlow0 : low ≤ 0) (hhigh : n ≤ high) (hhigh0 : 0 ≤ high) :
    low ≤ n.tmod d ∧ n.tmod d ≤ high := by
  have hle : (n.tmod d).natAbs ≤ n.natAbs := by
    rw [Int.natAbs_tmod]
    exact Nat.mod_le _ _
  rcases le_or_gt 0 n with hn | hn
  · have hnonneg := Int.tmod_nonneg d hn
    omega
  · have hnonneg := Int.tmod_nonneg (a := -n) d (by omega)
    rw [Int.neg_tmod] at hnonneg
    omega

/-- The remainder's share of the product before it is divided, with the half that rounds it. -/
def scaledShare (x times d : ℤ) : ℤ := x.tmod d * times + if x < 0 ↔ times < 0 then d / 2 else -(d / 2)

/-- Quotient and remainder are scaled apart, so that neither outgrows the result. -/
def scaledParts (x times d : ℤ) : ℤ := x.tdiv d * times + (scaledShare x times d).tdiv d

section ScaledParts

variable {x times d : ℤ}

theorem scaledShare_neg_left (times d : ℤ) (hx : 0 < x) : scaledShare (-x) times d = -scaledShare x times d := by
  have hflip : (if -x < 0 ↔ times < 0 then d / 2 else -(d / 2)) = -if x < 0 ↔ times < 0 then d / 2 else -(d / 2) := by
    split_ifs <;> omega
  rw [scaledShare, scaledShare, hflip, Int.neg_tmod, neg_mul, ← neg_add]

theorem scaledShare_neg_right (x d : ℤ) (htimes : 0 < times) : scaledShare x (-times) d = -scaledShare x times d := by
  have hflip : (if x < 0 ↔ -times < 0 then d / 2 else -(d / 2)) = -if x < 0 ↔ times < 0 then d / 2 else -(d / 2) := by
    split_ifs <;> omega
  rw [scaledShare, scaledShare, hflip, mul_neg, ← neg_add]

theorem scaledShare_nonneg (hx : 0 ≤ x) (htimes : 0 ≤ times) (hd : 0 < d) : 0 ≤ scaledShare x times d := by
  rw [scaledShare, if_pos (by omega)]
  exact add_nonneg (mul_nonneg (Int.tmod_nonneg d hx) htimes) (by omega)

theorem scaledParts_neg_left (hx : 0 < x) : scaledParts (-x) times d = -scaledParts x times d := by
  rw [scaledParts, scaledParts, scaledShare_neg_left times d hx, Int.neg_tdiv, neg_mul, Int.neg_tdiv, ← neg_add]

theorem scaledParts_neg_right (htimes : 0 < times) : scaledParts x (-times) d = -scaledParts x times d := by
  rw [scaledParts, scaledParts, scaledShare_neg_right x d htimes, mul_neg, Int.neg_tdiv, ← neg_add]

theorem scaledParts_of_nonneg (hx : 0 ≤ x) (htimes : 0 ≤ times) (hd : 0 < d) :
    scaledParts x times d = roundHalfAway ((x * times : ℤ) / d) := by
  have hshare : scaledShare x times d = x % d * times + d / 2 := by
    rw [scaledShare, if_pos (by omega), Int.tmod_eq_emod_of_nonneg hx]
  have hsplit : x * times + d / 2 = scaledShare x times d + d * (x / d * times) := by
    rw [hshare]
    conv_lhs => rw [← Int.emod_add_mul_ediv x d]
    ring
  rw [roundHalfAway_div (mul_nonneg hx htimes) hd, hsplit, Int.add_mul_ediv_left _ _ hd.ne', scaledParts,
    Int.tdiv_eq_ediv_of_nonneg hx, Int.tdiv_eq_ediv_of_nonneg (scaledShare_nonneg hx htimes hd), add_comm]

theorem scaledParts_of_nonneg_right (htimes : 0 ≤ times) (hd : 0 < d) :
    scaledParts x times d = roundHalfAway ((x * times : ℤ) / d) := by
  rcases le_or_gt 0 x with hx | hx
  · exact scaledParts_of_nonneg hx htimes hd
  · have hpos := scaledParts_of_nonneg (neg_pos.2 hx).le htimes hd
    rw [← neg_neg x, scaledParts_neg_left (neg_pos.2 hx), hpos, ← roundHalfAway_neg]
    push_cast
    ring_nf

theorem scaledParts_eq (hd : 0 < d) : scaledParts x times d = roundHalfAway ((x * times : ℤ) / d) := by
  rcases le_or_gt 0 times with htimes | htimes
  · exact scaledParts_of_nonneg_right htimes hd
  · have hpos := scaledParts_of_nonneg_right (x := x) (neg_pos.2 htimes).le hd
    rw [← neg_neg times, scaledParts_neg_right (neg_pos.2 htimes), hpos, ← roundHalfAway_neg]
    push_cast
    ring_nf

theorem abs_tmod_mul_le (x times : ℤ) (hd : 0 < d) : |x.tmod d * times| ≤ (d - 1) * |times| := by
  have hmod : |x.tmod d| ≤ d - 1 := by
    have hlt := Int.tmod_lt_of_pos x hd
    have hgt := Int.lt_tmod_of_pos x hd
    rw [abs_le]
    omega
  rw [abs_mul]
  gcongr

theorem abs_scaledShare_le (x times : ℤ) (hd : 0 < d) : |scaledShare x times d| ≤ (d - 1) * |times| + d / 2 := by
  have hhalf : |if x < 0 ↔ times < 0 then d / 2 else -(d / 2)| = d / 2 := by
    split_ifs
    · exact abs_of_nonneg (by omega)
    · rw [abs_neg, abs_of_nonneg (by omega)]
  calc |scaledShare x times d| ≤ |x.tmod d * times| + |if x < 0 ↔ times < 0 then d / 2 else -(d / 2)| := abs_add_le _ _
    _ ≤ (d - 1) * |times| + d / 2 := add_le_add (abs_tmod_mul_le x times hd) hhalf.le

/-- The share has the sign of the quotient's part. -/
theorem scaledShare_sign (x times : ℤ) (hd : 0 < d) : 0 ≤ x.tdiv d * times * (scaledShare x times d).tdiv d := by
  have hnonneg {x times : ℤ} (hx : 0 ≤ x) (htimes : 0 ≤ times) : 0 ≤ x.tdiv d * times * (scaledShare x times d).tdiv d :=
    mul_nonneg (mul_nonneg (Int.tdiv_nonneg hx hd.le) htimes) (Int.tdiv_nonneg (scaledShare_nonneg hx htimes hd) hd.le)
  have hright (x times : ℤ) (hx : 0 ≤ x) : 0 ≤ x.tdiv d * times * (scaledShare x times d).tdiv d := by
    rcases le_or_gt 0 times with htimes | htimes
    · exact hnonneg hx htimes
    · have hflip := scaledShare_neg_right x d (neg_pos.2 htimes)
      rw [neg_neg] at hflip
      have hpos := hnonneg hx (neg_pos.2 htimes).le
      rw [hflip, Int.neg_tdiv, mul_neg, ← neg_mul, ← mul_neg]
      exact hpos
  rcases le_or_gt 0 x with hx | hx
  · exact hright x times hx
  · have hflip := scaledShare_neg_left times d (neg_pos.2 hx)
    rw [neg_neg] at hflip
    have hpos := hright (-x) times (neg_pos.2 hx).le
    rw [Int.neg_tdiv] at hpos
    rw [hflip, Int.neg_tdiv, mul_neg, ← neg_mul, ← neg_mul]
    exact hpos

end ScaledParts

end Lib
