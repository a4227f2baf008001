import TideOrm.Lib.Decimal
import Mathlib.Algebra.Order.Field.Basic
import Mathlib.Algebra.Order.Field.Power
import Mathlib.Data.Rat.Cast.Order
import Mathlib.Order.Compare
import Mathlib.Tactic.FieldSimp
import Mathlib.Tactic.Linarith
import Mathlib.Tactic.NormNum
import Mathlib.Tactic.Ring

/-! The fractions that digits after a point write, and their order. -/

namespace Lib

/-- What the digits write after a point. -/
def digitsFraction (digits : List Char) : ℚ := digitsValue digits / 10 ^ digits.length

@[simp] theorem digitsFraction_nil : digitsFraction [] = 0 := by simp [digitsFraction]

theorem digitsFraction_cons (ch : Char) (digits : List Char) :
    digitsFraction (ch :: digits) = (digitValue ch + digitsFraction digits) / 10 := by
  rw [digitsFraction, digitsFraction, digitsValue, List.map_cons, radixValue_cons, List.length_map, List.length_cons,
    digitsValue]
  push_cast
  field_simp
  ring

theorem digitsFraction_nonneg (digits : List Char) : 0 ≤ digitsFraction digits :=
  div_nonneg (Nat.cast_nonneg _) (by positivity)

theorem digitsFraction_lt_one {digits : List Char} (h : ∀ ch ∈ digits, ch.isDigit = true) : digitsFraction digits < 1 := by
  rw [digitsFraction, div_lt_one (by positivity)]
  exact_mod_cast digitsValue_lt h

theorem digitValue_zero_iff {ch : Char} (h : ch.isDigit = true) : digitValue ch = 0 ↔ ch = '0' := by
  constructor
  · intro hzero
    exact digitValue_inj h (by decide) hzero
  · rintro rfl
    rfl

/-- A fraction whose first digit is not zero. -/
theorem tenth_le_digitsFraction {ch : Char} {digits : List Char} (h : ch.isDigit = true) (hne : ch ≠ '0') :
    1 / 10 ≤ digitsFraction (ch :: digits) := by
  have hpos : 1 ≤ digitValue ch := Nat.one_le_iff_ne_zero.2 fun hzero => hne ((digitValue_zero_iff h).1 hzero)
  have hpos' : (1 : ℚ) ≤ digitValue ch := by exact_mod_cast hpos
  have hnonneg := digitsFraction_nonneg digits
  rw [digitsFraction_cons]
  linarith

theorem cmp_of_lt {α : Type} [LinearOrder α] {a b : α} (h : a < b) : cmp a b = .lt := (cmp_eq_lt_iff a b).2 h

theorem cmp_of_gt {α : Type} [LinearOrder α] {a b : α} (h : b < a) : cmp a b = .gt := (cmp_eq_gt_iff a b).2 h

/-- The first digit decides, then the digits behind it. -/
theorem cmp_tenths (a b : ℕ) {x y : ℚ} (hx : 0 ≤ x ∧ x < 1) (hy : 0 ≤ y ∧ y < 1) :
    cmp ((a + x) / 10) ((b + y) / 10) = (cmp a b).then (cmp x y) := by
  rcases lt_trichotomy a b with h | rfl | h
  · have hab : (a : ℚ) + 1 ≤ b := by exact_mod_cast h
    rw [cmp_of_lt h, cmp_of_lt (by linarith [hx.2, hy.1])]
    rfl
  · have hmono : StrictMono fun z : ℚ => (a + z) / 10 := by
      intro z w hzw
      dsimp only
      linarith
    rw [cmp_self_eq_eq, hmono.cmp_map_eq]
    rfl
  · have hba : (b : ℚ) + 1 ≤ a := by exact_mod_cast h
    rw [cmp_of_gt h, cmp_of_gt (by linarith [hx.1, hy.2])]
    rfl

/-- The power of ten just above a number decides, then its digits. -/
theorem cmp_scaled (m n : ℤ) {x y : ℚ} (hx : 1 / 10 ≤ x ∧ x < 1) (hy : 1 / 10 ≤ y ∧ y < 1) :
    cmp (x * 10 ^ m) (y * 10 ^ n) = (cmp m n).then (cmp x y) := by
  have hlt : ∀ {m n : ℤ} {x y : ℚ}, x < 1 → 1 / 10 ≤ y → m < n → x * 10 ^ m < y * 10 ^ n := by
    intro m n x y hx hy h
    have hm : (0 : ℚ) < 10 ^ m := zpow_pos (by norm_num) m
    have hstep : (10 : ℚ) * 10 ^ m ≤ 10 ^ n := by
      rw [← zpow_one_add₀ (by norm_num)]
      exact zpow_le_zpow_right₀ (by norm_num) (by omega)
    calc x * 10 ^ m < 1 * 10 ^ m := mul_lt_mul_of_pos_right hx hm
      _ = 1 / 10 * (10 * 10 ^ m) := by ring
      _ ≤ 1 / 10 * 10 ^ n := mul_le_mul_of_nonneg_left hstep (by norm_num)
      _ ≤ y * 10 ^ n := mul_le_mul_of_nonneg_right hy (zpow_nonneg (by norm_num) n)
  rcases lt_trichotomy m n with h | rfl | h
  · rw [cmp_of_lt h, cmp_of_lt (hlt hx.2 hy.1 h)]
    rfl
  · have hmono : StrictMono fun z : ℚ => z * 10 ^ m := fun z w hzw => mul_lt_mul_of_pos_right hzw (zpow_pos (by norm_num) m)
    rw [cmp_self_eq_eq, hmono.cmp_map_eq]
    rfl
  · rw [cmp_of_gt h, cmp_of_gt (hlt hy.2 hx.1 h)]
    rfl

theorem lt_iff_digitValue_lt {ch ch' : Char} (h : ch.isDigit = true) (h' : ch'.isDigit = true) :
    ch < ch' ↔ digitValue ch < digitValue ch' := by
  have hch := (toNat_of_isDigit h).1
  have hch' := (toNat_of_isDigit h').1
  have hnat : ch < ch' ↔ ch.toNat < ch'.toNat := Iff.rfl
  rw [hnat, digitValue, digitValue]
  omega

theorem cmp_digits {ch ch' : Char} (h : ch.isDigit = true) (h' : ch'.isDigit = true) :
    cmp ch ch' = cmp (digitValue ch) (digitValue ch') := by
  simp only [cmp, cmpUsing, lt_iff_digitValue_lt h h', lt_iff_digitValue_lt h' h]

theorem cmp_neg (x y : ℚ) : cmp (-x) (-y) = (cmp x y).swap := by
  have hanti : StrictAnti fun z : ℚ => -z := fun z w hzw => neg_lt_neg hzw
  rw [cmp_swap]
  exact hanti.cmp_map_eq x y

end Lib
