import TideOrm.Lib.Radix

/-! Decimal digits as text. -/

namespace Lib

def digitValue (ch : Char) : ℕ := ch.toNat - 48

/-- The number that a text of decimal digits writes. -/
def digitsValue (text : List Char) : ℕ := radixValue 10 (text.map digitValue)

/-- `text` behind zeros, to `width` characters at least. -/
def zeroPad (width : ℕ) (text : List Char) : List Char := List.replicate (width - text.length) '0' ++ text

@[simp] theorem digitsValue_nil : digitsValue [] = 0 := rfl

theorem digitsValue_append (front back : List Char) :
    digitsValue (front ++ back) = digitsValue front * 10 ^ back.length + digitsValue back := by
  rw [digitsValue, List.map_append, radixValue_append, List.length_map, digitsValue, digitsValue]

theorem digitValue_digitChar {d : ℕ} (h : d < 10) : digitValue (Nat.digitChar d) = d := by
  have hall : ∀ d < 10, digitValue (Nat.digitChar d) = d := by decide
  exact hall d h

theorem toNat_of_isDigit {ch : Char} (h : ch.isDigit = true) : 48 ≤ ch.toNat ∧ ch.toNat ≤ 57 := by
  rw [Char.isDigit, Bool.and_eq_true, decide_eq_true_eq, decide_eq_true_eq, ge_iff_le, UInt32.le_iff_toNat_le,
    UInt32.le_iff_toNat_le] at h
  exact h

theorem digitValue_lt {ch : Char} (h : ch.isDigit = true) : digitValue ch < 10 := by
  have hbounds := toNat_of_isDigit h
  rw [digitValue]
  omega

theorem digitValue_inj {ch ch' : Char} (h : ch.isDigit = true) (h' : ch'.isDigit = true) (heq : digitValue ch = digitValue ch') :
    ch = ch' := by
  have hbounds := toNat_of_isDigit h
  have hbounds' := toNat_of_isDigit h'
  rw [digitValue, digitValue] at heq
  exact Char.toNat_inj.1 (by omega)

theorem digitsValue_lt {text : List Char} (h : ∀ ch ∈ text, ch.isDigit = true) : digitsValue text < 10 ^ text.length := by
  induction text with
  | nil => decide
  | cons ch text ih =>
    rw [List.forall_mem_cons] at h
    have hch := digitValue_lt h.1
    have htext := ih h.2
    rw [digitsValue, List.map_cons, radixValue_cons, List.length_map, List.length_cons, Nat.pow_succ]
    rw [digitsValue] at htext
    nlinarith

theorem digitsValue_toDigits (n : ℕ) : digitsValue (Nat.toDigits 10 n) = n := by
  induction n using Nat.strong_induction_on with
  | _ n ih =>
    by_cases hn : n < 10
    · rw [Nat.toDigits_of_lt_base hn, digitsValue, List.map_singleton, radixValue_singleton, digitValue_digitChar hn]
    · rw [Nat.toDigits_of_base_le (by omega) (by omega), digitsValue_append, ih (n / 10) (by omega), digitsValue,
        List.map_singleton, radixValue_singleton, digitValue_digitChar (Nat.mod_lt n (by decide))]
      simp only [List.length_singleton, Nat.pow_one]
      omega

theorem digitsValue_zeros (n : ℕ) : digitsValue (List.replicate n '0') = 0 := by
  induction n with
  | zero => rfl
  | succ n ih =>
    rw [List.replicate_succ', digitsValue_append, ih]
    rfl

/-- Zeros in front count for nothing. -/
theorem digitsValue_dropWhile (digits : List Char) : digitsValue (digits.dropWhile (· == '0')) = digitsValue digits := by
  induction digits with
  | nil => rfl
  | cons ch digits ih =>
    rw [List.dropWhile_cons]
    split_ifs with hzero
    · rw [ih, beq_iff_eq.1 hzero, digitsValue, digitsValue, List.map_cons, radixValue_cons,
        show digitValue '0' = 0 from rfl, Nat.zero_mul, Nat.zero_add]
    · rfl

theorem digitsValue_zeroPad (width : ℕ) (text : List Char) : digitsValue (zeroPad width text) = digitsValue text := by
  rw [zeroPad, digitsValue_append, digitsValue_zeros, Nat.zero_mul, Nat.zero_add]

theorem isDigit_toDigits (n : ℕ) : ∀ ch ∈ Nat.toDigits 10 n, ch.isDigit = true :=
  fun _ hch => Nat.isDigit_of_mem_toDigits (by decide) (by decide) hch

theorem isDigit_zeroPad {width : ℕ} {text : List Char} (h : ∀ ch ∈ text, ch.isDigit = true) :
    ∀ ch ∈ zeroPad width text, ch.isDigit = true := by
  intro ch hch
  obtain hzero | htext := List.mem_append.1 hch
  · rw [List.eq_of_mem_replicate hzero]
    decide
  · exact h ch htext

theorem length_zeroPad {width : ℕ} {text : List Char} (h : text.length ≤ width) : (zeroPad width text).length = width := by
  rw [zeroPad, List.length_append, List.length_replicate]
  omega

/-- A number of at most `width` digits fills the width exactly. -/
theorem length_zeroPad_toDigits {width n : ℕ} (hwidth : 0 < width) (h : n < 10 ^ width) :
    (zeroPad width (Nat.toDigits 10 n)).length = width :=
  length_zeroPad ((Nat.length_toDigits_le_iff (by decide) hwidth).2 h)

end Lib
