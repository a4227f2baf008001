import TideOrm.Proofs.DecimalText
import TideOrm.Spec.SqliteJson

/-! A JSON number's sign, coefficient and power of ten, as they are read when a test is built and as SQLite
computes them. -/

namespace TideOrm.SqliteJson

open Lib ExactBounds

/-- The `i64` values. -/
def InI64 (n : ℤ) : Prop := Sqlite.i64Min ≤ n ∧ n ≤ Sqlite.i64Max

instance (n : ℤ) : Decidable (InI64 n) := inferInstanceAs (Decidable (_ ∧ _))

theorem checkedI64_eq {n : ℤ} (h : InI64 n) : checkedI64 n = some n := if_pos h

theorem ExponentSpelling.digits_plain (e : ExponentSpelling) : ∀ ch ∈ e.digits, ch.isDigit = true := ((readsDigits_iff _).1 e.digits_are).2

theorem ExponentSpelling.exists_sign (e : ExponentSpelling) :
    ∃ sign, e.sign = signText sign ∧ e.value = signed sign (digitsValue e.digits) := by
  rcases e.sign_is with hsign | hsign | hsign
  · exact ⟨none, hsign, by rw [ExponentSpelling.value, hsign]; rfl⟩
  · exact ⟨some false, hsign, by rw [ExponentSpelling.value, hsign]; rfl⟩
  · exact ⟨some true, hsign, by rw [ExponentSpelling.value, hsign]; rfl⟩

theorem ExponentSpelling.parse_eq (e : ExponentSpelling) : parseI64 (e.sign ++ e.digits) = checkedI64 e.value := by
  obtain ⟨sign, hsign, hvalue⟩ := e.exists_sign
  rw [parseI64, hsign, parseInteger_text e.digits_are, ← hvalue, Option.filter_some, checkedI64]
  by_cases h : Sqlite.i64Min ≤ e.value ∧ e.value ≤ Sqlite.i64Max
  · rw [if_pos (decide_eq_true h), if_pos h]
  · rw [if_neg (by simpa using h), if_neg h]

theorem ExponentSpelling.cast_eq (e : ExponentSpelling) : Sqlite.castInteger (e.sign ++ e.digits) = Sqlite.clampI64 e.value := by
  rw [ExponentSpelling.value]
  rcases e.sign_is with hsign | hsign | hsign
  · rw [hsign, if_neg (by decide), List.nil_append, Sqlite.castInteger_digits e.digits_plain]
  · rw [hsign, if_neg (by decide), List.singleton_append, Sqlite.castInteger_plus e.digits_plain]
  · rw [hsign, if_pos rfl, List.singleton_append, Sqlite.castInteger_minus e.digits_plain]

namespace NumberSpelling

variable (n : NumberSpelling)

theorem all_digits : ∀ ch ∈ n.digits, ch.isDigit = true := by
  intro ch hch
  rcases List.mem_append.1 hch with hwhole | hfraction
  · exact ((readsDigits_iff _).1 n.whole_are).2 ch hwhole
  · exact List.all_eq_true.1 n.fraction_are ch hfraction

theorem mantissa_chars : ∀ ch ∈ n.mantissa, ch.isDigit = true ∨ ch = '.' := by
  intro ch hch
  rw [mantissa, List.mem_append] at hch
  rcases hch with hch | hch
  · exact .inl (n.all_digits ch (List.mem_append_left _ hch))
  · split at hch
    · cases hch
    · rcases List.mem_cons.1 hch with rfl | hch
      · exact .inr rfl
      · exact .inl (n.all_digits ch (List.mem_append_right _ hch))

theorem mantissa_eq : n.mantissa = if n.fraction = [] then n.whole else n.whole ++ '.' :: n.fraction := by
  rw [mantissa]
  split_ifs with hfraction
  · rw [List.append_nil]
  · rfl

theorem whole_plain : '.' ∉ n.whole := fun hmem =>
  absurd (n.all_digits '.' (List.mem_append_left _ hmem)) (by decide)

theorem filter_mantissa : n.mantissa.filter (· != '.') = n.digits := by
  have hplain : ∀ ch ∈ n.digits, (ch != '.') = true := fun ch hch =>
    bne_iff_ne.2 fun heq => absurd (heq ▸ n.all_digits ch hch) (by decide)
  rw [mantissa_eq]
  split_ifs with hfraction
  · have hwhole : n.digits = n.whole := by rw [digits, hfraction, List.append_nil]
    rw [← hwhole, List.filter_eq_self.2 hplain]
  · rw [List.filter_append, List.filter_cons_of_neg (by decide), ← List.filter_append]
    exact List.filter_eq_self.2 hplain

/-- The text goes on with a digit behind its sign. -/
theorem exists_unsigned : ∃ digit rest, digit.isDigit = true ∧
    n.mantissa ++ n.exponent.elim [] ExponentSpelling.text = digit :: rest := by
  obtain ⟨hne, hdigits⟩ := (readsDigits_iff _).1 n.whole_are
  obtain ⟨digit, whole, hwhole⟩ := List.exists_cons_of_ne_nil hne
  have hdigit := hdigits digit (by rw [hwhole]; exact List.mem_cons_self ..)
  rw [mantissa, hwhole, List.cons_append, List.cons_append]
  exact ⟨digit, _, hdigit, rfl⟩

theorem mantissa_unmarked : ∀ ch ∈ n.mantissa, isExponentMark ch = false := by
  intro ch hch
  rcases n.mantissa_chars ch hch with hdigit | rfl
  · exact (digit_plain hdigit).2.1
  · rfl

end NumberSpelling

section Splitting

variable {isSeparator : Char → Bool} {front : List Char}

theorem splitOnce_append (h : ∀ ch ∈ front, isSeparator ch = false) {ch : Char} (hch : isSeparator ch = true) (back : List Char) :
    splitOnce isSeparator (front ++ ch :: back) = some (front, back) := by
  have hplain : ∀ ch ∈ front, (!isSeparator ch) = true := fun ch hch => by rw [h ch hch]; rfl
  have hstop : ¬(!isSeparator ch) = true := by rw [hch]; exact Bool.false_ne_true
  rw [splitOnce, List.dropWhile_append_of_pos hplain, List.takeWhile_append_of_pos hplain,
    @List.dropWhile_cons_of_neg _ (fun ch => !isSeparator ch) _ _ hstop,
    @List.takeWhile_cons_of_neg _ (fun ch => !isSeparator ch) _ _ hstop, List.append_nil]

theorem splitOnce_none (h : ∀ ch ∈ front, isSeparator ch = false) : splitOnce isSeparator front = none := by
  have hplain : front.dropWhile (fun ch => !isSeparator ch) = [] :=
    List.dropWhile_eq_nil_iff.2 fun ch hch => by rw [h ch hch]; rfl
  rw [splitOnce, hplain]

end Splitting

namespace NumberSpelling

variable (n : NumberSpelling)

theorem mantissaExponent_eq : mantissaExponent (n.mantissa ++ n.exponent.elim [] ExponentSpelling.text) =
    (n.mantissa, checkedI64 n.exponentValue) := by
  rw [mantissaExponent, exponentValue]
  cases n.exponent with
  | none => rw [Option.elim_none, List.append_nil, splitOnce_none n.mantissa_unmarked]; rfl
  | some e =>
    have hmark : isExponentMark (if e.upper then 'E' else 'e') = true := by split_ifs <;> rfl
    rw [Option.elim_some, Option.elim_some, ExponentSpelling.text, splitOnce_append n.mantissa_unmarked hmark, ← e.parse_eq]

theorem fractionLength_eq : fractionLength n.mantissa = n.fraction.length := by
  have hplain : ∀ ch ∈ n.whole, (ch == '.') = false := fun ch hch => beq_false_of_ne fun heq => n.whole_plain (heq ▸ hch)
  rw [fractionLength, mantissa_eq]
  split_ifs with hfraction
  · rw [splitOnce_none hplain, hfraction]
    rfl
  · rw [splitOnce_append hplain rfl]

theorem text_negative (h : n.negative = true) : n.text = '-' :: (n.mantissa ++ n.exponent.elim [] ExponentSpelling.text) := by
  rw [text, h, if_pos rfl]
  rfl

theorem text_positive (h : n.negative = false) : n.text = n.mantissa ++ n.exponent.elim [] ExponentSpelling.text := by
  rw [text, h, if_neg Bool.false_ne_true]
  rfl

theorem head_text : (n.text.head? == some '-') = n.negative := by
  cases hnegative : n.negative with
  | true => rw [n.text_negative hnegative]; rfl
  | false =>
    obtain ⟨digit, rest, hdigit, htext⟩ := n.exists_unsigned
    have hne : digit ≠ '-' := (digit_plain hdigit).2.2.1
    rw [n.text_positive hnegative, htext, List.head?_cons]
    exact beq_false_of_ne fun heq => hne (Option.some_inj.1 heq)

theorem dropWhile_text : n.text.dropWhile (· == '-') = n.mantissa ++ n.exponent.elim [] ExponentSpelling.text := by
  obtain ⟨digit, rest, hdigit, htext⟩ := n.exists_unsigned
  have hne : ¬(digit == '-') = true := fun heq => (digit_plain hdigit).2.2.1 (beq_iff_eq.1 heq)
  have hunsigned : (n.mantissa ++ n.exponent.elim [] ExponentSpelling.text).dropWhile (· == '-') =
      n.mantissa ++ n.exponent.elim [] ExponentSpelling.text := by
    rw [htext, @List.dropWhile_cons_of_neg _ (· == '-') _ _ hne]
  cases hnegative : n.negative with
  | true => rw [n.text_negative hnegative, List.dropWhile_cons_of_pos rfl, hunsigned]
  | false => rw [n.text_positive hnegative, hunsigned]

theorem trailingZeros_le (digits : List Char) : trailingZeros digits ≤ digits.length := Nat.sub_le _ _

/-- Every step from the exponent to the power of ten stays in 64 bits; a `String` is no longer than an `i64` says. -/
structure Fits : Prop where
  short : n.digits.length ≤ Sqlite.i64Max
  exponent : InI64 n.exponentValue
  scale : InI64 n.scale
  normal : InI64 n.normalScale

variable {n} in
theorem length_inI64 (hshort : n.digits.length ≤ Sqlite.i64Max) {k : ℕ} (h : k ≤ n.digits.length) : InI64 k := by
  rw [InI64, Sqlite.i64Min, Sqlite.i64Max] at *
  omega

theorem fraction_le : n.fraction.length ≤ n.digits.length := by
  rw [digits, List.length_append]
  exact Nat.le_add_left _ _

/-- What is read of a number when a test is built. -/
theorem decimalParts_eq : decimalParts n.text = (n.negative, coefficient n.digits,
    (checkedI64 n.exponentValue).bind fun exponent => (checkedI64 n.fraction.length).bind fun fraction =>
      (checkedI64 (exponent - fraction)).bind fun scale => (checkedI64 (trailingZeros n.digits)).bind fun zeros =>
        checkedI64 (scale + zeros)) := by
  rw [decimalParts, dropWhile_text, mantissaExponent_eq]
  simp only [head_text, fractionLength_eq, filter_mantissa]

variable {n} in
theorem Fits.decimalParts (h : n.Fits) : SqliteJson.decimalParts n.text = (n.negative, coefficient n.digits, some n.normalScale) := by
  have hscale : checkedI64 (n.exponentValue - n.fraction.length) = some n.scale := checkedI64_eq h.scale
  rw [n.decimalParts_eq, checkedI64_eq h.exponent, Option.bind_some, checkedI64_eq (length_inI64 h.short n.fraction_le), Option.bind_some,
    hscale, Option.bind_some, checkedI64_eq (length_inI64 h.short (trailingZeros_le _)), Option.bind_some]
  exact congrArg (fun scale => (n.negative, coefficient n.digits, scale)) (checkedI64_eq h.normal)

/-- The exponent's text as `lower` leaves it. -/
def exponentToken : List Char := n.exponent.elim [] fun e => 'e' :: (e.sign ++ e.digits)

theorem lower_mantissa : Sqlite.lower n.mantissa = n.mantissa :=
  Sqlite.lower_plain fun ch hch => (n.mantissa_chars ch hch).imp_right .inl

theorem lower_exponent : Sqlite.lower (n.exponent.elim [] ExponentSpelling.text) = n.exponentToken := by
  rw [exponentToken]
  cases n.exponent with
  | none => rfl
  | some e =>
    have hplain : Sqlite.lower (e.sign ++ e.digits) = e.sign ++ e.digits := by
      refine Sqlite.lower_plain fun ch hch => ?_
      rcases List.mem_append.1 hch with hsign | hdigits
      · rcases e.sign_is with h | h | h <;> rw [h] at hsign
        · cases hsign
        · exact .inr (.inr (.inl (List.mem_singleton.1 hsign)))
        · exact .inr (.inr (.inr (List.mem_singleton.1 hsign)))
      · exact .inl (e.digits_plain ch hdigits)
    rw [Option.elim_some, Option.elim_some, ExponentSpelling.text, Sqlite.lower, List.map_cons]
    rw [Sqlite.lower] at hplain
    rw [hplain]
    split_ifs <;> rfl

theorem lower_text : Sqlite.lower n.text = (if n.negative then ['-'] else []) ++ (n.mantissa ++ n.exponentToken) := by
  rw [text, ← lower_exponent]
  conv_rhs => rw [← lower_mantissa]
  simp only [Sqlite.lower, List.map_append]
  split_ifs <;> rfl

theorem mark_not_mem : 'e' ∉ n.mantissa := fun hmem => absurd (n.mantissa_unmarked 'e' hmem) (by decide)

theorem tideNumUnsigned_eq : tideNumUnsigned (Sqlite.lower n.text) = (n.negative, n.mantissa ++ n.exponentToken) := by
  rw [lower_text, tideNumUnsigned]
  cases hnegative : n.negative with
  | true => rfl
  | false =>
    obtain ⟨digit, rest, hdigit, htext⟩ := n.exists_unsigned
    have hlower : n.mantissa ++ n.exponentToken = digit.toLower :: Sqlite.lower rest := by
      rw [← lower_exponent, ← lower_mantissa, Sqlite.lower, Sqlite.lower, ← List.map_append, htext]
      rfl
    have hplain : digit.toLower ≠ '-' := by
      rw [Sqlite.toLower_of_lt (by have := toNat_of_isDigit hdigit; omega)]
      exact (digit_plain hdigit).2.2.1
    rw [if_neg Bool.false_ne_true, List.nil_append, hlower, if_neg]
    exact fun heq => hplain (List.cons.inj heq).1

theorem tideNumParts_eq : tideNumParts (n.mantissa ++ n.exponentToken) = (n.mantissa, Sqlite.clampI64 n.exponentValue) := by
  rw [tideNumParts, exponentToken, exponentValue]
  cases n.exponent with
  | none => rw [Option.elim_none, List.append_nil, Sqlite.instr_of_not_mem n.mark_not_mem, if_neg (by decide)]; rfl
  | some e =>
    rw [Option.elim_some, Sqlite.substr_instr n.mark_not_mem, Sqlite.substrFrom_instr n.mark_not_mem,
      Sqlite.instr_append n.mark_not_mem, if_pos (Nat.succ_pos _), e.cast_eq]
    rfl

theorem tideNumDigits_eq (exponent : ℤ) : tideNumDigits n.mantissa exponent = (n.digits, exponent - n.fraction.length) := by
  rw [tideNumDigits, filter_mantissa, mantissa_eq]
  by_cases hfraction : n.fraction = []
  · rw [if_pos hfraction, Sqlite.instr_of_not_mem n.whole_plain, if_neg (by decide), hfraction]
    rfl
  · rw [if_neg hfraction, Sqlite.instr_append n.whole_plain, if_pos (Nat.succ_pos _), List.length_append, List.length_cons]
    push_cast
    ring_nf

theorem unpadded_le (digits : List Char) : (unpadded digits).length ≤ digits.length := (List.rdropWhile_prefix _ _).length_le

theorem normalScale_eq : n.scale + n.digits.length - (unpadded n.digits).length = n.normalScale := by
  have hle := unpadded_le n.digits
  rw [normalScale, trailingZeros]
  omega

/-- What SQLite computes of a number's token. -/
theorem tideNumNormal_eq (h : InI64 n.exponentValue) : tideNumNormal n.text = (n.negative, coefficient n.digits, n.normalScale) := by
  rw [tideNumNormal, tideNumUnsigned_eq]
  simp only [tideNumParts_eq, tideNumDigits_eq, Sqlite.clampI64_eq h, ← n.normalScale_eq, scale]

/-- The steps that SQLite takes stay in 64 bits. -/
structure FitsSql : Prop where
  short : n.digits.length ≤ Sqlite.i64Max
  exponent : InI64 n.exponentValue
  scale : InI64 n.scale
  padded : InI64 (n.scale + n.digits.length)

variable {n} in
theorem FitsSql.fits (h : n.FitsSql) : n.Fits := by
  refine ⟨h.short, h.exponent, h.scale, ?_⟩
  have hzeros := trailingZeros_le n.digits
  have hscale := h.scale
  have hpadded := h.padded
  rw [InI64] at *
  rw [normalScale]
  omega

variable {n} in
theorem FitsSql.tideNumNormalValues (h : n.FitsSql) (fl : ℚ → ℚ) :
    SqliteJson.tideNumNormalValues fl n.text = (n.negative, coefficient n.digits, .integer n.normalScale) := by
  have hadd : ∀ {a b : ℤ}, InI64 (a + b) → (Sqlite.Value.integer a).arith fl .add (.integer b) = .integer (a + b) :=
    fun hin => (Sqlite.holds_add _ _).eq_integer hin.1 hin.2
  have hfraction := n.tideNumDigits_eq n.exponentValue
  rw [tideNumDigits] at hfraction
  obtain ⟨hdigits, hexponent⟩ := Prod.mk.inj hfraction
  have hnegate : n.exponentValue + -(if 0 < Sqlite.instr n.mantissa '.' then (n.mantissa.length : ℤ) - Sqlite.instr n.mantissa '.' else 0) =
      n.scale := by
    rw [← sub_eq_add_neg, hexponent, NumberSpelling.scale]
  rw [SqliteJson.tideNumNormalValues, tideNumUnsigned_eq]
  simp only [tideNumParts_eq, Sqlite.clampI64_eq h.exponent, hdigits]
  rw [hadd (hnegate ▸ h.scale), hnegate, hadd h.padded, hadd, ← sub_eq_add_neg, normalScale_eq]
  rw [← sub_eq_add_neg, normalScale_eq]
  exact h.fits.normal

/-- Numbers are equal where their sizes are, and their signs unless they are zero. -/
theorem signed_eq_iff {a b : ℚ} (ha : 0 ≤ a) (hb : 0 ≤ b) (s t : Bool) :
    (if s then -1 else 1) * a = (if t then -1 else 1) * b ↔ a = b ∧ (a = 0 ∨ s = t) := by
  cases s <;> cases t
  · simp
  · simp only [Bool.false_eq_true, if_false, if_true, or_false]
    constructor
    · intro h
      exact ⟨by linarith, by linarith⟩
    · rintro ⟨rfl, rfl⟩
      simp
  · simp only [Bool.false_eq_true, if_false, if_true, Bool.true_eq_false, or_false]
    constructor
    · intro h
      exact ⟨by linarith, by linarith⟩
    · rintro ⟨rfl, rfl⟩
      simp
  · simp

/-- Numbers are equal where SQLite computes the same of them. -/
theorem value_eq_iff (m : NumberSpelling) : n.value = m.value ↔ coefficient n.digits = coefficient m.digits ∧
    (coefficient n.digits = [] ∨ n.negative = m.negative ∧ n.normalScale = m.normalScale) := by
  have hpos : ∀ (k : NumberSpelling), 0 ≤ (digitsValue k.digits : ℚ) * 10 ^ k.scale := fun k => by positivity
  have hzero : (digitsValue n.digits : ℚ) * 10 ^ n.scale = 0 ↔ coefficient n.digits = [] := by
    rw [coefficient_nil_iff n.all_digits, mul_eq_zero, or_iff_left (zpow_ne_zero _ (by norm_num)), Nat.cast_eq_zero]
  have hvalue := signed_eq_iff (hpos n) (hpos m) n.negative m.negative
  rw [decimal_eq_iff n.all_digits m.all_digits, hzero] at hvalue
  refine hvalue.trans ?_
  rw [normalScale, normalScale]
  tauto

end NumberSpelling

section Sizes

theorem Exponent.value_bounds (e : Exponent) : -2 ^ 30 < e.value ∧ e.value < 2 ^ 30 := by
  have hsmall := e.small
  rw [Exponent.value]
  split_ifs
  · omega
  · omega

namespace NumberText

variable (n : NumberText)

def digits : List Char := n.whole ++ n.fraction

/-- The power of ten above the zeros at the end. -/
def normalScale : ℤ := n.scale + trailingZeros n.digits

theorem spelling_text : n.spelling.text = n.text := by
  rw [NumberSpelling.text, text, spelling]
  cases n.exponent <;> rfl

theorem exponentValue_spelling : n.spelling.exponentValue = n.exponent.elim 0 Exponent.value := by
  rw [NumberSpelling.exponentValue, spelling]
  cases n.exponent <;> rfl

theorem scale_spelling : n.spelling.scale = n.scale := by
  rw [NumberSpelling.scale, exponentValue_spelling]
  rfl

theorem normalScale_spelling : n.spelling.normalScale = n.normalScale := by
  rw [NumberSpelling.normalScale, scale_spelling]
  rfl

theorem value_spelling : n.spelling.value = n.value := by
  rw [NumberSpelling.value, scale_spelling]
  rfl

theorem exponent_bounds : -2 ^ 30 < n.spelling.exponentValue ∧ n.spelling.exponentValue < 2 ^ 30 := by
  rw [exponentValue_spelling]
  cases n.exponent with
  | none => exact ⟨by decide, by decide⟩
  | some e => exact e.value_bounds

/-- The sizes of a `numeric` are far from those of an `i64`. -/
theorem fits : n.spelling.Fits := by
  have hexponent := n.exponent_bounds
  have hshort := n.short
  have hzeros := NumberSpelling.trailingZeros_le n.spelling.digits
  have hdigits : n.spelling.digits.length = n.whole.length + n.fraction.length := List.length_append
  have hscale : n.spelling.scale = n.spelling.exponentValue - n.fraction.length := rfl
  have hnormal : n.spelling.normalScale = n.spelling.scale + trailingZeros n.spelling.digits := rfl
  constructor <;> simp only [InI64, Sqlite.i64Min, Sqlite.i64Max] <;> omega

theorem decimalParts_text : decimalParts n.text = (n.negative, coefficient n.digits, some n.normalScale) := by
  rw [← spelling_text, n.fits.decimalParts, normalScale_spelling]
  rfl

theorem tideNumNormal_text : tideNumNormal n.text = (n.negative, coefficient n.digits, n.normalScale) := by
  rw [← spelling_text, n.spelling.tideNumNormal_eq n.fits.exponent, normalScale_spelling]
  rfl

/-- Numbers are equal where SQLite computes the same of them. -/
theorem value_eq_iff (m : NumberText) : n.value = m.value ↔ coefficient n.digits = coefficient m.digits ∧
    (coefficient n.digits = [] ∨ n.negative = m.negative ∧ n.normalScale = m.normalScale) := by
  rw [← value_spelling, ← value_spelling, ← normalScale_spelling, ← normalScale_spelling]
  exact n.spelling.value_eq_iff m.spelling

end NumberText

end Sizes

section NormalForm

open NumberSpelling

/-- What is read of a number and what SQLite computes of it are the same sign, coefficient and power of ten. -/
def SameParts (read : Bool × List Char × Option ℤ) (computed : Bool × List Char × Sqlite.Value) : Prop :=
  read.1 = computed.1 ∧ read.2.1 = computed.2.1 ∧ ∃ scale, read.2.2 = some scale ∧ computed.2.2 = .integer scale

/-- A number's parts are its normal form, and SQLite's steps compute the same parts, where 64 bits hold every step. -/
theorem decimal_normal_form (fl : ℚ → ℚ) :
    (∀ n m : NumberSpelling, n.Fits → m.Fits → n.value ≠ 0 → m.value ≠ 0 →
      (decimalParts n.text = decimalParts m.text ↔ n.value = m.value)) ∧
    (∀ n : NumberSpelling, (decimalParts n.text).2.1 = [] ↔ n.value = 0) ∧
    ∀ n : NumberSpelling, n.FitsSql → SameParts (decimalParts n.text) (tideNumNormalValues fl n.text) := by
  have hzero : ∀ n : NumberSpelling, coefficient n.digits = [] ↔ n.value = 0 := by
    intro n
    have hsign : (if n.negative then -1 else 1 : ℚ) ≠ 0 := by split_ifs <;> norm_num
    rw [coefficient_nil_iff n.all_digits, value, mul_eq_zero, or_iff_right hsign, mul_eq_zero,
      or_iff_left (zpow_ne_zero _ (by norm_num)), Nat.cast_eq_zero]
  refine ⟨fun n m hn hm hvalue _ => ?_, fun n => ?_, fun n hn => ?_⟩
  · have hne : coefficient n.digits ≠ [] := fun hnil => hvalue ((hzero n).1 hnil)
    rw [hn.decimalParts, hm.decimalParts, n.value_eq_iff m, or_iff_right hne, Prod.mk.injEq, Prod.mk.injEq, Option.some.injEq]
    tauto
  · rw [n.decimalParts_eq, hzero]
  · rw [hn.fits.decimalParts, hn.tideNumNormalValues fl]
    exact ⟨rfl, rfl, _, rfl, rfl⟩

/-- `-0120.50e+3` -/
def padded : NumberSpelling := ⟨true, "0120".toList, "50".toList, some ⟨false, ['+'], ['3'], by decide, by decide⟩, by decide, by decide⟩

/-- `-1205E2` -/
def shortest : NumberSpelling := ⟨true, "1205".toList, [], some ⟨true, [], ['2'], by decide, by decide⟩, by decide, by decide⟩

theorem decimal_normal_form_padded : (decimalParts padded.text = decimalParts shortest.text ↔ padded.value = shortest.value) ∧
    ((decimalParts padded.text).2.1 = [] ↔ padded.value = 0) ∧ SameParts (decimalParts padded.text) (tideNumNormalValues id padded.text) := by
  obtain ⟨hparts, hzero, hsame⟩ := decimal_normal_form id
  have hpadded : padded.FitsSql := by constructor <;> decide
  have hshortest : shortest.FitsSql := by constructor <;> decide
  have hne : ∀ n : NumberSpelling, (decimalParts n.text).2.1 ≠ [] → n.value ≠ 0 := fun n h hvalue => h ((hzero n).2 hvalue)
  exact ⟨hparts padded shortest hpadded.fits hshortest.fits (hne _ (by decide)) (hne _ (by decide)), hzero padded, hsame padded hpadded⟩

/-- `1e-9223372036854775808`, the last power of ten of an `i64` -/
def lastPower : NumberSpelling :=
  ⟨false, ['1'], [], some ⟨false, ['-'], "9223372036854775808".toList, by decide, by decide⟩, by decide, by decide⟩

/-- The same number with a point: the step below the power of ten leaves the `i64` values. -/
def lastPowerPointed : NumberSpelling :=
  ⟨false, ['1'], ['0'], some ⟨false, ['-'], "9223372036854775808".toList, by decide, by decide⟩, by decide, by decide⟩

/-- `1e-9223372036854775809`, whose exponent SQLite reads as the nearest `i64` -/
def beyondPower : NumberSpelling :=
  ⟨false, ['1'], [], some ⟨false, ['-'], "9223372036854775809".toList, by decide, by decide⟩, by decide, by decide⟩

theorem scales_leave : (InI64 lastPower.normalScale ∧ InI64 lastPowerPointed.normalScale ∧ lastPower.value = lastPowerPointed.value ∧
      decimalParts lastPower.text ≠ decimalParts lastPowerPointed.text) ∧
    ¬SameParts (decimalParts beyondPower.text) (tideNumNormalValues id beyondPower.text) := by
  refine ⟨⟨by decide, by decide, ?_, by decide⟩, ?_⟩
  · rw [lastPower.value_eq_iff]
    exact ⟨by decide, .inr ⟨rfl, by decide⟩⟩
  · rintro ⟨-, -, scale, hread, -⟩
    have hnone : (decimalParts beyondPower.text).2.2 = none := by decide
    rw [hnone] at hread
    cases hread

end NormalForm

end TideOrm.SqliteJson
