import TideOrm.Lib.DecimalFraction
import TideOrm.Sanity.SqlLexer
import TideOrm.Spec.Validation

/-! Decimal texts compared without rounding, and the rules whose bounds are such texts. -/

namespace TideOrm.ExactBounds

open Lib ValidatableValue

section Digits

variable {ds es : List Char}

/-- The first digit, zero past the last. -/
theorem digitsFraction_headD (ds : List Char) :
    digitsFraction ds = (digitValue (ds.headD '0') + digitsFraction ds.tail) / 10 := by
  cases ds with
  | nil => simp [digitValue]
  | cons d ds => exact digitsFraction_cons d ds

theorem getD_succ (ds : List Char) (i : ℕ) : ds.getD (i + 1) '0' = ds.tail.getD i '0' := by
  cases ds <;> rfl

theorem compareDigits_step (h : ds ≠ [] ∨ es ≠ []) :
    compareDigits ds es = (cmp (ds.headD '0') (es.headD '0')).then (compareDigits ds.tail es.tail) := by
  have hlength : max ds.length es.length = max ds.tail.length es.tail.length + 1 := by
    cases ds <;> cases es <;> simp at h ⊢
  have hhead : ∀ ds : List Char, ds.getD 0 '0' = ds.headD '0' := by
    intro ds
    cases ds <;> rfl
  rw [compareDigits, hlength, List.range_succ_eq_map, List.map_cons, List.map_map, List.find?_cons, hhead, hhead]
  have htail : (fun i => cmp (ds.getD i '0') (es.getD i '0')) ∘ Nat.succ =
      fun i => cmp (ds.tail.getD i '0') (es.tail.getD i '0') := by
    funext i
    rw [Function.comp_apply, Nat.succ_eq_add_one, getD_succ, getD_succ]
  rw [htail, compareDigits]
  cases cmp (ds.headD '0') (es.headD '0') <;> rfl

theorem isDigit_headD (h : ∀ ch ∈ ds, ch.isDigit = true) : (ds.headD '0').isDigit = true := by
  cases ds with
  | nil => rfl
  | cons d ds => exact h d (List.mem_cons_self ..)

theorem isDigit_tail (h : ∀ ch ∈ ds, ch.isDigit = true) : ∀ ch ∈ ds.tail, ch.isDigit = true :=
  fun ch hch => h ch (List.mem_of_mem_tail hch)

/-- Digits are compared as the fractions they write. -/
theorem compareDigits_eq (ds es : List Char) (hds : ∀ ch ∈ ds, ch.isDigit = true) (hes : ∀ ch ∈ es, ch.isDigit = true) :
    compareDigits ds es = cmp (digitsFraction ds) (digitsFraction es) := by
  induction hlength : max ds.length es.length generalizing ds es with
  | zero =>
    obtain rfl : ds = [] := List.length_eq_zero_iff.1 (by omega)
    obtain rfl : es = [] := List.length_eq_zero_iff.1 (by omega)
    rw [cmp_self_eq_eq]
    rfl
  | succ n ih =>
    have hne : ds ≠ [] ∨ es ≠ [] := by
      rw [← not_and_or]
      rintro ⟨rfl, rfl⟩
      cases hlength
    have hds' := isDigit_tail hds
    have hes' := isDigit_tail hes
    have htail : max ds.tail.length es.tail.length = n := by
      rw [List.length_tail, List.length_tail]
      omega
    rw [compareDigits_step hne, ih ds.tail es.tail hds' hes' htail, cmp_digits (isDigit_headD hds) (isDigit_headD hes),
      digitsFraction_headD ds, digitsFraction_headD es,
      cmp_tenths _ _ ⟨digitsFraction_nonneg _, digitsFraction_lt_one hds'⟩ ⟨digitsFraction_nonneg _, digitsFraction_lt_one hes'⟩]

end Digits

section Parts

/-- A number as it is compared: its sign, its digits from the first that is not zero, and the
power of ten just above it. -/
structure Normal (parts : Bool × List Char × ℤ) : Prop where
  digits : ∀ ch ∈ parts.2.1, ch.isDigit = true
  leading : parts.2.1.head? ≠ some '0'
  zero : parts.2.1 = [] → parts.1 = false

def partsValue (parts : Bool × List Char × ℤ) : ℚ :=
  (if parts.1 then -1 else 1) * (digitsFraction parts.2.1 * 10 ^ parts.2.2)

def compareParts (left right : Bool × List Char × ℤ) : Ordering :=
  let (ln, ld, lm) := left
  let (rn, rd, rm) := right
  if ln ≠ rn then if ln then .lt else .gt
  else
    let order :=
      match ld.isEmpty, rd.isEmpty with
      | true, true => .eq
      | true, false => .lt
      | false, true => .gt
      | false, false => (cmp lm rm).then (compareDigits ld rd)
    if ln then order.swap else order

theorem compareDecimalText_eq (left right : List Char) : compareDecimalText left right =
    (decimalParts left).bind fun l => (decimalParts right).map fun r => compareParts l r := by
  rw [compareDecimalText]
  cases decimalParts left with
  | none => rfl
  | some l =>
    cases decimalParts right with
    | none => rfl
    | some r =>
      obtain ⟨ln, ld, lm⟩ := l
      obtain ⟨rn, rd, rm⟩ := r
      cases ln <;> cases rn <;> rfl

variable {ln rn : Bool} {ld rd : List Char} {lm rm : ℤ}

/-- What a number without its sign is at least, and below. -/
theorem digitsFraction_bounds {d : Char} {ds : List Char} (hdigits : ∀ ch ∈ d :: ds, ch.isDigit = true)
    (hleading : (d :: ds).head? ≠ some '0') : 1 / 10 ≤ digitsFraction (d :: ds) ∧ digitsFraction (d :: ds) < 1 :=
  ⟨tenth_le_digitsFraction (hdigits d (List.mem_cons_self ..)) fun h => hleading (congrArg some h),
    digitsFraction_lt_one hdigits⟩

theorem magnitude_pos {d : Char} {ds : List Char} (hdigits : ∀ ch ∈ d :: ds, ch.isDigit = true)
    (hleading : (d :: ds).head? ≠ some '0') (m : ℤ) : 0 < digitsFraction (d :: ds) * 10 ^ m :=
  mul_pos (by linarith [(digitsFraction_bounds hdigits hleading).1]) (zpow_pos (by norm_num) m)

/-- Numbers of one sign are ordered by their magnitudes. -/
theorem compareMagnitudes (hld : ∀ ch ∈ ld, ch.isDigit = true) (hrd : ∀ ch ∈ rd, ch.isDigit = true)
    (hl : ld.head? ≠ some '0') (hr : rd.head? ≠ some '0') (lm rm : ℤ) :
    (match ld.isEmpty, rd.isEmpty with
      | true, true => .eq
      | true, false => .lt
      | false, true => .gt
      | false, false => (cmp lm rm).then (compareDigits ld rd)) =
    cmp (digitsFraction ld * 10 ^ lm) (digitsFraction rd * 10 ^ rm) := by
  cases ld with
  | nil =>
    cases rd with
    | nil =>
      rw [digitsFraction_nil, zero_mul, zero_mul, cmp_self_eq_eq]
      rfl
    | cons d rd => rw [digitsFraction_nil, zero_mul, cmp_of_lt (magnitude_pos hrd hr rm)]; rfl
  | cons d ld =>
    cases rd with
    | nil => rw [digitsFraction_nil, zero_mul, cmp_of_gt (magnitude_pos hld hl lm)]; rfl
    | cons e rd =>
      rw [cmp_scaled lm rm (digitsFraction_bounds hld hl) (digitsFraction_bounds hrd hr), ← compareDigits_eq _ _ hld hrd]
      rfl

theorem negative_pos {m : ℤ} (h : Normal (true, ld, m)) : 0 < digitsFraction ld * 10 ^ m := by
  cases ld with
  | nil => exact absurd (h.zero rfl) Bool.noConfusion
  | cons d ld => exact magnitude_pos h.digits h.leading m

theorem partsValue_plus (ds : List Char) (m : ℤ) : partsValue (false, ds, m) = digitsFraction ds * 10 ^ m := one_mul _

theorem partsValue_minus (ds : List Char) (m : ℤ) : partsValue (true, ds, m) = -(digitsFraction ds * 10 ^ m) := neg_one_mul _

theorem magnitude_nonneg (ds : List Char) (m : ℤ) : 0 ≤ digitsFraction ds * 10 ^ m :=
  mul_nonneg (digitsFraction_nonneg ds) (zpow_nonneg (by norm_num) m)

theorem compareParts_eq {l r : Bool × List Char × ℤ} (hl : Normal l) (hr : Normal r) :
    compareParts l r = cmp (partsValue l) (partsValue r) := by
  obtain ⟨ln, ld, lm⟩ := l
  obtain ⟨rn, rd, rm⟩ := r
  have horder := compareMagnitudes hl.digits hr.digits hl.leading hr.leading lm rm
  cases ln with
  | false =>
    cases rn with
    | false =>
      rw [partsValue_plus, partsValue_plus]
      exact horder
    | true =>
      have hneg := negative_pos hr
      have hpos := magnitude_nonneg ld lm
      rw [partsValue_plus, partsValue_minus]
      exact (cmp_of_gt (by linarith)).symm
  | true =>
    cases rn with
    | false =>
      have hneg := negative_pos hl
      have hpos := magnitude_nonneg rd rm
      rw [partsValue_minus, partsValue_plus]
      exact (cmp_of_lt (by linarith)).symm
    | true =>
      rw [partsValue_minus, partsValue_minus, cmp_neg]
      exact congrArg Ordering.swap horder

end Parts

section Grammar

/-- A sign that may be left out; `some true` is the minus. -/
def signText : Option Bool → List Char
  | none => []
  | some true => ['-']
  | some false => ['+']

def signed (sign : Option Bool) (n : ℕ) : ℤ := if sign.getD false then -n else n

structure Exponent where
  mark : Char
  sign : Option Bool
  digits : List Char
  mark_is : isExponentMark mark = true
  digits_are : readsDigits digits = true

/-- A decimal text: blanks, a sign, digits with one point at most, an exponent, blanks. -/
structure DecimalText where
  front : List Char
  sign : Option Bool
  whole : List Char
  point : Bool
  fraction : List Char
  exponent : Option Exponent
  back : List Char
  blanks : ∀ ch ∈ front ++ back, isWhitespace ch = true
  digits_are : readsDigits (whole ++ fraction) = true
  pointed : point = false → fraction = []

namespace DecimalText

variable (d : DecimalText)

def mantissa : List Char := d.whole ++ if d.point then '.' :: d.fraction else []

def exponentText : List Char := d.exponent.elim [] fun e => e.mark :: (signText e.sign ++ e.digits)

def text : List Char := d.front ++ (signText d.sign ++ (d.mantissa ++ d.exponentText) ++ d.back)

def exponentValue : ℤ := d.exponent.elim 0 fun e => signed e.sign (digitsValue e.digits)

/-- The power of ten that the last digit counts. -/
def scale : ℤ := d.exponentValue - d.fraction.length

/-- The number that the text denotes. -/
def value : ℚ := (if d.sign.getD false then -1 else 1) * (digitsValue (d.whole ++ d.fraction) * 10 ^ d.scale)

def significant : List Char := (d.whole ++ d.fraction).dropWhile (· == '0')

/-- The exponent is an `i128`, and so are the magnitudes of a number that is not zero. -/
structure Fits : Prop where
  exponent : i128Min ≤ d.exponentValue ∧ d.exponentValue ≤ i128Max
  scale : d.significant ≠ [] → i128Min ≤ d.scale ∧ d.scale ≤ i128Max
  magnitude : d.significant ≠ [] → i128Min ≤ d.scale + d.significant.length ∧ d.scale + d.significant.length ≤ i128Max

def parts : Bool × List Char × ℤ :=
  if d.significant.isEmpty then (false, [], 0) else (d.sign.getD false, d.significant, d.scale + d.significant.length)

end DecimalText

/-- The text denotes the number, in magnitudes that fit. -/
def Denotes (text : List Char) (q : ℚ) : Prop := ∃ d : DecimalText, d.text = text ∧ d.Fits ∧ d.value = q

end Grammar

section Reading

theorem toI128_eq {n : ℤ} (h : i128Min ≤ n ∧ n ≤ i128Max) : toI128 n = some ⟨n, h⟩ := dif_pos h

theorem toI128_val {n : ℤ} {m : I128} (h : toI128 n = some m) : m.val = n := by
  rw [toI128] at h
  split_ifs at h
  rw [← Option.some_inj.1 h]

theorem readsDigits_iff (text : List Char) : readsDigits text = true ↔ text ≠ [] ∧ ∀ ch ∈ text, ch.isDigit = true := by
  simp [readsDigits]

/-- A digit is no blank, no sign, no point and no mark of an exponent. -/
theorem digit_plain {ch : Char} (h : ch.isDigit = true) :
    isWhitespace ch = false ∧ isExponentMark ch = false ∧ ch ≠ '-' ∧ ch ≠ '+' ∧ ch ≠ '.' := by
  have hall : ∀ d < 10, isWhitespace (Char.ofNat (d + 48)) = false ∧ isExponentMark (Char.ofNat (d + 48)) = false ∧
      Char.ofNat (d + 48) ≠ '-' ∧ Char.ofNat (d + 48) ≠ '+' ∧ Char.ofNat (d + 48) ≠ '.' := by
    decide
  have hch : Char.ofNat (digitValue ch + 48) = ch := by
    rw [digitValue, Nat.sub_add_cancel (toNat_of_isDigit h).1, Char.ofNat_toNat]
  rw [← hch]
  exact hall _ (digitValue_lt h)

theorem splitSign_signText {sign : Option Bool} {rest : List Char} (h : ∀ ch ∈ rest.head?, ch ≠ '-' ∧ ch ≠ '+') :
    splitSign (signText sign ++ rest) = (sign.getD false, rest) := by
  match sign with
  | some true => rfl
  | some false => rfl
  | none =>
    cases rest with
    | nil => rfl
    | cons ch rest =>
      obtain ⟨hminus, hplus⟩ := h ch rfl
      rw [signText, List.nil_append, splitSign]
      · rfl
      · exact fun _ heq => hminus (List.cons.inj heq).1
      · exact fun _ heq => hplus (List.cons.inj heq).1

theorem splitSign_split (text : List Char) : ∃ sign, text = signText sign ++ (splitSign text).2 ∧ (splitSign text).1 = sign.getD false := by
  unfold splitSign
  split
  · exact ⟨some true, rfl, rfl⟩
  · exact ⟨some false, rfl, rfl⟩
  · exact ⟨none, rfl, rfl⟩

theorem head_digits {digits : List Char} (h : readsDigits digits = true) : ∀ ch ∈ digits.head?, ch ≠ '-' ∧ ch ≠ '+' := by
  intro ch hch
  have hplain := digit_plain (((readsDigits_iff digits).1 h).2 ch (List.mem_of_mem_head? hch))
  exact ⟨hplain.2.2.1, hplain.2.2.2.1⟩

theorem parseInteger_text {sign : Option Bool} {digits : List Char} (h : readsDigits digits = true) :
    parseInteger (signText sign ++ digits) = some (signed sign (digitsValue digits)) := by
  rw [parseInteger, splitSign_signText (head_digits h)]
  exact if_pos h

theorem parseInteger_some {text : List Char} {n : ℤ} (h : parseInteger text = some n) :
    ∃ sign digits, text = signText sign ++ digits ∧ readsDigits digits = true ∧ n = signed sign (digitsValue digits) := by
  obtain ⟨sign, htext, hsign⟩ := splitSign_split text
  rw [parseInteger] at h
  simp only [Option.ite_none_right_eq_some, Option.some_inj] at h
  refine ⟨sign, (splitSign text).2, htext, h.1, ?_⟩
  rw [← h.2, hsign, signed]

theorem mantissaDigits_digits {digits : List Char} (h : ∀ ch ∈ digits, ch.isDigit = true) (dot : Bool) :
    mantissaDigits dot digits = some (digits, if dot then digits.length else 0) := by
  induction digits with
  | nil => cases dot <;> rfl
  | cons ch digits ih =>
    rw [List.forall_mem_cons] at h
    rw [mantissaDigits, if_neg (fun hpoint => (digit_plain h.1).2.2.2.2 hpoint.1), if_pos h.1, ih h.2]
    cases dot <;> rfl

theorem mantissaDigits_text {whole fraction : List Char} (hwhole : ∀ ch ∈ whole, ch.isDigit = true)
    (hfraction : ∀ ch ∈ fraction, ch.isDigit = true) :
    mantissaDigits false (whole ++ '.' :: fraction) = some (whole ++ fraction, fraction.length) := by
  induction whole with
  | nil =>
    rw [List.nil_append, mantissaDigits, if_pos ⟨rfl, rfl⟩, mantissaDigits_digits hfraction]
    rfl
  | cons ch whole ih =>
    rw [List.forall_mem_cons] at hwhole
    rw [List.cons_append, mantissaDigits, if_neg (fun hpoint => (digit_plain hwhole.1).2.2.2.2 hpoint.1), if_pos hwhole.1,
      ih hwhole.2]
    rfl

/-- Behind the point only digits are read. -/
theorem mantissaDigits_true {text digits : List Char} {n : ℕ} (h : mantissaDigits true text = some (digits, n)) :
    digits = text ∧ n = text.length ∧ ∀ ch ∈ text, ch.isDigit = true := by
  induction text generalizing digits n with
  | nil =>
    cases h
    exact ⟨rfl, rfl, fun ch hch => absurd hch List.not_mem_nil⟩
  | cons ch text ih =>
    rw [mantissaDigits, if_neg (fun hpoint => Bool.noConfusion hpoint.2)] at h
    by_cases hdigit : ch.isDigit = true
    · rw [if_pos hdigit] at h
      obtain ⟨⟨rest, m⟩, hrest, heq⟩ := Option.map_eq_some_iff.1 h
      obtain ⟨rfl, rfl, hall⟩ := ih hrest
      cases heq
      exact ⟨rfl, rfl, List.forall_mem_cons.2 ⟨hdigit, hall⟩⟩
    · rw [if_neg hdigit] at h
      cases h

theorem mantissaDigits_some {text digits : List Char} {n : ℕ} (h : mantissaDigits false text = some (digits, n)) :
    ∃ whole fraction, ∃ point : Bool, text = whole ++ (if point then '.' :: fraction else []) ∧ digits = whole ++ fraction ∧
      n = fraction.length ∧ (point = false → fraction = []) ∧ ∀ ch ∈ whole ++ fraction, ch.isDigit = true := by
  induction text generalizing digits n with
  | nil =>
    cases h
    exact ⟨[], [], false, rfl, rfl, rfl, fun _ => rfl, fun ch hch => absurd hch List.not_mem_nil⟩
  | cons ch text ih =>
    rw [mantissaDigits] at h
    by_cases hpoint : ch = '.' ∧ false = false
    · rw [if_pos hpoint] at h
      obtain ⟨rfl, rfl, hall⟩ := mantissaDigits_true h
      obtain ⟨rfl, -⟩ := hpoint
      exact ⟨[], digits, true, rfl, rfl, rfl, Bool.noConfusion, hall⟩
    · by_cases hdigit : ch.isDigit = true
      · rw [if_neg hpoint, if_pos hdigit] at h
        obtain ⟨⟨rest, m⟩, hrest, heq⟩ := Option.map_eq_some_iff.1 h
        obtain ⟨whole, fraction, point, rfl, rfl, rfl, hpointed, hall⟩ := ih hrest
        cases heq
        exact ⟨ch :: whole, fraction, point, rfl, rfl, rfl, hpointed, List.forall_mem_cons.2 ⟨hdigit, hall⟩⟩
      · rw [if_neg hpoint, if_neg hdigit] at h
        cases h

/-- One piece is a text without marks; two are what stands before and after the only one. -/
theorem splitOnP_single {p : Char → Bool} {text piece : List Char} (h : text.splitOnP p = [piece]) : text = piece := by
  by_cases hall : ∀ ch ∈ text, p ch = false
  · rw [List.splitOnP_eq_singleton hall] at h
    exact (List.cons.inj h).1
  · obtain ⟨ch, hch, hp⟩ : ∃ ch ∈ text, p ch = true := by simpa using hall
    obtain ⟨before, after, rfl⟩ := List.append_of_mem hch
    rw [List.splitOnP_append_cons before after hp] at h
    have hlength := congrArg List.length h
    have hbefore := List.length_pos_of_ne_nil (List.splitOnP_ne_nil p before)
    have hafter := List.length_pos_of_ne_nil (List.splitOnP_ne_nil p after)
    rw [List.length_append, List.length_singleton] at hlength
    omega

theorem splitOnP_two {p : Char → Bool} {text piece piece' : List Char} (h : text.splitOnP p = [piece, piece']) :
    ∃ mark, p mark = true ∧ text = piece ++ mark :: piece' := by
  by_cases hall : ∀ ch ∈ text, p ch = false
  · rw [List.splitOnP_eq_singleton hall] at h
    cases (List.cons.inj h).2
  · obtain ⟨ch, hch, hp⟩ : ∃ ch ∈ text, p ch = true := by simpa using hall
    obtain ⟨before, after, rfl⟩ := List.append_of_mem hch
    rw [List.splitOnP_append_cons before after hp] at h
    have hbefore := List.length_pos_of_ne_nil (List.splitOnP_ne_nil p before)
    have hafter := List.length_pos_of_ne_nil (List.splitOnP_ne_nil p after)
    obtain ⟨first, hfirst⟩ : ∃ first, before.splitOnP p = [first] := List.length_eq_one_iff.1 (by
      have hlength := congrArg List.length h
      rw [List.length_append] at hlength
      simp only [List.length_cons, List.length_nil] at hlength
      omega)
    rw [hfirst, List.singleton_append, List.cons.injEq] at h
    exact ⟨ch, hp, by rw [splitOnP_single hfirst, h.1, splitOnP_single h.2]⟩

end Reading

section Parsing

namespace DecimalText

variable (d : DecimalText)

theorem all_digits : ∀ ch ∈ d.whole ++ d.fraction, ch.isDigit = true := ((readsDigits_iff _).1 d.digits_are).2

theorem all_whole : ∀ ch ∈ d.whole, ch.isDigit = true := fun ch hch => d.all_digits ch (List.mem_append_left _ hch)

theorem all_fraction : ∀ ch ∈ d.fraction, ch.isDigit = true := fun ch hch => d.all_digits ch (List.mem_append_right _ hch)

theorem mantissa_chars : ∀ ch ∈ d.mantissa, ch.isDigit = true ∨ ch = '.' := by
  intro ch hch
  rw [mantissa, List.mem_append] at hch
  rcases hch with hch | hch
  · exact .inl (d.all_whole ch hch)
  · split at hch
    · rcases List.mem_cons.1 hch with rfl | hch
      · exact .inr rfl
      · exact .inl (d.all_fraction ch hch)
    · cases hch

theorem mantissa_ne_nil : d.mantissa ≠ [] := by
  have hne := ((readsDigits_iff _).1 d.digits_are).1
  rw [mantissa]
  cases hpoint : d.point with
  | false =>
    rw [d.pointed hpoint, List.append_nil] at hne
    exact List.append_ne_nil_of_left_ne_nil hne _
  | true => exact List.append_ne_nil_of_right_ne_nil _ (List.cons_ne_nil _ _)

theorem mantissa_unmarked : ∀ ch ∈ d.mantissa, isExponentMark ch = false := by
  intro ch hch
  rcases d.mantissa_chars ch hch with hdigit | rfl
  · exact (digit_plain hdigit).2.1
  · rfl

theorem mantissaDigits_mantissa : mantissaDigits false d.mantissa = some (d.whole ++ d.fraction, d.fraction.length) := by
  rw [mantissa]
  cases hpoint : d.point with
  | false =>
    rw [d.pointed hpoint, if_neg Bool.false_ne_true, mantissaDigits_digits (by simpa using d.all_whole)]
    simp
  | true => exact mantissaDigits_text d.all_whole d.all_fraction

/-- The mantissa and the exponent as the marks cut them. -/
theorem splitOnP_number : (d.mantissa ++ d.exponentText).splitOnP isExponentMark =
    d.mantissa :: (d.exponent.elim [] fun e => [signText e.sign ++ e.digits]) := by
  rw [exponentText]
  cases d.exponent with
  | none => rw [Option.elim_none, List.append_nil, List.splitOnP_eq_singleton d.mantissa_unmarked]; rfl
  | some e =>
    have hunmarked : ∀ ch ∈ signText e.sign ++ e.digits, isExponentMark ch = false := by
      intro ch hch
      rcases List.mem_append.1 hch with hch | hch
      · match hsign : e.sign with
        | none => rw [hsign] at hch; cases hch
        | some true => rw [hsign] at hch; rw [List.mem_singleton.1 hch]; rfl
        | some false => rw [hsign] at hch; rw [List.mem_singleton.1 hch]; rfl
      · exact (digit_plain (((readsDigits_iff _).1 e.digits_are).2 ch hch)).2.1
    rw [Option.elim_some, List.splitOnP_append_cons_of_forall_mem d.mantissa_unmarked _ e.mark_is,
      List.splitOnP_eq_singleton hunmarked]
    rfl

theorem number_plain : ∀ ch ∈ signText d.sign ++ (d.mantissa ++ d.exponentText), isWhitespace ch = false := by
  have hsign : ∀ sign, ∀ ch ∈ signText sign, isWhitespace ch = false
    | none, _, hch => absurd hch List.not_mem_nil
    | some true, _, hch => by rw [List.mem_singleton.1 hch]; rfl
    | some false, _, hch => by rw [List.mem_singleton.1 hch]; rfl
  have hmark : ∀ ch, isExponentMark ch = true → isWhitespace ch = false := by
    intro ch hch
    rw [isExponentMark, Bool.or_eq_true, beq_iff_eq, beq_iff_eq] at hch
    rcases hch with rfl | rfl <;> decide
  intro ch hch
  rw [List.mem_append, List.mem_append] at hch
  rcases hch with hch | hch | hch
  · exact hsign _ ch hch
  · rcases d.mantissa_chars ch hch with hdigit | rfl
    · exact (digit_plain hdigit).1
    · decide
  · rw [exponentText] at hch
    cases hexponent : d.exponent with
    | none => rw [hexponent] at hch; cases hch
    | some e =>
      rw [hexponent, Option.elim_some, List.mem_cons, List.mem_append] at hch
      rcases hch with rfl | hch | hch
      · exact hmark _ e.mark_is
      · exact hsign _ ch hch
      · exact (digit_plain (((readsDigits_iff _).1 e.digits_are).2 ch hch)).1

theorem trim_text : trim d.text = signText d.sign ++ (d.mantissa ++ d.exponentText) := by
  refine trim_blanks d.blanks ?_ (fun ch hch => d.number_plain ch (List.mem_of_mem_head? hch))
    fun ch hch => d.number_plain ch (List.mem_of_mem_getLast? hch)
  exact List.append_ne_nil_of_right_ne_nil _ (List.append_ne_nil_of_left_ne_nil d.mantissa_ne_nil _)

theorem head_mantissa : ∀ ch ∈ (d.mantissa ++ d.exponentText).head?, ch ≠ '-' ∧ ch ≠ '+' := by
  intro ch hch
  rw [List.head?_append_of_ne_nil _ d.mantissa_ne_nil] at hch
  rcases d.mantissa_chars ch (List.mem_of_mem_head? hch) with hdigit | rfl
  · exact ⟨(digit_plain hdigit).2.2.1, (digit_plain hdigit).2.2.2.1⟩
  · decide

theorem splitExponent_number (h : i128Min ≤ d.exponentValue ∧ d.exponentValue ≤ i128Max) :
    splitExponent (fun exponent => (parseI128 exponent).map MachineInt.val) (d.mantissa ++ d.exponentText) =
      some (d.mantissa, d.exponentValue) := by
  rw [splitExponent, splitOnP_number]
  rw [exponentValue] at h ⊢
  cases hexponent : d.exponent with
  | none => rfl
  | some e =>
    rw [hexponent, Option.elim_some] at h
    simp only [Option.elim_some, parseI128, parseInteger_text e.digits_are, Option.bind_some, toI128_eq h]
    rfl

theorem decimalParts_text (h : d.Fits) : decimalParts d.text = some d.parts := by
  have hne : (d.whole ++ d.fraction).isEmpty = false := by
    have hne := ((readsDigits_iff _).1 d.digits_are).1
    rwa [List.isEmpty_eq_false_iff]
  rw [decimalParts, trim_text, splitSign_signText d.head_mantissa]
  simp only [splitExponent_number d h.exponent, Option.bind_eq_bind, Option.bind_some, mantissaDigits_mantissa, hne,
    Bool.false_eq_true, if_false]
  rw [parts]
  cases hzero : d.significant.isEmpty with
  | true => exact if_pos hzero
  | false =>
    have hsignificant : d.significant ≠ [] := List.isEmpty_eq_false_iff.1 hzero
    rw [if_neg (by rw [Bool.not_eq_true]; exact hzero), if_neg Bool.false_ne_true]
    have hscale : toI128 (d.exponentValue - d.fraction.length) = some ⟨d.scale, _⟩ := toI128_eq (h.scale hsignificant)
    have hmagnitude := toI128_eq (h.magnitude hsignificant)
    rw [hscale, Option.bind_some]
    exact congrArg (fun o : Option I128 => o.bind fun m => some (d.sign.getD false, d.significant, m.val)) hmagnitude

end DecimalText

theorem splitExponent_some {read : List Char → Option ℤ} {text mantissa : List Char} {n : ℤ}
    (h : splitExponent read text = some (mantissa, n)) :
    text = mantissa ∧ n = 0 ∨ ∃ mark exponent, isExponentMark mark = true ∧ text = mantissa ++ mark :: exponent ∧ read exponent = some n := by
  rw [splitExponent] at h
  split at h
  · next piece hpieces =>
    cases h
    exact .inl ⟨splitOnP_single hpieces, rfl⟩
  · next piece exponent hpieces =>
    obtain ⟨m, hread, heq⟩ := Option.map_eq_some_iff.1 h
    cases heq
    obtain ⟨mark, hmark, htext⟩ := splitOnP_two hpieces
    exact .inr ⟨mark, exponent, hmark, htext, hread⟩
  · cases h

/-- The exponent that was read, written out. -/
theorem exists_exponent {text mantissa : List Char} {n : ℤ}
    (h : splitExponent (fun exponent => (parseI128 exponent).map MachineInt.val) text = some (mantissa, n)) :
    ∃ exponent : Option Exponent, text = mantissa ++ (exponent.elim [] fun e => e.mark :: (signText e.sign ++ e.digits)) ∧
      n = (exponent.elim 0 fun e => signed e.sign (digitsValue e.digits)) ∧ i128Min ≤ n ∧ n ≤ i128Max := by
  rcases splitExponent_some h with ⟨htext, rfl⟩ | ⟨mark, exponent, hmark, htext, hread⟩
  · exact ⟨none, by rw [htext]; exact (List.append_nil _).symm, rfl, by decide⟩
  · obtain ⟨m, hm, rfl⟩ := Option.map_eq_some_iff.1 hread
    obtain ⟨k, hk, hval⟩ := Option.bind_eq_some_iff.1 hm
    obtain ⟨sign, digits, rfl, hdigits, rfl⟩ := parseInteger_some hk
    exact ⟨some ⟨mark, sign, digits, hmark, hdigits⟩, htext, toI128_val hval, m.within⟩

/-- Only decimal texts that fit are read. -/
theorem decimalParts_some {text : List Char} {parts : Bool × List Char × ℤ} (h : decimalParts text = some parts) :
    ∃ d : DecimalText, d.text = text ∧ d.Fits := by
  obtain ⟨front, back, hblanks, htext⟩ := trim_split text
  obtain ⟨sign, hsign, -⟩ := splitSign_split (trim text)
  rw [decimalParts] at h
  simp only [Option.bind_eq_bind, Option.bind_eq_some_iff, Option.ite_none_left_eq_some] at h
  obtain ⟨⟨mantissa, n⟩, hsplit, ⟨digits, fractional⟩, hmantissa, hne, hrest⟩ := h
  obtain ⟨exponent, hexponent, rfl, hrange⟩ := exists_exponent hsplit
  obtain ⟨whole, fraction, point, rfl, rfl, rfl, hpointed, hdigits⟩ := mantissaDigits_some hmantissa
  have hreads : readsDigits (whole ++ fraction) = true := (readsDigits_iff _).2 ⟨by simpa using hne, hdigits⟩
  let d : DecimalText := ⟨front, sign, whole, point, fraction, exponent, back, hblanks, hreads, hpointed⟩
  have hfits : d.significant ≠ [] → ∃ scaled magnitude : I128, toI128 d.scale = some scaled ∧
      toI128 (scaled.val + d.significant.length) = some magnitude := by
    intro hsignificant
    rw [if_neg (by rw [List.isEmpty_iff]; exact hsignificant)] at hrest
    obtain ⟨scaled, hscaled, hrest⟩ := Option.bind_eq_some_iff.1 hrest
    obtain ⟨magnitude, hmagnitude, -⟩ := Option.bind_eq_some_iff.1 hrest
    exact ⟨scaled, magnitude, hscaled, hmagnitude⟩
  refine ⟨d, ?_, hrange, fun hsignificant => ?_, fun hsignificant => ?_⟩
  · rw [htext, hsign, hexponent]
    rfl
  · obtain ⟨scaled, magnitude, hscaled, hmagnitude⟩ := hfits hsignificant
    rw [← toI128_val hscaled]
    exact scaled.within
  · obtain ⟨scaled, magnitude, hscaled, hmagnitude⟩ := hfits hsignificant
    rw [← toI128_val hscaled, ← toI128_val hmagnitude]
    exact magnitude.within

namespace DecimalText

variable (d : DecimalText)

theorem normal_parts : Normal d.parts := by
  rw [parts]
  cases hzero : d.significant.isEmpty with
  | true => exact ⟨fun ch hch => absurd hch List.not_mem_nil, by simp, fun _ => rfl⟩
  | false =>
    refine ⟨fun ch hch => d.all_digits ch ((List.dropWhile_sublist _).mem hch), fun hhead => ?_, fun hnil => ?_⟩
    · have hnot := List.head?_dropWhile_not (· == '0') (d.whole ++ d.fraction)
      rw [if_neg Bool.false_ne_true, significant] at hhead
      rw [hhead] at hnot
      simp at hnot
    · rw [if_neg Bool.false_ne_true] at hnil
      exact absurd hnil (List.isEmpty_eq_false_iff.1 hzero)

theorem digitsValue_significant : digitsValue d.significant = digitsValue (d.whole ++ d.fraction) := digitsValue_dropWhile _

theorem partsValue_parts : partsValue d.parts = d.value := by
  rw [parts, partsValue, value, ← digitsValue_significant]
  cases hzero : d.significant.isEmpty with
  | true =>
    rw [List.isEmpty_iff.1 hzero]
    simp
  | false =>
    rw [if_neg Bool.false_ne_true, digitsFraction, zpow_add₀ (by norm_num), zpow_natCast]
    congr 1
    field_simp

end DecimalText

theorem decimalParts_of_denotes {text : List Char} {q : ℚ} (h : Denotes text q) :
    ∃ parts, decimalParts text = some parts ∧ Normal parts ∧ partsValue parts = q := by
  obtain ⟨d, rfl, hfits, rfl⟩ := h
  exact ⟨d.parts, d.decimalParts_text hfits, d.normal_parts, d.partsValue_parts⟩

theorem decimalParts_none {text : List Char} (h : ¬∃ q, Denotes text q) : decimalParts text = none := by
  rw [Option.eq_none_iff_forall_ne_some]
  intro parts hparts
  obtain ⟨d, htext, hfits⟩ := decimalParts_some hparts
  exact h ⟨d.value, d, htext, hfits, rfl⟩

theorem denotes_unique {text : List Char} {p q : ℚ} (hp : Denotes text p) (hq : Denotes text q) : p = q := by
  obtain ⟨parts, hparts, -, rfl⟩ := decimalParts_of_denotes hp
  obtain ⟨parts', hparts', -, rfl⟩ := decimalParts_of_denotes hq
  rw [hparts] at hparts'
  rw [Option.some_inj.1 hparts']

/-- Two readable texts are ordered as the numbers they denote. -/
theorem compareDecimalText_denotes {left right : List Char} {p q : ℚ} (hp : Denotes left p) (hq : Denotes right q) :
    compareDecimalText left right = some (cmp p q) := by
  obtain ⟨l, hl, hnormal, rfl⟩ := decimalParts_of_denotes hp
  obtain ⟨r, hr, hnormal', rfl⟩ := decimalParts_of_denotes hq
  rw [compareDecimalText_eq, hl, hr, Option.bind_some, Option.map_some, compareParts_eq hnormal hnormal']

theorem compareDecimalText_none {left right : List Char} (h : (¬∃ p, Denotes left p) ∨ ¬∃ q, Denotes right q) :
    compareDecimalText left right = none := by
  rw [compareDecimalText_eq]
  rcases h with h | h
  · rw [decimalParts_none h, Option.bind_none]
  · rw [decimalParts_none h]
    cases decimalParts left <;> rfl

end Parsing

section Integers

theorem ten_pow_le {digits : List Char} (hdigits : ∀ ch ∈ digits, ch.isDigit = true) (hne : digits ≠ [])
    (hhead : digits.head? ≠ some '0') : 10 ^ digits.length ≤ 10 * digitsValue digits := by
  obtain ⟨ch, rest, rfl⟩ := List.exists_cons_of_ne_nil hne
  have htenth := (digitsFraction_bounds hdigits hhead).1
  have hpos : (0 : ℚ) < 10 ^ (ch :: rest).length := by positivity
  rw [digitsFraction, div_le_div_iff₀ (by norm_num) hpos, one_mul, mul_comm] at htenth
  exact_mod_cast htenth

/-- An `i128` has few digits behind its leading zeros. -/
theorem length_significant {digits : List Char} (hdigits : ∀ ch ∈ digits, ch.isDigit = true) (hne : digits ≠ [])
    (hhead : digits.head? ≠ some '0') (hsize : digitsValue digits ≤ 2 ^ 127) : digits.length < 131 := by
  have hpow : 2 ^ digits.length < 2 ^ 131 :=
    calc 2 ^ digits.length ≤ 10 ^ digits.length := Nat.pow_le_pow_left (by decide) _
      _ ≤ 10 * digitsValue digits := ten_pow_le hdigits hne hhead
      _ < 2 ^ 131 := by omega
  exact (Nat.pow_lt_pow_iff_right (by decide)).1 hpow

/-- An integer's own spelling is a decimal text too. -/
theorem denotes_integer {text : List Char} {n : I128} (h : parseI128 text = some n) : Denotes text n.val := by
  obtain ⟨k, hk, hval⟩ := Option.bind_eq_some_iff.1 h
  obtain ⟨sign, digits, rfl, hdigits, rfl⟩ := parseInteger_some hk
  let d : DecimalText := ⟨[], sign, digits, false, [], none, [], fun ch hch => absurd hch List.not_mem_nil,
    by rwa [List.append_nil], fun _ => rfl⟩
  have hsize : digitsValue digits ≤ 2 ^ 127 := by
    have hwithin := n.within
    rw [toI128_val hval, signed, i128Min, i128Max] at hwithin
    have hint : (digitsValue digits : ℤ) ≤ 2 ^ 127 := by
      split_ifs at hwithin <;> omega
    exact_mod_cast hint
  have hsignificant : d.significant ≠ [] → d.significant.length < 131 := by
    intro hne
    have hnormal := d.normal_parts
    rw [DecimalText.parts, if_neg (by rwa [List.isEmpty_iff])] at hnormal
    refine length_significant hnormal.digits hne hnormal.leading ?_
    rw [d.digitsValue_significant]
    simpa [d] using hsize
  have hscale : d.scale = 0 := rfl
  refine ⟨d, ?_, ⟨(by decide : i128Min ≤ 0 ∧ 0 ≤ i128Max), fun _ => by rw [hscale]; decide, fun hne => ?_⟩, ?_⟩
  · simp [d, DecimalText.text, DecimalText.mantissa, DecimalText.exponentText]
  · have hlength := hsignificant hne
    rw [hscale, i128Min, i128Max]
    omega
  · have hdigits : d.whole ++ d.fraction = digits := List.append_nil digits
    rw [DecimalText.value, hscale, hdigits, toI128_val hval, signed, zpow_zero, mul_one]
    split_ifs <;> push_cast <;> ring

theorem readsDigits_decimal (n : ℕ) : readsDigits (decimal n) = true :=
  (readsDigits_iff _).2 ⟨Nat.toDigits_ne_nil, isDigit_toDigits n⟩

theorem parseInteger_signedDecimal (n : ℤ) : parseInteger (signedDecimal n) = some n := by
  rw [signedDecimal]
  split_ifs with hneg
  · rw [← List.singleton_append, ← signText.eq_2, parseInteger_text (readsDigits_decimal _), decimal, digitsValue_toDigits]
    exact congrArg some (by rw [signed, Option.getD_some, if_pos rfl]; omega)
  · rw [← List.nil_append (decimal _), ← signText.eq_1, parseInteger_text (readsDigits_decimal _), decimal,
      digitsValue_toDigits]
    exact congrArg some (by rw [signed, Option.getD_none, if_neg Bool.false_ne_true]; omega)

theorem parseI128_signedDecimal (n : I128) : parseI128 (signedDecimal n.val) = some n := by
  rw [parseI128, parseInteger_signedDecimal]
  exact toI128_eq n.within

end Integers

section Rules

/-- Whether a number lies outside a bound. -/
def Outside (q p : ℚ) (below : Bool) : Prop := if below then q < p else p < q

theorem decimalTextOutside_iff {valueText text : List Char} {q p : ℚ} (hq : Denotes valueText q) (hp : Denotes text p)
    (below : Bool) : decimalTextOutside valueText text below = true ↔ Outside q p below := by
  rw [decimalTextOutside, compareDecimalText_denotes hq hp, Outside]
  cases below with
  | true => exact decide_eq_true_iff.trans (cmp_eq_lt_iff q p)
  | false => exact decide_eq_true_iff.trans (cmp_eq_gt_iff q p)

theorem decimalTextOutside_unreadable {valueText text : List Char} (h : ¬∃ p, Denotes text p) (below : Bool) :
    decimalTextOutside valueText text below = true := by
  rw [decimalTextOutside, compareDecimalText_none (.inr h)]

variable (x : Crates) {T : Type} [ValidatableValue T]

/-- The check of one bound is exact for the value, which is the number `q`. -/
structure ChecksExactly (value : T) (q : ℚ) : Prop where
  readable : ∀ text p below, Denotes text p → (outsideExact x value text below = true ↔ Outside q p below)
  unreadable : ∀ text below, (¬∃ p, Denotes text p) → outsideExact x value text below = true

variable {x}

theorem checksExactly_integer {value : T} {n : I128} (h : asI128Value value = some n) : ChecksExactly x value n.val := by
  have hvalue : Denotes (signedDecimal n.val) n.val := denotes_integer (parseI128_signedDecimal n)
  refine ⟨fun text p below hp => ?_, fun text below hunreadable => ?_⟩
  · rw [outsideExact, h]
    cases hbound : parseI128 text with
    | none => exact decimalTextOutside_iff hvalue hp below
    | some bound =>
      rw [denotes_unique hp (denotes_integer hbound), Outside]
      cases below with
      | true => simp
      | false => simp
  · rw [outsideExact, h]
    cases hbound : parseI128 text with
    | none => exact decimalTextOutside_unreadable hunreadable below
    | some bound => exact absurd ⟨_, denotes_integer hbound⟩ hunreadable

/-- What `rust_decimal` promises of one value: its text denotes it, and a value without a
fraction is an integer. -/
structure ExactDecimal (x : Crates) (d : RustDecimal) : Prop where
  text : Denotes (x.decimalText d) d.value
  whole : x.decimalIsWhole d = true → ∃ n, x.decimalI128 d = some n ∧ (n.val : ℚ) = d.value

theorem checksExactly_decimal {d : RustDecimal} (h : ExactDecimal x d) : ChecksExactly (T := x.Decimal) x d d.value := by
  by_cases hwhole : x.decimalIsWhole d = true
  · obtain ⟨n, hn, hvalue⟩ := h.whole hwhole
    rw [← hvalue]
    exact checksExactly_integer ((if_pos hwhole).trans hn)
  · have hnone : asI128Value (T := x.Decimal) d = none := if_neg hwhole
    have hroute : ∀ text below, outsideExact (T := x.Decimal) x d text below = decimalTextOutside (x.decimalText d) text below := by
      intro text below
      unfold outsideExact
      simp only [hnone]
      rfl
    refine ⟨fun text p below hp => ?_, fun text below hunreadable => ?_⟩
    · rw [hroute]
      exact decimalTextOutside_iff h.text hp below
    · rw [hroute]
      exact decimalTextOutside_unreadable hunreadable below

variable (u : CharTables) (x)

/-- The exact rules reject the value, which is the number `q`, where it lies strictly outside a
bound, and where the bound cannot be read. -/
structure BoundsExact (value : T) (q : ℚ) : Prop where
  minExact : ∀ text p field, Denotes text p → (validateRule u x value (.minExact text) field ≠ none ↔ q < p)
  maxExact : ∀ text p field, Denotes text p → (validateRule u x value (.maxExact text) field ≠ none ↔ p < q)
  rangeExact : ∀ low high p r field, Denotes low p → Denotes high r →
    (validateRule u x value (.rangeExact low high) field ≠ none ↔ q < p ∨ r < q)
  minExact_unreadable : ∀ text field, (¬∃ p, Denotes text p) → validateRule u x value (.minExact text) field ≠ none
  maxExact_unreadable : ∀ text field, (¬∃ p, Denotes text p) → validateRule u x value (.maxExact text) field ≠ none
  rangeExact_unreadable : ∀ low high field, (¬∃ p, Denotes low p) ∨ (¬∃ p, Denotes high p) →
    validateRule u x value (.rangeExact low high) field ≠ none

variable {u x}

theorem boundsExact_of_checks {value : T} {q : ℚ} (h : ChecksExactly x value q) : BoundsExact x u value q := by
  have hrejects : ∀ (fails : Bool) (message : List Char), (if fails = true then some message else none) ≠ none ↔ fails = true := by
    intro fails message
    cases fails <;> simp
  refine ⟨fun text p field hp => ?_, fun text p field hp => ?_, fun low high p r field hp hr => ?_, fun text field htext => ?_,
    fun text field htext => ?_, fun low high field htext => ?_⟩
  · exact (hrejects _ _).trans (h.readable text p true hp)
  · exact (hrejects _ _).trans (h.readable text p false hp)
  · refine (hrejects _ _).trans ?_
    rw [Bool.or_eq_true, h.readable low p true hp, h.readable high r false hr]
    rfl
  · exact (hrejects _ _).2 (h.unreadable text true htext)
  · exact (hrejects _ _).2 (h.unreadable text false htext)
  · refine (hrejects _ _).2 ?_
    rw [Bool.or_eq_true]
    exact htext.imp (h.unreadable low true) (h.unreadable high false)

theorem inf_unreadable : ¬∃ p, Denotes "inf".toList p := by
  rintro ⟨p, hp⟩
  obtain ⟨parts, hparts, -⟩ := decimalParts_of_denotes hp
  have hnone : decimalParts "inf".toList = none := by decide
  rw [hnone] at hparts
  cases hparts

/-- An integer that is no `i128` is compared as an `f64`, and so is its bound. -/
theorem outsideExact_large {low high : ℤ} {n : MachineInt low high} (h : ¬(i128Min ≤ n.val ∧ n.val ≤ i128Max))
    (text : List Char) (below : Bool) : outsideExact x n text below = (parseF64 text).elim true fun bound =>
      if below then BinaryFloat.lt (.round binary64 n.val) bound || BinaryFloat.isNan (.round binary64 n.val)
      else bound.lt (.round binary64 n.val) || BinaryFloat.isNan (.round binary64 n.val) := by
  have hnone : asI128Value n = none := dif_neg h
  have hdecimal : asDecimalValue n = none := rfl
  have hnumber : asF64Value n = some (.round binary64 n.val) := rfl
  have hbound : ∀ bound, numericBound n bound = bound := fun bound => rfl
  rw [outsideExact, hnone]
  simp only [hdecimal]
  cases parseF64 text with
  | none => rfl
  | some bound => cases below <;> simp [belowBound, aboveBound, hnone, hdecimal, hnumber, hbound, Bool.or_comm]

theorem round_not_nan (f : BinaryFormat) (q : ℚ) : BinaryFloat.isNan (.round f q) = false := by
  rw [BinaryFloat.round]
  split_ifs <;> rfl

theorem boundsExact_integer_iff {low high : ℤ} (n : MachineInt low high) :
    BoundsExact x u n n.val ↔ i128Min ≤ n.val ∧ n.val ≤ i128Max := by
  constructor
  · intro h
    by_contra hlarge
    refine h.maxExact_unreadable "inf".toList "n".toList inf_unreadable ?_
    have hparse : parseF64 "inf".toList = some (.infinite false) := by rfl
    have hpass : outsideExact x n "inf".toList false = false := by
      rw [outsideExact_large hlarge, hparse, Option.elim_some, if_neg Bool.false_ne_true, BinaryFloat.not_infinity_lt,
        round_not_nan]
      rfl
    rw [validateRule, hpass]
    rfl
  · intro h
    exact boundsExact_of_checks (checksExactly_integer (n := ⟨n.val, h⟩) (dif_pos h))

end Rules

/-- Exact comparison, for each way a value reaches it; of the integers, for those that are `i128`. -/
theorem decimal_bounds_exact (x : Crates) (u : CharTables) :
    (∀ left right : DecimalText, left.Fits → right.Fits →
      compareDecimalText left.text right.text = some (cmp left.value right.value)) ∧
    (∀ left right, (∀ d : DecimalText, d.text ≠ left) ∨ (∀ d : DecimalText, d.text ≠ right) →
      compareDecimalText left right = none) ∧
    (∀ d : RustDecimal, ExactDecimal x d → BoundsExact (T := x.Decimal) x u d d.value) ∧
    (∀ (T : Type) [ValidatableValue T] (value : T) (n : I128), asI128Value value = some n → BoundsExact x u value n.val) ∧
    ∀ {low high : ℤ} (n : MachineInt low high), BoundsExact x u n n.val ↔ i128Min ≤ n.val ∧ n.val ≤ i128Max := by
  refine ⟨fun left right hleft hright => ?_, fun left right h => ?_, fun d h => ?_, fun T _ value n h => ?_, fun n => ?_⟩
  · exact compareDecimalText_denotes ⟨left, rfl, hleft, rfl⟩ ⟨right, rfl, hright, rfl⟩
  · refine compareDecimalText_none (h.imp ?_ ?_)
    · exact fun hleft ⟨p, d, htext, _, _⟩ => hleft d htext
    · exact fun hright ⟨p, d, htext, _, _⟩ => hright d htext
  · exact boundsExact_of_checks (checksExactly_decimal h)
  · exact boundsExact_of_checks (checksExactly_integer h)
  · exact boundsExact_integer_iff n

/-- `1.5` as a `Decimal`, and a crate that prints it. -/
theorem decimal_bounds_exact_half : ∃ (x : Crates) (d : RustDecimal), d.value = 3 / 2 ∧ ∀ u : CharTables,
    BoundsExact (T := x.Decimal) x u d d.value ∧ BoundsExact x u (⟨7, by decide⟩ : I128) 7 ∧
      compareDecimalText (x.decimalText d) (x.decimalText d) = some (cmp (3 / 2 : ℚ) (3 / 2)) := by
  let d : RustDecimal := ⟨⟨15, 1⟩, by decide, by decide⟩
  let text : DecimalText := ⟨[], none, ['1'], true, ['5'], none, [], by simp, by decide, by decide⟩
  let x : Crates := ⟨fun _ => none, fun _ => none, fun _ => false, fun _ => "1.5".toList, fun _ => none, fun d => d.scale == 0,
    fun _ => none, fun _ => []⟩
  have htext : text.text = "1.5".toList := by decide
  have hfits : text.Fits := ⟨by decide, fun _ => by decide, fun _ => by decide⟩
  have hvalue : text.value = 3 / 2 := by decide +kernel
  have hd : d.value = 3 / 2 := by decide +kernel
  have hexact : ExactDecimal x d := ⟨⟨text, htext, hfits, hvalue.trans hd.symm⟩, fun hwhole => absurd hwhole (by decide)⟩
  refine ⟨x, d, hd, fun u => ⟨?_, ?_, ?_⟩⟩
  · exact (decimal_bounds_exact x u).2.2.1 d hexact
  · exact (decimal_bounds_exact x u).2.2.2.1 I128 ⟨7, by decide⟩ ⟨7, by decide⟩ rfl
  · have horder := (decimal_bounds_exact x u).1 text text hfits hfits
    rwa [htext, hvalue] at horder

/-- A number of `u128` past the last `i128` passes a minimum above it. -/
theorem large_passes_minimum_above :
    Denotes "170141183460469231731687303715884105729".toList (2 ^ 127 + 1) ∧ ∀ (x : Crates) (u : CharTables),
      validateRule u x (⟨2 ^ 127, by decide⟩ : MachineInt 0 (2 ^ 128 - 1)) (.minExact "170141183460469231731687303715884105729".toList)
        "n".toList = none := by
  constructor
  · exact ⟨⟨[], none, "170141183460469231731687303715884105729".toList, false, [], none, [], by simp, by decide, by decide⟩,
      by decide, ⟨by decide, fun _ => by decide, fun _ => by decide⟩, by decide +kernel⟩
  · intro x u
    have hparse : (parseF64 "170141183460469231731687303715884105729".toList).bind BinaryFloat.toRat = some (2 ^ 127) := by
      decide +kernel
    have hvalue : (BinaryFloat.round binary64 ((2 ^ 127 : ℤ) : ℚ)).toRat = some (2 ^ 127) := by decide +kernel
    obtain ⟨bound, hbound, hrat⟩ := Option.bind_eq_some_iff.1 hparse
    obtain ⟨hfinite, hbound'⟩ := BinaryFloat.eq_finite_of_toRat hrat
    obtain ⟨hfinite', hround⟩ := BinaryFloat.eq_finite_of_toRat hvalue
    have hpass : outsideExact x (⟨2 ^ 127, by decide⟩ : MachineInt 0 (2 ^ 128 - 1))
        "170141183460469231731687303715884105729".toList true = false := by
      rw [outsideExact_large (by decide), hbound, hbound', Option.elim_some, hround]
      simp [BinaryFloat.isNan]
    rw [validateRule, hpass]
    rfl

end TideOrm.ExactBounds
