import TideOrm.Spec.PostgresBinary
import TideOrm.Sanity.Placeholders

/-! The text of an interval keeps its three numbers apart: read back as an ISO 8601 duration it
gives all of them. -/

namespace TideOrm

open Lib

section Reader

/-- The number before a unit, in millionths. -/
def magnitude (text : List Char) : ℕ :=
  let fraction := (text.dropWhile (· != '.')).drop 1
  digitsValue (text.takeWhile (· != '.')) * 1000000 + digitsValue (fraction ++ List.replicate (6 - fraction.length) '0')

def amount : List Char → ℤ
  | '-' :: text => -magnitude text
  | text => magnitude text

/-- What a duration adds up to so far, and the number not followed by its unit yet. -/
structure DurationReader where
  inTime : Bool
  number : List Char
  micros : ℤ
  days : ℤ
  months : ℤ

namespace DurationReader

def step (r : DurationReader) (ch : Char) : DurationReader :=
  let whole := amount r.number / 1000000
  match r.inTime, ch with
  | false, 'T' => { r with inTime := true }
  | false, 'Y' => { r with number := [], months := r.months + 12 * whole }
  | false, 'M' => { r with number := [], months := r.months + whole }
  | false, 'D' => { r with number := [], days := r.days + whole }
  | true, 'H' => { r with number := [], micros := r.micros + 3600 * amount r.number }
  | true, 'M' => { r with number := [], micros := r.micros + 60 * amount r.number }
  | true, 'S' => { r with number := [], micros := r.micros + amount r.number }
  | _, ch => { r with number := r.number ++ [ch] }

def start : DurationReader := ⟨false, [], 0, 0, 0⟩

end DurationReader

/-- Microseconds, days and months of an ISO 8601 duration, by adding up its signed parts. -/
def readDuration : List Char → Option (ℤ × ℤ × ℤ)
  | 'P' :: text =>
    let r := text.foldl DurationReader.step .start
    some (r.micros, r.days, r.months)
  | _ => none

end Reader

attribute [local simp] DurationReader.step

section Numbers

/-- A character of a number: no unit, and no mark of the time. -/
def numeral (ch : Char) : Bool := ch.isDigit || ch == '-' || ch == '.'

theorem step_numeral (r : DurationReader) {ch : Char} (h : numeral ch = true) :
    r.step ch = { r with number := r.number ++ [ch] } := by
  have hunit : ∀ unit : Char, numeral unit = false → ch ≠ unit := by
    rintro unit hunit rfl
    rw [h] at hunit
    cases hunit
  have hT := hunit 'T' (by decide)
  have hY := hunit 'Y' (by decide)
  have hM := hunit 'M' (by decide)
  have hD := hunit 'D' (by decide)
  have hH := hunit 'H' (by decide)
  have hS := hunit 'S' (by decide)
  cases htime : r.inTime <;> simp [htime, hT, hY, hM, hD, hH, hS]

theorem foldl_numerals (text : List Char) (h : ∀ ch ∈ text, numeral ch = true) (r : DurationReader) :
    text.foldl DurationReader.step r = { r with number := r.number ++ text } := by
  induction text generalizing r with
  | nil => simp
  | cons ch text ih =>
    rw [List.forall_mem_cons] at h
    rw [List.foldl_cons, step_numeral r h.1, ih h.2]
    simp

theorem numeral_of_isDigit {ch : Char} (h : ch.isDigit = true) : numeral ch = true := by
  rw [numeral, h]
  rfl

theorem numeral_decimal (n : ℕ) : ∀ ch ∈ decimal n, numeral ch = true :=
  fun ch hch => numeral_of_isDigit (isDigit_toDigits n ch hch)

theorem isDigit_ne {ch unit : Char} (h : ch.isDigit = true) (hunit : unit.isDigit = false) : ch ≠ unit := by
  rintro rfl
  rw [h] at hunit
  cases hunit

theorem magnitude_decimal (n : ℕ) : magnitude (decimal n) = n * 1000000 := by
  have hpoint : ∀ ch ∈ decimal n, (ch != '.') = true :=
    fun ch hch => bne_iff_ne.2 (isDigit_ne (isDigit_toDigits n ch hch) rfl)
  rw [magnitude, List.takeWhile_eq_self_iff.2 hpoint, List.dropWhile_eq_nil_iff.2 hpoint, decimal, digitsValue_toDigits,
    List.drop_nil, List.nil_append, digitsValue_zeros, Nat.add_zero]

/-- The trailing zeros that a fraction lost are put back. -/
theorem fraction_padded (micros : ℕ) (h : micros < 1000000) :
    let fraction := (zeroPad 6 (decimal micros)).rdropWhile (· == '0')
    digitsValue (fraction ++ List.replicate (6 - fraction.length) '0') = micros := by
  intro fraction
  have hlen : (zeroPad 6 (decimal micros)).length = 6 := length_zeroPad_toDigits (by decide) h
  have hsplit : fraction ++ (zeroPad 6 (decimal micros)).rtakeWhile (· == '0') = zeroPad 6 (decimal micros) :=
    List.rdropWhile_append_rtakeWhile
  have hzeros : (zeroPad 6 (decimal micros)).rtakeWhile (· == '0') = List.replicate (6 - fraction.length) '0' := by
    have hsum := congrArg List.length hsplit
    rw [List.length_append, hlen] at hsum
    refine List.eq_replicate_iff.2 ⟨by omega, fun ch hch => ?_⟩
    have hzero := @List.mem_rtakeWhile_imp _ (· == '0') _ _ hch
    exact beq_iff_eq.1 hzero
  rw [← hzeros, hsplit, digitsValue_zeroPad, decimal, digitsValue_toDigits]

theorem magnitude_fraction (whole : ℕ) {micros : ℕ} (h : micros < 1000000) :
    magnitude (decimal whole ++ fractionText micros) = whole * 1000000 + micros := by
  rw [fractionText]
  split_ifs with hzero
  · rw [List.append_nil, magnitude_decimal, hzero, Nat.add_zero]
  · have hpoint : ∀ ch ∈ decimal whole, (ch != '.') = true :=
      fun ch hch => bne_iff_ne.2 (isDigit_ne (isDigit_toDigits whole ch hch) rfl)
    have htake : ∀ rest, (decimal whole ++ '.' :: rest).takeWhile (· != '.') = decimal whole := by
      intro rest
      rw [List.takeWhile_append_of_pos hpoint]
      simp
    have hdrop : ∀ rest, (decimal whole ++ '.' :: rest).dropWhile (· != '.') = '.' :: rest := by
      intro rest
      rw [List.dropWhile_append_of_pos hpoint]
      simp
    rw [magnitude, htake, hdrop, List.drop_one, List.tail_cons, fraction_padded micros h, decimal, digitsValue_toDigits]

theorem amount_neg (text : List Char) : amount ('-' :: text) = -magnitude text := by
  -- The equations of `amount` would have the unifier count out the millions.
  unfold amount
  split
  next text' htext => rw [(List.cons.inj htext).2]
  next hsign => exact absurd rfl (hsign text)

theorem amount_decimal (text : List Char) (h : text.head? ≠ some '-') : amount text = magnitude text := by
  unfold amount
  split
  · simp at h
  · with_reducible rfl

theorem decimal_head (n : ℕ) (rest : List Char) : (decimal n ++ rest).head? ≠ some '-' := by
  obtain ⟨digit, digits, hdecimal, hdigit⟩ := exists_digit n
  rw [hdecimal]
  simpa using isDigit_ne hdigit rfl

theorem amount_signedDecimal (n : ℤ) : amount (signedDecimal n) = n * 1000000 := by
  rw [signedDecimal]
  split_ifs with hneg
  · rw [amount_neg, magnitude_decimal]
    omega
  · have hhead := decimal_head n.natAbs []
    rw [List.append_nil] at hhead
    rw [amount_decimal _ hhead, magnitude_decimal]
    omega

theorem numeral_signedDecimal (n : ℤ) : ∀ ch ∈ signedDecimal n, numeral ch = true := by
  rw [signedDecimal]
  split_ifs
  · exact List.forall_mem_cons.2 ⟨rfl, numeral_decimal _⟩
  · exact numeral_decimal _

/-- A part of an interval is read at its unit. -/
theorem foldl_intervalPart (value : ℤ) (unit : Char) (r : DurationReader) (hr : r.number = []) :
    (intervalPart value unit).foldl DurationReader.step r =
      if value = 0 then r else DurationReader.step { r with number := signedDecimal value } unit := by
  rw [intervalPart]
  split_ifs
  · rfl
  · rw [List.foldl_append, foldl_numerals _ (numeral_signedDecimal value), hr]
    rfl

end Numbers

section Parts

variable {r : DurationReader}

theorem read_years (value : ℤ) (htime : r.inTime = false) (hr : r.number = []) :
    (intervalPart value 'Y').foldl DurationReader.step r = { r with months := r.months + 12 * value } := by
  rw [foldl_intervalPart value 'Y' r hr]
  split_ifs with hzero
  · simp [hzero]
  · simp [htime, amount_signedDecimal, hr]

theorem read_months (value : ℤ) (htime : r.inTime = false) (hr : r.number = []) :
    (intervalPart value 'M').foldl DurationReader.step r = { r with months := r.months + value } := by
  rw [foldl_intervalPart value 'M' r hr]
  split_ifs with hzero
  · simp [hzero]
  · simp [htime, amount_signedDecimal, hr]

theorem read_days (value : ℤ) (htime : r.inTime = false) (hr : r.number = []) :
    (intervalPart value 'D').foldl DurationReader.step r = { r with days := r.days + value } := by
  rw [foldl_intervalPart value 'D' r hr]
  split_ifs with hzero
  · simp [hzero]
  · simp [htime, amount_signedDecimal, hr]

theorem read_hours (value : ℤ) (htime : r.inTime = true) (hr : r.number = []) :
    (intervalPart value 'H').foldl DurationReader.step r = { r with micros := r.micros + 3600 * (value * 1000000) } := by
  rw [foldl_intervalPart value 'H' r hr]
  split_ifs with hzero
  · simp [hzero]
  · simp [htime, amount_signedDecimal, hr]

theorem read_minutes (value : ℤ) (htime : r.inTime = true) (hr : r.number = []) :
    (intervalPart value 'M').foldl DurationReader.step r = { r with micros := r.micros + 60 * (value * 1000000) } := by
  rw [foldl_intervalPart value 'M' r hr]
  split_ifs with hzero
  · simp [hzero]
  · simp [htime, amount_signedDecimal, hr]

theorem numeral_fractionText (micros : ℕ) : ∀ ch ∈ fractionText micros, numeral ch = true := by
  rw [fractionText]
  split_ifs
  · simp
  · refine List.forall_mem_cons.2 ⟨rfl, fun ch hch => numeral_of_isDigit ?_⟩
    exact isDigit_zeroPad (isDigit_toDigits micros) ch ((List.rdropWhile_prefix _ _).subset hch)

/-- The seconds and their fraction share one sign. -/
def secondsText (seconds fraction : ℤ) : List Char :=
  if seconds = 0 ∧ fraction = 0 then []
  else
    (if seconds < 0 ∨ fraction < 0 then ['-'] else []) ++ decimal seconds.natAbs ++ fractionText fraction.natAbs ++ ['S']

theorem read_seconds {seconds fraction : ℤ} (hfraction : fraction.natAbs < 1000000)
    (hsign : 0 ≤ seconds ∧ 0 ≤ fraction ∨ seconds ≤ 0 ∧ fraction ≤ 0) (htime : r.inTime = true) (hr : r.number = []) :
    (secondsText seconds fraction).foldl DurationReader.step r =
      { r with micros := r.micros + (seconds * 1000000 + fraction) } := by
  have hnumeral : ∀ ch ∈ decimal seconds.natAbs ++ fractionText fraction.natAbs, numeral ch = true :=
    List.forall_mem_append.2 ⟨numeral_decimal _, numeral_fractionText _⟩
  have hmagnitude := magnitude_fraction seconds.natAbs hfraction
  rw [secondsText]
  split_ifs with hzero hneg
  · simp [hzero.1, hzero.2]
  · have hamount : amount ('-' :: (decimal seconds.natAbs ++ fractionText fraction.natAbs)) =
        seconds * 1000000 + fraction := by
      rw [amount_neg, hmagnitude]
      omega
    rw [List.append_assoc ['-'], List.singleton_append, List.foldl_append,
      foldl_numerals _ (List.forall_mem_cons.2 ⟨rfl, hnumeral⟩), hr, List.nil_append]
    simp [htime, hamount]
  · have hamount : amount (decimal seconds.natAbs ++ fractionText fraction.natAbs) = seconds * 1000000 + fraction := by
      rw [amount_decimal _ (decimal_head _ _), hmagnitude]
      omega
    rw [List.nil_append, List.foldl_append, foldl_numerals _ hnumeral, hr, List.nil_append]
    simp [htime, hamount]

theorem time_sum_nat (n : ℕ) :
    3600 * (n / 3600000000 * 1000000) + 60 * (n / 60000000 % 60 * 1000000) +
      (n / 1000000 % 60 * 1000000 + n % 1000000) = n := by omega

theorem time_sum (micros : ℤ) :
    3600 * (micros.tdiv 3600000000 * 1000000) + 60 * ((micros.tdiv 60000000).tmod 60 * 1000000) +
      ((micros.tdiv 1000000).tmod 60 * 1000000 + micros.tmod 1000000) = micros := by
  have hnonneg : ∀ n : ℕ, 3600 * ((n : ℤ).tdiv 3600000000 * 1000000) + 60 * (((n : ℤ).tdiv 60000000).tmod 60 * 1000000) +
      (((n : ℤ).tdiv 1000000).tmod 60 * 1000000 + (n : ℤ).tmod 1000000) = n := by
    intro n
    have hdiv : ∀ k : ℕ, (n : ℤ).tdiv k = ((n / k : ℕ) : ℤ) := fun _ => rfl
    have hmod : ∀ m k : ℕ, (m : ℤ).tmod k = ((m % k : ℕ) : ℤ) := fun _ _ => rfl
    have hsum := time_sum_nat n
    have h1 := hdiv 3600000000
    have h2 := hdiv 60000000
    have h3 := hdiv 1000000
    have h4 := hmod (n / 60000000) 60
    have h5 := hmod (n / 1000000) 60
    have h6 := hmod n 1000000
    simp only [Nat.cast_ofNat] at h1 h2 h3 h4 h5 h6
    rw [h1, h2, h3, h4, h5, h6]
    omega
  obtain ⟨n, rfl | rfl⟩ := Int.eq_nat_or_neg micros
  · exact hnonneg n
  · have h := hnonneg n
    simp only [Int.neg_tdiv, Int.neg_tmod] at h ⊢
    omega

theorem read_time (micros : ℤ) (htime : r.inTime = false) (hr : r.number = []) :
    ((intervalTime micros).foldl DurationReader.step r).micros = r.micros + micros ∧
      ((intervalTime micros).foldl DurationReader.step r).days = r.days ∧
      ((intervalTime micros).foldl DurationReader.step r).months = r.months := by
  by_cases hzero : micros = 0
  · simp [intervalTime, hzero]
  · have hseconds : (micros.tmod 1000000).natAbs < 1000000 := by
      rw [Int.natAbs_tmod]
      exact Nat.mod_lt _ (by decide)
    have hsign : 0 ≤ (micros.tdiv 1000000).tmod 60 ∧ 0 ≤ micros.tmod 1000000 ∨
        (micros.tdiv 1000000).tmod 60 ≤ 0 ∧ micros.tmod 1000000 ≤ 0 := by
      rcases Int.le_total 0 micros with hpos | hneg
      · exact .inl ⟨Int.tmod_nonneg _ (Int.tdiv_nonneg hpos (by decide)), Int.tmod_nonneg _ hpos⟩
      · have hneg : 0 ≤ -micros := by omega
        have hwhole := Int.tmod_nonneg 60 (Int.tdiv_nonneg hneg (by decide : (0 : ℤ) ≤ 1000000))
        have hrest := Int.tmod_nonneg 1000000 hneg
        rw [Int.neg_tdiv, Int.neg_tmod] at hwhole
        rw [Int.neg_tmod] at hrest
        exact .inr ⟨by omega, by omega⟩
    have hstep : DurationReader.step r 'T' = { r with inTime := true } := by simp [htime]
    have hsum := time_sum micros
    have htext : intervalTime micros = 'T' :: intervalPart (micros.tdiv 3600000000) 'H' ++
        intervalPart ((micros.tdiv 60000000).tmod 60) 'M' ++
        secondsText ((micros.tdiv 1000000).tmod 60) (micros.tmod 1000000) := by
      rw [intervalTime, if_neg hzero]
      rfl
    have hhours := @read_hours { r with inTime := true } (micros.tdiv 3600000000) rfl hr
    have hminutes := @read_minutes { r with
      inTime := true
      micros := r.micros + 3600 * (micros.tdiv 3600000000 * 1000000) } ((micros.tdiv 60000000).tmod 60) rfl hr
    have hrest := @read_seconds { r with
      inTime := true
      micros := r.micros + 3600 * (micros.tdiv 3600000000 * 1000000) +
        60 * ((micros.tdiv 60000000).tmod 60 * 1000000) } _ _ hseconds hsign rfl hr
    simp only at hhours hminutes hrest
    rw [htext, List.foldl_append, List.foldl_append, List.foldl_cons, hstep, hhours, hminutes, hrest]
    refine ⟨?_, rfl, rfl⟩
    simp only
    omega

end Parts

section Main

/-- The binary form of an interval. -/
def intervalBytes (micros : Int64) (days months : Int32) : List UInt8 :=
  signedBeBytes 8 micros.toInt ++ signedBeBytes 4 days.toInt ++ signedBeBytes 4 months.toInt

theorem splitChunk_append {head : List UInt8} {length : ℕ} (h : head.length = length) (tail : List UInt8) :
    splitChunk length (head ++ tail) = some (head, tail) := by
  subst h
  rw [splitChunk, if_pos (by simp), List.take_left, List.drop_left]

theorem takeI32_append (n : Int32) (tail : List UInt8) :
    takeI32 (signedBeBytes 4 n.toInt ++ tail) = some (n.toInt, tail) := by
  have hlow := n.le_toInt
  have hhigh := n.toInt_lt
  rw [takeI32, splitChunk_append (length_signedBeBytes 4 _), Option.map_some]
  simp only [Option.some.injEq, Prod.mk.injEq, and_true]
  exact signedBigEndian_signedBeBytes (by omega) (by omega)

/-- The two infinite intervals. -/
def InfiniteInterval (micros : Int64) (days months : Int32) : Prop :=
  micros = Int64.maxValue ∧ days = Int32.maxValue ∧ months = Int32.maxValue ∨
    micros = Int64.minValue ∧ days = Int32.minValue ∧ months = Int32.minValue

theorem intervalText_finite {micros : Int64} {days months : Int32} (h : ¬InfiniteInterval micros days months) :
    intervalText (intervalBytes micros days months) =
      if micros.toInt = 0 ∧ days.toInt = 0 ∧ months.toInt = 0 then some "PT0S".toList
      else
        some ('P' :: intervalPart (months.toInt.tdiv 12) 'Y' ++ intervalPart (months.toInt.tmod 12) 'M' ++
          intervalPart days.toInt 'D' ++ intervalTime micros.toInt) := by
  have hlow := micros.le_toInt
  have hhigh := micros.toInt_lt
  have htake := takeI32_append months []
  rw [List.append_nil] at htake
  have hmicros : signedBigEndian (signedBeBytes 8 micros.toInt) = micros.toInt :=
    signedBigEndian_signedBeBytes (by omega) (by omega)
  rw [InfiniteInterval, not_or] at h
  have hmax : ¬(micros.toInt = 2 ^ 63 - 1 ∧ days.toInt = 2 ^ 31 - 1 ∧ months.toInt = 2 ^ 31 - 1) := by
    rintro ⟨h1, h2, h3⟩
    exact h.1 ⟨Int64.toInt_inj.1 h1, Int32.toInt_inj.1 h2, Int32.toInt_inj.1 h3⟩
  have hmin : ¬(micros.toInt = -2 ^ 63 ∧ days.toInt = -2 ^ 31 ∧ months.toInt = -2 ^ 31) := by
    rintro ⟨h1, h2, h3⟩
    exact h.2 ⟨Int64.toInt_inj.1 h1, Int32.toInt_inj.1 h2, Int32.toInt_inj.1 h3⟩
  rw [intervalBytes, List.append_assoc, intervalText, splitChunk_append (length_signedBeBytes 8 _), Option.bind_eq_bind,
    Option.bind_some]
  simp only [takeI32_append, htake, hmicros, Option.bind_eq_bind, Option.bind_some, List.isEmpty_nil, Bool.not_true,
    Bool.false_eq_true, if_false, hmax, hmin]

theorem read_intervalText {micros : Int64} {days months : Int32} (h : ¬InfiniteInterval micros days months) :
    ∃ text, intervalText (intervalBytes micros days months) = some text ∧
      readDuration text = some (micros.toInt, days.toInt, months.toInt) := by
  rw [intervalText_finite h]
  split_ifs with hzero
  · refine ⟨_, rfl, ?_⟩
    rw [hzero.1, hzero.2.1, hzero.2.2]
    decide +kernel
  · refine ⟨_, rfl, ?_⟩
    have hmonths := Int.mul_tdiv_add_tmod months.toInt 12
    have hyears := @read_years .start (months.toInt.tdiv 12) rfl rfl
    have hrest := @read_months { DurationReader.start with months := 0 + 12 * months.toInt.tdiv 12 }
      (months.toInt.tmod 12) rfl rfl
    have hdays := @read_days { DurationReader.start with
      months := 0 + 12 * months.toInt.tdiv 12 + months.toInt.tmod 12 } days.toInt rfl rfl
    obtain ⟨hmicro, hday, hmonth⟩ := @read_time { DurationReader.start with
      days := 0 + days.toInt
      months := 0 + 12 * months.toInt.tdiv 12 + months.toInt.tmod 12 } micros.toInt rfl rfl
    simp only [DurationReader.start] at hyears hrest hdays hmicro hday hmonth
    rw [List.append_assoc, List.append_assoc, List.cons_append, readDuration]
    simp only [List.foldl_append, DurationReader.start]
    rw [hyears, hrest, hdays, hmicro, hday, hmonth]
    simp only [Option.some.injEq, Prod.mk.injEq]
    omega

/-- The text of a finite interval gives its microseconds, days and months back, so no two share one. -/
theorem intervalText_exact :
    (∀ micros days months, ¬InfiniteInterval micros days months →
      ∃ text, intervalText (intervalBytes micros days months) = some text ∧
        readDuration text = some (micros.toInt, days.toInt, months.toInt)) ∧
    ∀ micros days months micros' days' months', ¬InfiniteInterval micros days months →
      ¬InfiniteInterval micros' days' months' →
      intervalText (intervalBytes micros days months) = intervalText (intervalBytes micros' days' months') →
      micros = micros' ∧ days = days' ∧ months = months' := by
  refine ⟨fun _ _ _ => read_intervalText, ?_⟩
  intro micros days months micros' days' months' h h' heq
  obtain ⟨text, htext, hread⟩ := read_intervalText h
  obtain ⟨text', htext', hread'⟩ := read_intervalText h'
  rw [htext, htext', Option.some.injEq] at heq
  rw [heq, hread', Option.some.injEq, Prod.mk.injEq, Prod.mk.injEq] at hread
  exact ⟨(Int64.toInt_inj.1 hread.1).symm, (Int32.toInt_inj.1 hread.2.1).symm, (Int32.toInt_inj.1 hread.2.2).symm⟩

/-- A fifth of a second back, and the lowest microseconds of all. -/
theorem intervalText_exact_negative :
    (∃ text, intervalText (intervalBytes (-200000) 0 14) = some text ∧ readDuration text = some (-200000, 0, 14)) ∧
    ∃ text, intervalText (intervalBytes Int64.minValue 1 (-13)) = some text ∧
      readDuration text = some (-2 ^ 63, 1, -13) :=
  ⟨intervalText_exact.1 (-200000) 0 14 (by rintro (⟨h, -⟩ | ⟨h, -⟩) <;> cases h),
    intervalText_exact.1 Int64.minValue 1 (-13) (by rintro (⟨h, -⟩ | ⟨-, h, -⟩) <;> cases h)⟩

end Main

end TideOrm
