import TideOrm.Spec.Scaling

/-! A bulk update scales an integer column exactly in SQLite, unless it divides by a factor
that a `Decimal` holds as zero. -/

namespace TideOrm

open Lib Sqlite

section Fraction

theorem gcd_eq (a b : ℕ) : gcd a b = Nat.gcd a b := by
  induction b using Nat.strong_induction_on generalizing a with
  | h b ih =>
    rw [gcd]
    split_ifs with hb
    · rw [hb, Nat.gcd_zero_right]
    · rw [ih (a % b) (Nat.mod_lt a (by omega)) b, Nat.gcd_comm, ← Nat.gcd_rec, Nat.gcd_comm]

theorem checked_eq_some {n m : ℤ} : checked n = some m ↔ n = m ∧ i64Min ≤ m ∧ m ≤ i64Max := by
  unfold checked
  split_ifs with h
  · rw [Option.some_inj]
    exact ⟨fun heq => ⟨heq, heq ▸ h⟩, fun heq => heq.1⟩
  · refine ⟨False.elim, fun heq => h ?_⟩
    exact heq.1 ▸ heq.2

theorem value_stripZeros (scale : ℕ) : ∀ mantissa : ℤ, (Decimal.stripZeros mantissa scale).value = mantissa / 10 ^ scale := by
  induction scale with
  | zero => exact fun mantissa => rfl
  | succ scale ih =>
    intro mantissa
    rw [Decimal.stripZeros]
    split_ifs with hzero
    · obtain ⟨tenth, rfl⟩ := Int.dvd_of_emod_eq_zero hzero
      rw [Int.mul_ediv_cancel_left _ (by norm_num), ih, pow_succ]
      push_cast
      field_simp
    · rfl

theorem value_normalize (d : Decimal) : d.normalize.value = d.value := value_stripZeros d.scale d.mantissa

/-- The fraction of a scaling: nothing in it overflows. -/
structure Fraction (factor : ℚ) (divide : Bool) (times divisor : ℤ) : Prop where
  pos : 0 < divisor
  value : (times : ℚ) / divisor = if divide then factor⁻¹ else factor
  share_le : (divisor - 1) * |times| + divisor / 2 ≤ i64Max

/-- Numerator and denominator without their common divisor. -/
theorem reduced_spec (n : ℤ) {d : ℤ} (hd : 0 < d) :
    0 < d.tdiv (Int.gcd n d) ∧ (n.tdiv (Int.gcd n d) : ℚ) / d.tdiv (Int.gcd n d) = n / d ∧
      (n = 0 → d.tdiv (Int.gcd n d) = 1) := by
  have hgcd : (0 : ℤ) < Int.gcd n d := Int.natCast_pos.2 (Int.gcd_pos_of_ne_zero_right n hd.ne')
  obtain ⟨n', hn⟩ := Int.gcd_dvd_left n d
  obtain ⟨d', hd'⟩ := Int.gcd_dvd_right n d
  have hzero : n = 0 → d.tdiv (Int.gcd n d) = 1 := by
    rintro rfl
    rw [Int.gcd_zero_left, Int.natAbs_of_nonneg hd.le, Int.tdiv_self hd.ne']
  have hnum : n.tdiv (Int.gcd n d) = n' := Int.tdiv_eq_of_eq_mul_right hgcd.ne' hn
  have hden : d.tdiv (Int.gcd n d) = d' := Int.tdiv_eq_of_eq_mul_right hgcd.ne' hd'
  have hpos : 0 < d' := pos_of_mul_pos_right (hd' ▸ hd) hgcd.le
  refine ⟨hden ▸ hpos, ?_, hzero⟩
  have hcast : ((Int.gcd n d : ℤ) : ℚ) ≠ 0 := Int.cast_ne_zero.2 hgcd.ne'
  have hvalue : (n : ℚ) / d = ((Int.gcd n d : ℤ) * n') / ((Int.gcd n d : ℤ) * d') := by
    exact_mod_cast congrArg₂ (fun a b : ℤ => (a : ℚ) / b) hn hd'
  rw [hnum, hden, hvalue, mul_div_mul_left _ _ hcast]

theorem reducedFraction_spec {factor : Decimal} {n d : ℤ} (h : reducedFraction factor = some (n, d)) :
    0 < d ∧ (n : ℚ) / d = factor.value ∧ (n = 0 → d = 1) := by
  simp only [reducedFraction, Option.bind_eq_bind, Option.bind_eq_some_iff, checked_eq_some, gcd_eq, Option.pure_def,
    Option.some_inj, Prod.mk.injEq] at h
  obtain ⟨_, ⟨rfl, -⟩, _, ⟨rfl, -⟩, _, ⟨rfl, -⟩, rfl, rfl⟩ := h
  have hpos : (0 : ℤ) < 10 ^ factor.scale := by positivity
  obtain ⟨hd, hvalue, hzero⟩ := reduced_spec factor.mantissa hpos
  unfold Int.gcd at hd hvalue hzero
  refine ⟨hd, ?_, fun hnum => hzero ?_⟩
  · rw [hvalue, Decimal.value]
    push_cast
    rfl
  · rw [hnum, Int.cast_zero, zero_div, eq_comm, div_eq_zero_iff, Int.cast_eq_zero, Int.cast_eq_zero] at hvalue
    exact hvalue.resolve_right hpos.ne'

theorem positiveDivisor_spec {a b times divisor : ℤ} (hb : b ≠ 0) (h : positiveDivisor a b = some (times, divisor)) :
    0 < divisor ∧ (times : ℚ) / divisor = a / b := by
  unfold positiveDivisor at h
  split_ifs at h with hneg
  · simp only [Option.bind_eq_bind, Option.bind_eq_some_iff, checked_eq_some, Option.pure_def, Option.some_inj,
      Prod.mk.injEq] at h
    obtain ⟨_, ⟨rfl, -⟩, _, ⟨rfl, -⟩, rfl, rfl⟩ := h
    refine ⟨by omega, ?_⟩
    push_cast
    exact neg_div_neg_eq _ _
  · simp only [Option.some_inj, Prod.mk.injEq] at h
    obtain ⟨rfl, rfl⟩ := h
    exact ⟨by omega, rfl⟩

theorem scaleFraction_spec {factor : Decimal} {divide : Bool} {times divisor : ℤ}
    (h : scaleFraction factor divide = some (times, divisor)) :
    (divide = true ∧ factor.value = 0 ∧ times = 1 ∧ divisor = 0) ∨
      ¬(divide = true ∧ factor.value = 0) ∧ Fraction factor.value divide times divisor := by
  simp only [scaleFraction, Option.bind_eq_bind, Option.bind_eq_some_iff, checked_eq_some, Option.pure_def, Option.some_inj,
    Prod.mk.injEq, Prod.exists] at h
  obtain ⟨n, d, hreduced, _, _, hsign, _, ⟨rfl, -⟩, _, ⟨rfl, -⟩, _, ⟨rfl, -, hshare⟩, rfl, rfl⟩ := h
  obtain ⟨hd, hvalue, hzero⟩ := reducedFraction_spec hreduced
  cases divide with
  | false =>
    obtain ⟨hpos, hfraction⟩ := positiveDivisor_spec hd.ne' hsign
    rw [Int.tdiv_eq_ediv_of_nonneg hpos.le] at hshare
    exact Or.inr ⟨by simp, hpos, hfraction.trans hvalue, hshare⟩
  | true =>
    simp only [reduceIte] at hsign
    rcases eq_or_ne n 0 with rfl | hn
    · simp only [positiveDivisor, lt_irrefl, if_false, Option.some_inj, Prod.mk.injEq] at hsign
      obtain ⟨rfl, rfl⟩ := hsign
      exact Or.inl ⟨rfl, by rw [← hvalue, Int.cast_zero, zero_div], hzero rfl, rfl⟩
    · obtain ⟨hpos, hfraction⟩ := positiveDivisor_spec hn hsign
      rw [Int.tdiv_eq_ediv_of_nonneg hpos.le] at hshare
      have hne : factor.value ≠ 0 := by
        rw [← hvalue]
        exact div_ne_zero (Int.cast_ne_zero.2 hn) (Int.cast_ne_zero.2 hd.ne')
      refine Or.inr ⟨fun h => hne h.2, hpos, hfraction.trans ?_, hshare⟩
      simp only [reduceIte]
      rw [← hvalue, inv_div]

end Fraction

section Value

variable (fl : ℚ → ℚ) (times divisor : ℤ)

def scaleBy (v : Sqlite.Value) : Sqlite.Value := if times = 1 then v else v.arith fl .mul (.integer times)

/-- The half that is added where the column is below zero, and elsewhere. -/
def roundingHalf : ℤ × ℤ := if times < 0 then (divisor.tdiv 2, -divisor.tdiv 2) else (-divisor.tdiv 2, divisor.tdiv 2)

/-- The value of the scaled column. -/
def partsValue (v : Sqlite.Value) : Sqlite.Value :=
  if divisor = 1 then scaleBy fl times v
  else
    let half := if v.lt (.integer 0) = some true then (roundingHalf times divisor).1 else (roundingHalf times divisor).2
    (scaleBy fl times (v.arith fl .div (.integer divisor))).arith fl .add
      (((scaleBy fl times (v.arith fl .mod (.integer divisor))).arith fl .add (.integer half)).arith fl .div (.integer divisor))

variable {fl times divisor}

theorem partsValue_null : partsValue fl times divisor .null = .null := by
  simp [partsValue, scaleBy, Sqlite.Value.arith]

theorem partsValue_zero (n : ℤ) : partsValue fl 1 0 (.integer n) = .null := by
  simp [partsValue, scaleBy, Sqlite.Value.arith, integerArith]

theorem scaleBy_holds (fl : ℚ → ℚ) (times : ℤ) {n : ℤ} (hlow : i64Min ≤ n) (hhigh : n ≤ i64Max) : (scaleBy fl times (.integer n)).Holds (n * times) := by
  unfold scaleBy
  split_ifs with hone
  · rw [hone, mul_one]
    exact Or.inl ⟨hlow, hhigh, rfl⟩
  · exact holds_mul n times

theorem half_eq (n : ℤ) (hdivisor : 0 < divisor) :
    (if (Sqlite.Value.integer n).lt (.integer 0) = some true then (roundingHalf times divisor).1
      else (roundingHalf times divisor).2) = if n < 0 ↔ times < 0 then divisor / 2 else -(divisor / 2) := by
  have hlt : (Sqlite.Value.integer n).lt (.integer 0) = some (decide (n < 0)) := by
    simp [Sqlite.Value.lt, Sqlite.Value.number]
  rw [hlt, roundingHalf, Int.tdiv_eq_ediv_of_nonneg hdivisor.le]
  by_cases hn : n < 0
  · by_cases htimes : times < 0 <;> simp [hn, htimes]
  · by_cases htimes : times < 0 <;> simp [hn, htimes]

theorem partsValue_holds (n : I64) (hdivisor : 0 < divisor)
    (hshare : (divisor - 1) * |times| + divisor / 2 ≤ i64Max) :
    (partsValue fl times divisor (.integer n)).Holds (scaledParts n times divisor) := by
  obtain ⟨n, hlow, hhigh⟩ := n
  have hmin : i64Min ≤ 0 := by decide
  have hmax : 0 ≤ i64Max := by decide
  by_cases hone : divisor = 1
  · have hparts : scaledParts n times divisor = n * times := by simp [hone, scaledParts, scaledShare]
    rw [partsValue, if_pos hone, hparts]
    exact scaleBy_holds fl times hlow hhigh
  · obtain ⟨hqlow, hqhigh⟩ := tdiv_within hdivisor hlow hmin hhigh hmax
    obtain ⟨hrlow, hrhigh⟩ := tmod_within divisor hlow hmin hhigh hmax
    have hproduct := abs_le.1 (abs_tmod_mul_le n times hdivisor)
    have hsum := abs_le.1 (abs_scaledShare_le n times hdivisor)
    have hlimit : i64Min < -i64Max := by decide
    have hremainder := (scaleBy_holds fl times hrlow hrhigh).eq_integer (by omega) (by omega)
    have hadded : ((Sqlite.Value.integer (n.tmod divisor * times)).arith fl .add
        (.integer (if n < 0 ↔ times < 0 then divisor / 2 else -(divisor / 2)))) = .integer (scaledShare n times divisor) :=
      (holds_add _ _).eq_integer (by rw [← scaledShare]; omega) (by rw [← scaledShare]; omega)
    rw [partsValue, if_neg hone]
    dsimp only
    rw [half_eq n hdivisor, div_of_pos n hdivisor, mod_of_pos n hdivisor, hremainder, hadded, div_of_pos _ hdivisor]
    -- where the quotient's part overflows, its share is on the same side of zero
    rcases scaleBy_holds fl times hqlow hqhigh with ⟨-, -, hquotient⟩ | ⟨hout, x, hquotient⟩
    · rw [hquotient]
      exact holds_add _ _
    · rw [hquotient]
      refine Or.inr ⟨fun hin => hout ?_, _, rfl⟩
      have hsign := scaledShare_sign n times hdivisor
      rw [scaledParts] at hin
      generalize n.tdiv divisor * times = quotient at *
      generalize (scaledShare n times divisor).tdiv divisor = share at *
      rcases lt_trichotomy quotient 0 with hneg | rfl | hpos
      · have hshare : share ≤ 0 := nonpos_of_mul_nonneg_right hsign hneg
        omega
      · exact ⟨hmin, hmax⟩
      · have hshare : 0 ≤ share := nonneg_of_mul_nonneg_right hsign hpos
        omega

end Value

section Text

variable (col : List Char) (times divisor : ℤ) (bounds : I64 × I64)

/-- The values that one rendering binds. -/
def scaleValues : List ℤ :=
  let scale := if times = 1 then [] else [times]
  if divisor = 1 then scale
  else divisor :: scale ++ divisor :: scale ++ [(roundingHalf times divisor).1, (roundingHalf times divisor).2, divisor]

/-- The expression whose first placeholder is the one at `i`. -/
def scaleExpr (i : ℕ) : Expr :=
  if divisor = 1 then if times = 1 then .column col else .arith .mul (.column col) (.param i)
  else if times = 1 then
    .arith .add (.arith .div (.column col) (.param i))
      (.arith .div (.arith .add (.arith .mod (.column col) (.param (i + 1)))
        (.case (.less (.column col) (.integer 0)) (.param (i + 2)) (.param (i + 3)))) (.param (i + 4)))
  else
    .arith .add (.arith .mul (.arith .div (.column col) (.param i)) (.param (i + 1)))
      (.arith .div (.arith .add (.arith .mul (.arith .mod (.column col) (.param (i + 2))) (.param (i + 3)))
        (.case (.less (.column col) (.integer 0)) (.param (i + 4)) (.param (i + 5)))) (.param (i + 6)))

def checkedExpr : Expr :=
  let count := (scaleValues times divisor).length
  .case (.and (.typeofIn (scaleExpr col times divisor 0) ["integer", "null"])
    (.coalesce (.between (scaleExpr col times divisor count) (.integer bounds.1) (.integer bounds.2)) (.integer 1)))
    (scaleExpr col times divisor (count + count)) (.abs (.integer (-9223372036854775808)))

variable {col times divisor bounds}

theorem scaleText_params (params : List BoundValue) :
    (scaleText col times divisor .sqlite params).2 = params ++ (scaleValues times divisor).map .bigInt := by
  unfold scaleText scaleValues scaledOperand roundingHalf
  split_ifs <;> simp [bindValue, pushParam]

-- the tokens of each of the four shapes are known, and the parser runs on them
set_option maxRecDepth 4000 in
theorem parse_checked (params₁ params₂ params₃ : List BoundValue) :
    parseExpr (sqliteIntegerChecked bounds (scaleText col times divisor .sqlite params₁).1
      (scaleText col times divisor .sqlite params₂).1 (scaleText col times divisor .sqlite params₃).1) =
    some (checkedExpr col times divisor bounds,
      (scaleValues times divisor ++ scaleValues times divisor ++ scaleValues times divisor).length) := by
  simp only [sqliteIntegerChecked, sqliteAbort, scaleText, scaledOperand, bindValue, pushParam, placeholder, checkedExpr,
    scaleExpr, scaleValues]
  by_cases hdivisor : divisor = 1
  · by_cases htimes : times = 1
    · simp only [hdivisor, htimes, if_true, List.cons_append, List.nil_append]
      rfl
    · simp only [hdivisor, htimes, if_true, if_false, List.cons_append, List.nil_append]
      rfl
  · by_cases htimes : times = 1
    · simp only [hdivisor, htimes, if_true, if_false, List.cons_append, List.nil_append]
      rfl
    · simp only [hdivisor, htimes, if_false, List.cons_append, List.nil_append]
      rfl

/-- The values of one rendering stand behind `i` others. -/
def BoundAt (values : List ℤ) (i : ℕ) (params : List Sqlite.Value) : Prop :=
  ∀ k, k < values.length → params.getD (i + k) .null = .integer (values.getD k 0)

theorem boundAt_split (before values after : List ℤ) :
    BoundAt values before.length ((before ++ values ++ after).map .integer) := by
  intro k hk
  have hget : (before ++ values ++ after)[before.length + k]? = values[k]? := by
    rw [List.append_assoc, List.getElem?_append_right (by omega), Nat.add_sub_cancel_left, List.getElem?_append_left hk]
  rw [List.getD_eq_getElem?_getD, List.getD_eq_getElem?_getD, List.getElem?_map, hget, List.getElem?_eq_getElem hk]
  rfl

theorem eval_scaleExpr {fl : ℚ → ℚ} {row : List Char → Sqlite.Value} {params : List Sqlite.Value} {i : ℕ}
    (h : BoundAt (scaleValues times divisor) i params) :
    (scaleExpr col times divisor i).eval fl row params = some (partsValue fl times divisor (row col)) := by
  unfold BoundAt scaleValues at h
  unfold scaleExpr partsValue scaleBy
  by_cases hdivisor : divisor = 1
  · by_cases htimes : times = 1
    · simp [hdivisor, htimes, Expr.eval]
    · simp only [hdivisor, htimes, if_true, if_false] at h ⊢
      have h0 := h 0 (by simp)
      simp only [add_zero, List.getD_cons_zero] at h0
      simp only [Expr.eval, h0, Option.bind_eq_bind, Option.bind_some, Option.pure_def]
  · by_cases htimes : times = 1
    · simp only [hdivisor, htimes, if_true, if_false] at h ⊢
      have h0 := h 0 (by simp)
      have h1 := h 1 (by simp)
      have h2 := h 2 (by simp)
      have h3 := h 3 (by simp)
      have h4 := h 4 (by simp)
      simp only [add_zero, List.cons_append, List.nil_append, List.getD_cons_zero, List.getD_cons_succ] at h0 h1 h2 h3 h4
      simp only [Expr.eval, h0, h1, h2, h3, h4, Option.bind_eq_bind, Option.bind_some, Option.pure_def,
        Sqlite.Value.truth_ofTruth]
      split_ifs <;> rfl
    · simp only [hdivisor, htimes, if_false] at h ⊢
      have h0 := h 0 (by simp)
      have h1 := h 1 (by simp)
      have h2 := h 2 (by simp)
      have h3 := h 3 (by simp)
      have h4 := h 4 (by simp)
      have h5 := h 5 (by simp)
      have h6 := h 6 (by simp)
      simp only [add_zero, List.cons_append, List.nil_append, List.getD_cons_zero, List.getD_cons_succ]
        at h0 h1 h2 h3 h4 h5 h6
      simp only [Expr.eval, h0, h1, h2, h3, h4, h5, h6, Option.bind_eq_bind, Option.bind_some, Option.pure_def,
        Sqlite.Value.truth_ofTruth]
      split_ifs <;> rfl

/-- NULL is kept, an integer only within the bounds, and a REAL aborts the statement. -/
def keepWithin (bounds : I64 × I64) : Sqlite.Value → Option Sqlite.Value
  | .null => some .null
  | .integer n => if bounds.1 ≤ n ∧ n ≤ bounds.2 then some (.integer n) else none
  | .real _ => none

theorem eval_checkedExpr (fl : ℚ → ℚ) (row : List Char → Sqlite.Value) :
    (checkedExpr col times divisor bounds).eval fl row
      ((scaleValues times divisor ++ scaleValues times divisor ++ scaleValues times divisor).map .integer) =
      keepWithin bounds (partsValue fl times divisor (row col)) := by
  generalize hvalues : scaleValues times divisor = values
  have hchecked : BoundAt (scaleValues times divisor) 0 ((values ++ values ++ values).map .integer) := by
    rw [hvalues, List.append_assoc]
    exact boundAt_split [] values (values ++ values)
  have hbounded : BoundAt (scaleValues times divisor) values.length ((values ++ values ++ values).map .integer) := by
    rw [hvalues]
    exact boundAt_split values values values
  have hresult : BoundAt (scaleValues times divisor) (values.length + values.length)
      ((values ++ values ++ values).map .integer) := by
    rw [hvalues, ← List.length_append, ← List.append_nil (values ++ values ++ values)]
    exact boundAt_split (values ++ values) values []
  simp only [checkedExpr, hvalues, Expr.eval, eval_scaleExpr hchecked, eval_scaleExpr hbounded, eval_scaleExpr hresult,
    Option.bind_eq_bind, Option.bind_some, Option.pure_def, Sqlite.Value.truth_ofBool]
  cases partsValue fl times divisor (row col) with
  | null => rfl
  | integer n =>
    have hlow : (Sqlite.Value.integer bounds.1).le (.integer n) = some (decide (bounds.1 ≤ n)) := by
      simp [Sqlite.Value.le, Sqlite.Value.number]
    have hhigh : (Sqlite.Value.integer n).le (.integer bounds.2) = some (decide (n ≤ bounds.2)) := by
      simp [Sqlite.Value.le, Sqlite.Value.number]
    rw [hlow, hhigh, keepWithin]
    by_cases hmin : bounds.1 ≤ n
    · by_cases hmax : n ≤ bounds.2
      · rw [decide_eq_true hmin, decide_eq_true hmax, if_pos (And.intro hmin hmax)]
        rfl
      · rw [decide_eq_true hmin, decide_eq_false hmax, if_neg (show ¬(bounds.1 ≤ n ∧ n ≤ bounds.2) from fun h => hmax h.2)]
        rfl
    · rw [decide_eq_false hmin, if_neg (show ¬(bounds.1 ≤ n ∧ n ≤ bounds.2) from fun h => hmin h.1)]
      rfl
  | real x => rfl

end Text

section Scaled

variable {fl : ℚ → ℚ} {fromStr : ℚ → Option Decimal} {own : Option (I64 × I64)} {kind : Option ColumnType}
  {col : List Char} {params : List BoundValue} {factor : ℚ} {divide : Bool}

/-- An accepted factor of an integer column is rendered three times. -/
theorem scaled_ok (own : Option (I64 × I64)) (col : List Char) (params : List BoundValue) (hkind : kind.any isInteger = true)
    (hfactor : ¬(divide = true ∧ factor = 0)) {d : Decimal} (hd : fromStr factor = some d) {times divisor : ℤ}
    (hfraction : scaleFraction d.normalize divide = some (times, divisor)) :
    ∃ params₂ params₃, scaled fromStr own kind col .sqlite params (.finite factor) divide = .ok
      (sqliteIntegerChecked (sqliteIntegerBounds own kind) (scaleText col times divisor .sqlite params).1
        (scaleText col times divisor .sqlite params₂).1 (scaleText col times divisor .sqlite params₃).1,
      params ++ (scaleValues times divisor ++ scaleValues times divisor ++ scaleValues times divisor).map .bigInt) := by
  unfold scaled
  dsimp only
  rw [if_neg hfactor, hkind, exactDecimal, hd]
  simp only [sqliteIntegerScale, hfraction, Option.map_some, Option.bind_eq_bind, Option.bind_some, Option.pure_def,
    scaleText_params, Option.elim_some, if_true]
  simp only [List.map_append, ← List.append_assoc]
  exact ⟨_, _, rfl⟩

theorem scaled_error (own : Option (I64 × I64)) (col : List Char) (params : List BoundValue) (hkind : kind.any isInteger = true)
    (h : (divide = true ∧ factor = 0) ∨ ∀ d, fromStr factor = some d → scaleFraction d.normalize divide = none) :
    ∃ e, scaled fromStr own kind col .sqlite params (.finite factor) divide = .error e := by
  unfold scaled
  dsimp only
  by_cases hfactor : divide = true ∧ factor = 0
  · exact ⟨_, if_pos hfactor⟩
  · rw [if_neg hfactor, hkind, exactDecimal]
    refine ⟨.query "SQLite cannot scale this integer column exactly with the requested factor", ?_⟩
    cases hd : fromStr factor with
    | none => rfl
    | some d => simp [sqliteIntegerScale, h.resolve_left hfactor d hd]

/-- The property of an accepted factor, about the values of the rows. -/
theorem scalesExactly_ok (hkind : kind.any isInteger = true) (hfactor : ¬(divide = true ∧ factor = 0)) {d : Decimal}
    (hd : fromStr factor = some d) {times divisor : ℤ} (hfraction : scaleFraction d.normalize divide = some (times, divisor)) :
    ScalesExactly fl fromStr own kind col params factor divide ↔ ∃ exact : ℚ, RoundedTo28 factor exact ∧
      ∀ value : Option I64, keepWithin (sqliteIntegerBounds own kind) (partsValue fl times divisor (columnValue value)) =
        scaledValue (sqliteIntegerBounds own kind) exact divide value := by
  obtain ⟨params₂, params₃, hok⟩ := scaled_ok own col params hkind hfactor hd hfraction
  unfold ScalesExactly
  rw [hok]
  dsimp only
  rw [parse_checked]
  refine exists_congr fun exact => ⟨fun h => ?_, fun h => ?_⟩
  · obtain ⟨expr, values, hrounded, hparse, hparams, heval⟩ := h
    obtain ⟨rfl, -⟩ := Prod.mk.inj (Option.some.inj hparse)
    have hinjective : Function.Injective BoundValue.bigInt := fun _ _ heq => BoundValue.bigInt.inj heq
    obtain rfl := hinjective.list_map (List.append_cancel_left hparams)
    refine ⟨hrounded, fun value => ?_⟩
    rw [← heval (fun _ => columnValue value) value rfl, eval_checkedExpr]
  · refine ⟨_, _, h.1, rfl, rfl, fun row value hrow => ?_⟩
    rw [eval_checkedExpr, hrow]
    exact h.2 value

theorem stripZeros_zero (scale : ℕ) : Decimal.stripZeros 0 scale = ⟨0, 0⟩ := by
  induction scale with
  | zero => rfl
  | succ scale ih =>
    rw [Decimal.stripZeros]
    exact ih

theorem normalize_of_value_eq_zero {d : Decimal} (h : d.value = 0) : d.normalize = ⟨0, 0⟩ := by
  have hmantissa : d.mantissa = 0 := by
    rw [Decimal.value, div_eq_zero_iff, Int.cast_eq_zero] at h
    exact h.resolve_right (pow_ne_zero _ (by norm_num))
  rw [Decimal.normalize, hmantissa, stripZeros_zero]

/-- Only a NULL column is to be NULL. -/
theorem scaledValue_ne_null (bounds : I64 × I64) (exact : ℚ) (divide : Bool) (n : I64) :
    scaledValue bounds exact divide (some n) ≠ some .null := by
  rw [scaledValue]
  split_ifs <;> simp

/-- A division by zero is rendered, and every row is set to NULL. -/
theorem not_scalesExactly_of_zero (hkind : kind.any isInteger = true) (hfactor : factor ≠ 0) {d : Decimal}
    (hd : fromStr factor = some d) (hzero : d.value = 0) : ¬ScalesExactly fl fromStr own kind col params factor true := by
  have hfraction : scaleFraction d.normalize true = some (1, 0) := by
    rw [normalize_of_value_eq_zero hzero, scaleFraction, reducedFraction]
    simp only [gcd_eq]
    rfl
  rw [scalesExactly_ok hkind (fun h => hfactor h.2) hd hfraction]
  rintro ⟨exact, -, hvalues⟩
  have hnull := hvalues (some ⟨0, by decide⟩)
  rw [columnValue, partsValue_zero] at hnull
  exact scaledValue_ne_null _ _ _ _ hnull.symm

/-- Where an `i64` does not hold the result, neither do the column's bounds. -/
theorem keepWithin_of_holds (bounds : I64 × I64) {v : Sqlite.Value} {n : ℤ} (h : v.Holds n) :
    keepWithin bounds v = if bounds.1 ≤ n ∧ n ≤ bounds.2 then some (.integer n) else none := by
  rcases h with ⟨-, -, rfl⟩ | ⟨hout, x, rfl⟩
  · rfl
  · rw [if_neg]
    · rfl
    · exact fun hin => hout ⟨bounds.1.2.1.trans hin.1, hin.2.trans bounds.2.2.2⟩

theorem scalesExactly_of_fraction (hkind : kind.any isInteger = true) (hfactor : ¬(divide = true ∧ factor = 0)) {d : Decimal}
    (hd : fromStr factor = some d) (hround : RoundedTo28 factor d.value) {times divisor : ℤ}
    (hscale : scaleFraction d.normalize divide = some (times, divisor)) (hfraction : Fraction d.value divide times divisor) :
    ScalesExactly fl fromStr own kind col params factor divide := by
  rw [scalesExactly_ok hkind hfactor hd hscale]
  refine ⟨d.value, hround, fun value => ?_⟩
  cases value with
  | none =>
    rw [columnValue, partsValue_null]
    rfl
  | some n =>
    have hresult : ((n * times : ℤ) : ℚ) / divisor = if divide then n / d.value else n * d.value := by
      rw [Int.cast_mul, mul_div_assoc, hfraction.value]
      split_ifs
      · rfl
      · rfl
    rw [columnValue, keepWithin_of_holds _ (partsValue_holds n hfraction.pos hfraction.share_le), scaledParts_eq hfraction.pos,
      hresult]
    rfl

/-- A number of at most 28 fraction digits is its own rounding. -/
theorem RoundedTo28.eq_of_digits {x rounded : ℚ} (h : RoundedTo28 x rounded) (hdigits : ∃ m : ℤ, x = m / 10 ^ 28) :
    rounded = x := by
  obtain ⟨⟨k, rfl⟩, hnear⟩ := h
  obtain ⟨m, rfl⟩ := hdigits
  have hpow : (0 : ℚ) < 10 ^ 28 := by positivity
  rw [← sub_div, abs_div, abs_of_pos hpow, ← div_div, div_le_div_iff_of_pos_right hpow, ← Int.cast_sub, ← Int.cast_abs] at hnear
  have hlt : ((|k - m| : ℤ) : ℚ) < 1 := hnear.trans_lt (by norm_num)
  have habs : |k - m| < 1 := by exact_mod_cast hlt
  rw [Int.abs_lt_one_iff, sub_eq_zero] at habs
  rw [habs]

/-- The update is exact unless it divides by a factor that is not zero and that is zero with
28 fraction digits. -/
theorem scaled_exact_iff (fl : ℚ → ℚ) (fromStr : ℚ → Option Decimal)
    (hround : ∀ x d, fromStr x = some d → RoundedTo28 x d.value) (own : Option (I64 × I64)) (kind : Option ColumnType)
    (hkind : kind.any isInteger = true) (col : List Char) (params : List BoundValue) (factor : ℚ) (divide : Bool) :
    (ScalesExactly fl fromStr own kind col params factor divide ↔
      ¬(divide = true ∧ factor ≠ 0 ∧ ∃ d, fromStr factor = some d ∧ d.value = 0)) ∧
    ((∃ m : ℤ, factor = m / 10 ^ 28) → ∀ exact, RoundedTo28 factor exact → exact = factor) := by
  refine ⟨?_, fun hdigits exact hrounded => hrounded.eq_of_digits hdigits⟩
  refine ⟨?_, fun h => ?_⟩
  · rintro hexact ⟨rfl, hfactor, d, hd, hzero⟩
    exact not_scalesExactly_of_zero hkind hfactor hd hzero hexact
  · by_cases haccepted : ¬(divide = true ∧ factor = 0) ∧ ∃ d, fromStr factor = some d ∧
        ∃ times divisor, scaleFraction d.normalize divide = some (times, divisor)
    · obtain ⟨hfactor, d, hd, times, divisor, hscale⟩ := haccepted
      rcases scaleFraction_spec hscale with ⟨hdivide, hzero, -⟩ | ⟨-, hfraction⟩
      · rw [value_normalize] at hzero
        exact absurd ⟨hdivide, fun h0 => hfactor ⟨hdivide, h0⟩, d, hd, hzero⟩ h
      · rw [value_normalize] at hfraction
        exact scalesExactly_of_fraction hkind hfactor hd (hround factor d hd) hscale hfraction
    · have hrefused : (divide = true ∧ factor = 0) ∨
          ∀ d, fromStr factor = some d → scaleFraction d.normalize divide = none := by
        rw [or_iff_not_imp_left]
        intro hfactor d hd
        rw [Option.eq_none_iff_forall_ne_some]
        exact fun fraction hscale => haccepted ⟨hfactor, d, hd, fraction.1, fraction.2, hscale⟩
      obtain ⟨e, herror⟩ := scaled_error own col params hkind hrefused
      unfold ScalesExactly
      rw [herror]
      trivial

/-- A number as the nearest decimal of 28 fraction digits, when 96 bits hold its digits. -/
def nearestDecimal (x : ℚ) : Option Decimal :=
  let d := Decimal.normalize ⟨roundHalfAway (x * 10 ^ 28), 28⟩
  if d.mantissa.natAbs < 2 ^ 96 then some d else none

theorem nearestDecimal_rounded (x : ℚ) (d : Decimal) (h : nearestDecimal x = some d) : RoundedTo28 x d.value := by
  unfold nearestDecimal at h
  dsimp only at h
  split_ifs at h
  obtain rfl := Option.some.inj h
  rw [value_normalize, Decimal.value]
  refine ⟨⟨_, rfl⟩, ?_⟩
  have hpow : (0 : ℚ) < 10 ^ 28 := by positivity
  calc |(roundHalfAway (x * 10 ^ 28) : ℚ) / 10 ^ 28 - x| = |(roundHalfAway (x * 10 ^ 28) : ℚ) - x * 10 ^ 28| / 10 ^ 28 := by
        rw [div_sub' hpow.ne', abs_div, abs_of_pos hpow, mul_comm x]
    _ ≤ 1 / 2 / 10 ^ 28 := by gcongr; exact abs_roundHalfAway_sub_le _
    _ = 1 / (2 * 10 ^ 28) := div_div _ _ _

theorem scaled_by_five_halves : ScalesExactly id nearestDecimal none (some .integer) ['a'] [] (5 / 2) true := by
  refine (scaled_exact_iff id nearestDecimal nearestDecimal_rounded none (some .integer) rfl ['a'] [] (5 / 2) true).1.2 ?_
  rintro ⟨-, -, d, hd, hzero⟩
  have hnear := (nearestDecimal_rounded _ _ hd).2
  rw [hzero] at hnear
  norm_num at hnear

/-- Dividing by `1e-30` sets every row to NULL. -/
theorem scaled_by_tiny_divisor : ¬ScalesExactly id nearestDecimal none (some .integer) ['a'] [] (1 / 10 ^ 30) true := by
  have hdecimal : nearestDecimal (1 / 10 ^ 30) = some ⟨0, 0⟩ := by
    have hround : roundHalfAway (1 / 10 ^ 30 * 10 ^ 28) = 0 := by norm_num [roundHalfAway]
    rw [nearestDecimal, hround]
    rfl
  exact not_scalesExactly_of_zero rfl (by norm_num) hdecimal (by norm_num [Decimal.value])

end Scaled

end TideOrm
