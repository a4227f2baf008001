import TideOrm.Lib.BinaryFloat
import TideOrm.Spec.PostgresBinary
import TideOrm.Spec.Scaling
import TideOrm.Spec.SqlSafety
import TideOrm.Spec.FloatRounding

/-! Validation rules and the values they check (`validation.rs`, `validation/values.rs`). -/

namespace TideOrm

open Lib

/-- A number of an integer type of the language. -/
structure MachineInt (low high : ℤ) where
  val : ℤ
  within : low ≤ val ∧ val ≤ high

def i128Min : ℤ := -2 ^ 127
def i128Max : ℤ := 2 ^ 127 - 1

abbrev I128 := MachineInt i128Min i128Max

/-- `i128::try_from`, which of the integer types refuses only large numbers of `u128`; and the
checked operations. -/
def toI128 (n : ℤ) : Option I128 := if h : i128Min ≤ n ∧ n ≤ i128Max then some ⟨n, h⟩ else none

/-- IEEE 754 binary64. -/
def binary64 : BinaryFormat := ⟨53, -1074, 971⟩

abbrev Binary64 := BinaryFloat binary64
abbrev Binary32 := BinaryFloat binary32

theorem binary64_whole : binary64.minExponent ≤ 0 ∧ 0 ≤ binary64.maxExponent := by decide

/-- `as i128` -/
def Binary64.asI128 (x : Binary64) : I128 := ⟨x.saturate i128Min i128Max, x.saturate_mem (by decide)⟩

structure RustDecimal extends Decimal where
  mantissa_lt : mantissa.natAbs < 2 ^ 96
  scale_le : scale ≤ 28

section Numbers

/-- A number's sign and the text after it. -/
def splitSign : List Char → Bool × List Char
  | '-' :: rest => (true, rest)
  | '+' :: rest => (false, rest)
  | text => (false, text)

def readsDigits (text : List Char) : Bool := !text.isEmpty && text.all Char.isDigit

/-- The integer that a text of an optional sign and digits writes. -/
def parseInteger (text : List Char) : Option ℤ :=
  let (negative, digits) := splitSign text
  if readsDigits digits then some (if negative then -(digitsValue digits : ℤ) else digitsValue digits) else none

/-- `str::parse::<i128>` -/
def parseI128 (text : List Char) : Option I128 := (parseInteger text).bind toI128

def isExponentMark (ch : Char) : Bool := ch == 'e' || ch == 'E'

/-- The digits of a mantissa before and after its point, and how many stand after it. -/
def mantissaDigits : Bool → List Char → Option (List Char × ℕ)
  | _, [] => some ([], 0)
  | dot, ch :: rest =>
    if ch = '.' ∧ dot = false then mantissaDigits true rest
    else if ch.isDigit then
      (mantissaDigits dot rest).map fun (digits, fractional) => (ch :: digits, if dot then fractional + 1 else fractional)
    else none

/-- What stands before the exponent, and the exponent as `read` reads it. -/
def splitExponent (read : List Char → Option ℤ) (text : List Char) : Option (List Char × ℤ) :=
  match text.splitOnP isExponentMark with
  | [mantissa] => some (mantissa, 0)
  | [mantissa, exponent] => (read exponent).map fun exponent => (mantissa, exponent)
  | _ => none

/-- The number of the text, of any size; `str::parse::<f64>` rounds it. -/
def parseNumber (text : List Char) : Option ℚ := do
  let (mantissa, exponent) ← splitExponent parseInteger text
  let (digits, fractional) ← mantissaDigits false mantissa
  if digits.isEmpty then none else some (digitsValue digits * 10 ^ (exponent - fractional))

/-- `str::parse::<f64>` -/
def parseF64 (text : List Char) : Option Binary64 :=
  let (negative, rest) := splitSign text
  let lower := rest.map Char.toLower
  if lower = "inf".toList ∨ lower = "infinity".toList then some (.infinite negative)
  else if lower = "nan".toList then some .nan
  else (parseNumber rest).map fun x => .round binary64 (if negative then -x else x)

end Numbers

/-- The code of other crates that the rules call, and how an `f64` is printed. -/
structure Crates where
  -- `regex::Regex::new` and `is_match`
  regex : List Char → Option (List Char → Bool)
  -- `url::Url::parse`, its scheme and whether it has a host
  parseUrl : List Char → Option (List Char × Bool)
  parsesUuid : List Char → Bool
  decimalText : RustDecimal → List Char
  decimalF64 : RustDecimal → Option Binary64
  -- `fract().is_zero()`
  decimalIsWhole : RustDecimal → Bool
  decimalI128 : RustDecimal → Option I128
  f64Text : Binary64 → List Char

class ValidatableValue (T : Type) where
  isEmptyValue : T → Bool
  asStrValue : T → Option (List Char)
  asF64Value : T → Option Binary64
  asI128Value : T → Option I128 := fun _ => none
  asDecimalValue : T → Option RustDecimal := fun _ => none
  numericBound : T → Binary64 → Binary64 := fun _ bound => bound

open ValidatableValue

/-- `String` and `&str` -/
instance : ValidatableValue (List Char) where
  isEmptyValue text := (trim text).isEmpty
  asStrValue text := some text
  asF64Value := parseF64
  asI128Value := parseI128

instance {T : Type} [ValidatableValue T] : ValidatableValue (Option T) where
  isEmptyValue value := value.all isEmptyValue
  asStrValue value := value.bind asStrValue
  asF64Value value := value.bind asF64Value
  asI128Value value := value.bind asI128Value
  asDecimalValue value := value.bind asDecimalValue
  numericBound value bound := value.elim bound fun value => numericBound value bound

/-- `f32` and `f64` -/
instance {f : BinaryFormat} : ValidatableValue (BinaryFloat f) where
  isEmptyValue _ := false
  asStrValue _ := none
  asF64Value x := some (x.cast binary64)
  numericBound _ bound := (bound.cast f).cast binary64

instance {low high : ℤ} : ValidatableValue (MachineInt low high) where
  isEmptyValue _ := false
  asStrValue _ := none
  asF64Value n := some (.round binary64 n.val)
  asI128Value n := toI128 n.val

/-- `rust_decimal::Decimal` -/
def Crates.Decimal (_ : Crates) : Type := RustDecimal

instance (x : Crates) : ValidatableValue x.Decimal where
  isEmptyValue _ := false
  asStrValue _ := none
  asF64Value := x.decimalF64
  asI128Value d := if x.decimalIsWhole d then x.decimalI128 d else none
  asDecimalValue d := some d

section Bounds

/-- The sign, the digits from the first that is not zero, and the power of ten just above the
number; zero has no digits. -/
def decimalParts (text : List Char) : Option (Bool × List Char × ℤ) := do
  let (negative, text) := splitSign (trim text)
  let (mantissa, exponent) ← splitExponent (fun exponent => (parseI128 exponent).map MachineInt.val) text
  let (digits, fractional) ← mantissaDigits false mantissa
  if digits.isEmpty then none
  else
    let significant := digits.dropWhile (· == '0')
    if significant.isEmpty then some (false, [], 0)
    else
      let scaled ← toI128 (exponent - fractional)
      let magnitude ← toI128 (scaled.val + significant.length)
      some (negative, significant, magnitude.val)

/-- The first place where the digits differ; the shorter text goes on with zeros. -/
def compareDigits (left right : List Char) : Ordering :=
  let orders := (List.range (max left.length right.length)).map fun i => cmp (left.getD i '0') (right.getD i '0')
  (orders.find? (· ≠ .eq)).getD .eq

def compareDecimalText (left right : List Char) : Option Ordering := do
  let (ln, ld, lm) ← decimalParts left
  let (rn, rd, rm) ← decimalParts right
  if ln ≠ rn then some (if ln then .lt else .gt)
  else
    let order :=
      match ld.isEmpty, rd.isEmpty with
      | true, true => .eq
      | true, false => .lt
      | false, true => .gt
      | false, false => (cmp lm rm).then (compareDigits ld rd)
    some (if ln then order.swap else order)

def decimalTextOutside (value bound : List Char) (below : Bool) : Bool :=
  match compareDecimalText value bound with
  | some order => if below then order = .lt else order = .gt
  | none => true

variable (x : Crates)

def decimalOutside (value : RustDecimal) (text : List Char) (below : Bool) : Bool :=
  decimalTextOutside (x.decimalText value) text below

variable {T : Type} [ValidatableValue T]

def belowBound (value : T) (bound : Binary64) : Option Bool :=
  match asI128Value value with
  | some integer =>
    some (if BinaryFloat.lt (.round binary64 i128Max) bound then true
      else if bound.le (.round binary64 i128Min) then false
      else integer.val < (Binary64.asI128 (bound.ceil binary64_whole)).val)
  | none =>
    match asDecimalValue value with
    | some decimal => some (decimalOutside x decimal (x.f64Text bound) true)
    | none => (asF64Value value).map fun n => n.isNan || n.lt (numericBound value bound)

def aboveBound (value : T) (bound : Binary64) : Option Bool :=
  match asI128Value value with
  | some integer =>
    some (if BinaryFloat.le (.round binary64 i128Max) bound then false
      else if bound.lt (.round binary64 i128Min) then true
      else integer.val > (Binary64.asI128 (bound.floor binary64_whole)).val)
  | none =>
    match asDecimalValue value with
    | some decimal => some (decimalOutside x decimal (x.f64Text bound) false)
    | none => (asF64Value value).map fun n => n.isNan || BinaryFloat.lt (numericBound value bound) n

def outsideExact (value : T) (text : List Char) (below : Bool) : Bool :=
  match asI128Value value with
  | some integer =>
    match parseI128 text with
    | some bound => if below then integer.val < bound.val else integer.val > bound.val
    | none => decimalTextOutside (signedDecimal integer.val) text below
  | none =>
    match asDecimalValue value with
    | some decimal => decimalOutside x decimal text below
    | none =>
      match parseF64 text with
      | none => true
      | some bound => if below then belowBound x value bound = some true else aboveBound x value bound = some true

end Bounds

inductive ValidationRule where
  | required
  | email
  | url
  | minLength (min : ℕ)
  | maxLength (max : ℕ)
  | length (len : ℕ)
  | min (min : Binary64)
  | minExact (min : List Char)
  | max (max : Binary64)
  | maxExact (max : List Char)
  | range (min max : Binary64)
  | rangeExact (min max : List Char)
  | regex (pattern : List Char)
  | alpha
  | alphanumeric
  | numeric
  | uuid
  | isIn (values : List (List Char))
  | notIn (values : List (List Char))

section Validator

variable (u : CharTables) (x : Crates)

/-- The message of every rule begins with the field. -/
def ValidationRule.message (rule : ValidationRule) (field : List Char) : List Char :=
  "The ".toList ++ field ++ ' ' ::
    match rule with
    | .required => "field is required".toList
    | .email => "must be a valid email address".toList
    | .url => "must be a valid URL".toList
    | .minLength len => "must be at least ".toList ++ decimal len ++ " characters".toList
    | .maxLength len => "must not exceed ".toList ++ decimal len ++ " characters".toList
    | .length len => "must be exactly ".toList ++ decimal len ++ " characters".toList
    | .minExact val => "must be at least ".toList ++ val
    | .maxExact val => "must not exceed ".toList ++ val
    | .rangeExact low high => "must be between ".toList ++ low ++ " and ".toList ++ high
    | .min val => "must be at least ".toList ++ x.f64Text val
    | .max val => "must not exceed ".toList ++ x.f64Text val
    | .range low high => "must be between ".toList ++ x.f64Text low ++ " and ".toList ++ x.f64Text high
    | .regex pattern => "format is invalid (must match: ".toList ++ pattern ++ ")".toList
    | .alpha => "must only contain letters".toList
    | .alphanumeric => "must only contain letters and numbers".toList
    | .numeric => "must be a number".toList
    | .uuid => "must be a valid UUID".toList
    | .isIn values => "must be one of: ".toList ++ ", ".toList.intercalate values
    | .notIn values => "must not be one of: ".toList ++ ", ".toList.intercalate values

/-- The built-in pattern compiles. -/
def isValidEmail (s : List Char) : Bool :=
  (x.regex "^[a-zA-Z0-9._%+-]+@[a-zA-Z0-9.-]+\\.[a-zA-Z]\x7b2,\x7d$".toList).any fun isMatch => isMatch s

def isValidUrl (s : List Char) : Bool :=
  match x.parseUrl s with
  | some (scheme, hasHost) => (scheme = "http".toList ∨ scheme = "https".toList) ∧ hasHost
  | none => false

variable {T : Type} [ValidatableValue T]

def validateRule (value : T) (rule : ValidationRule) (field : List Char) : Option (List Char) :=
  let textFails (fails : List Char → Bool) : Bool := (asStrValue value).any fails
  let checked (fails : Bool) : Option (List Char) := if fails then some (rule.message x field) else none
  match rule with
  | .required => checked (isEmptyValue value)
  | .email => checked (textFails fun s => !isValidEmail x s)
  | .url => checked (textFails fun s => !isValidUrl x s)
  | .minLength min => checked (textFails fun s => s.length < min)
  | .maxLength max => checked (textFails fun s => s.length > max)
  | .length len => checked (textFails fun s => s.length ≠ len)
  | .minExact min => checked (outsideExact x value min true)
  | .maxExact max => checked (outsideExact x value max false)
  | .rangeExact min max => checked (outsideExact x value min true || outsideExact x value max false)
  | .min min => checked (belowBound x value min = some true)
  | .max max => checked (aboveBound x value max = some true)
  | .range min max => checked (belowBound x value min = some true ∨ aboveBound x value max = some true)
  | .regex pattern =>
    match x.regex pattern with
    -- a pattern that does not compile fails for every value
    | none =>
      some ("The ".toList ++ field ++ " validation pattern ".toList ++ '\x60' :: pattern ++
        "\x60 is not a valid regular expression".toList)
    | some isMatch => checked (textFails fun s => !isMatch s)
  | .alpha => checked (textFails fun s => !s.all u.isAlphabetic)
  | .alphanumeric => checked (textFails fun s => !s.all u.isAlphanumeric)
  | .numeric => checked (textFails fun s => !((parseF64 s).any BinaryFloat.isFinite))
  | .uuid => checked (textFails fun s => !x.parsesUuid s)
  | .isIn values => checked (textFails fun s => !values.contains s)
  | .notIn values => checked (textFails fun s => values.contains s)

end Validator

end TideOrm
