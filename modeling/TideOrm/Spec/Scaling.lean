import TideOrm.Lib.Rounding
import TideOrm.Lib.SqliteExpr
import TideOrm.Spec.Error
import TideOrm.Spec.Placeholders

/-! How a bulk update scales a column by a factor (`model/batch/sql_execution.rs`). SQL text
is the list of its tokens. -/

namespace TideOrm

open Lib Sqlite

/-- A decimal of the mantissa and the number of fraction digits. -/
structure Decimal where
  mantissa : ℤ
  scale : ℕ
deriving DecidableEq

namespace Decimal

def value (d : Decimal) : ℚ := d.mantissa / 10 ^ d.scale

/-- The decimal without its trailing zeros. -/
def stripZeros (mantissa : ℤ) : ℕ → Decimal
  | 0 => ⟨mantissa, 0⟩
  | scale + 1 => if mantissa % 10 = 0 then stripZeros (mantissa / 10) scale else ⟨mantissa, scale + 1⟩

def normalize (d : Decimal) : Decimal := stripZeros d.mantissa d.scale

end Decimal

/-- An `f64`; a finite one is the decimal that it prints as. -/
inductive F64 where
  | finite (written : ℚ)
  | infinite (negative : Bool)
  | nan
deriving DecidableEq

inductive BoundValue where
  | bigInt (n : ℤ)
  | decimal (d : Decimal)
  | double (x : F64)
deriving DecidableEq

inductive ColumnType where
  | tinyInteger
  | smallInteger
  | integer
  | bigInteger
  | tinyUnsigned
  | smallUnsigned
  | unsigned
  | bigUnsigned
  | float
  | double
  | decimal
  | money
  | other
deriving DecidableEq

def isInteger : ColumnType → Bool
  | .tinyInteger | .smallInteger | .integer | .bigInteger => true
  | .tinyUnsigned | .smallUnsigned | .unsigned | .bigUnsigned => true
  | _ => false

/-- An expression that fails with "integer overflow" when evaluated. -/
def sqliteAbort : List Sqlite.Token := [.abs, .lparen, .integer (-9223372036854775808), .rparen]

section Scale

-- `Decimal::from_str` on the text that a number prints as
variable (fromStr : ℚ → Option Decimal)

/-- The factor as the decimal it is written as, when a `Decimal` holds it. -/
def exactDecimal : F64 → Option Decimal
  | .finite written => (fromStr written).map Decimal.normalize
  -- `inf` and `NaN` are no decimals
  | _ => none

/-- A result that overflows an `i64` is none. -/
def checked (n : ℤ) : Option ℤ := if i64Min ≤ n ∧ n ≤ i64Max then some n else none

def gcd (a b : ℕ) : ℕ := if b = 0 then a else gcd b (a % b)
termination_by b
decreasing_by exact Nat.mod_lt a (by omega)

/-- The factor as a fraction of two integers. -/
def reducedFraction (factor : Decimal) : Option (ℤ × ℤ) := do
  let numerator ← checked factor.mantissa
  let denominator ← checked (10 ^ factor.scale)
  let common ← checked (gcd numerator.natAbs denominator.natAbs)
  return (numerator.tdiv common, denominator.tdiv common)

/-- The divisor stays positive, so its half rounds away from zero. -/
def positiveDivisor (times divisor : ℤ) : Option (ℤ × ℤ) :=
  if divisor < 0 then do return (← checked (-times), ← checked (-divisor)) else some (times, divisor)

/-- What the column is multiplied by and divided by, when the remainder's share cannot overflow
on its own. -/
def scaleFraction (factor : Decimal) (divide : Bool) : Option (ℤ × ℤ) := do
  let (numerator, denominator) ← reducedFraction factor
  let (times, divisor) := if divide then (denominator, numerator) else (numerator, denominator)
  let (times, divisor) ← positiveDivisor times divisor
  let _ ← checked ((← checked ((divisor - 1) * (← checked |times|))) + divisor.tdiv 2)
  return (times, divisor)

/-- Bind the value where it stands in the statement. -/
def bindValue (db : DatabaseType) (value : BoundValue) (params : List BoundValue) : Sqlite.Token × List BoundValue :=
  let (marker, params) := pushParam db params value
  (.param marker, params)

def scaledOperand (db : DatabaseType) (times : ℤ) (operand : List Sqlite.Token) (params : List BoundValue) :
    List Sqlite.Token × List BoundValue :=
  if times = 1 then (operand, params)
  else
    let (marker, params) := bindValue db (.bigInt times) params
    (operand ++ [.star, marker], params)

/-- The column scaled in SQLite's integer arithmetic, rounded half away from zero. -/
def scaleText (col : List Char) (times divisor : ℤ) (db : DatabaseType) (params : List BoundValue) :
    List Sqlite.Token × List BoundValue :=
  if divisor = 1 then scaledOperand db times [.column col] params
  else
    let (marker, params) := bindValue db (.bigInt divisor) params
    let (quotient, params) := scaledOperand db times [.lparen, .column col, .slash, marker, .rparen] params
    let (marker, params) := bindValue db (.bigInt divisor) params
    let (remainder, params) := scaledOperand db times [.lparen, .column col, .percent, marker, .rparen] params
    let half := divisor.tdiv 2
    let (belowZero, otherwise) := if times < 0 then (half, -half) else (-half, half)
    let (belowZero, params) := bindValue db (.bigInt belowZero) params
    let (otherwise, params) := bindValue db (.bigInt otherwise) params
    let (marker, params) := bindValue db (.bigInt divisor) params
    (quotient ++ [.plus, .lparen] ++ remainder ++ [.plus, .case, .when, .column col, .less, .integer 0, .then,
      belowZero, .else, otherwise, .end, .rparen, .slash, marker], params)

def sqliteIntegerScale (col : List Char) (factor : Decimal) (divide : Bool) (db : DatabaseType)
    (params : List BoundValue) : Option (List Sqlite.Token × List BoundValue) := do
  let (times, divisor) ← scaleFraction factor divide
  return scaleText col times divisor db params

/-- The bounds of the column: the model's own, or those of its type. -/
def sqliteIntegerBounds (own : Option (I64 × I64)) (kind : Option ColumnType) : I64 × I64 :=
  match own with
  | some bounds => bounds
  | none =>
    match kind with
    | some .tinyInteger => (⟨-2 ^ 7, by decide⟩, ⟨2 ^ 7 - 1, by decide⟩)
    | some .smallInteger => (⟨-2 ^ 15, by decide⟩, ⟨2 ^ 15 - 1, by decide⟩)
    | some .integer => (⟨-2 ^ 31, by decide⟩, ⟨2 ^ 31 - 1, by decide⟩)
    | some .tinyUnsigned => (⟨0, by decide⟩, ⟨2 ^ 8 - 1, by decide⟩)
    | some .smallUnsigned => (⟨0, by decide⟩, ⟨2 ^ 16 - 1, by decide⟩)
    | some .unsigned => (⟨0, by decide⟩, ⟨2 ^ 32 - 1, by decide⟩)
    | some .bigUnsigned => (⟨0, by decide⟩, ⟨i64Max, by decide⟩)
    | _ => (⟨i64Min, by decide⟩, ⟨i64Max, by decide⟩)

/-- The expression, kept only when its result is an integer within the column's range. -/
def sqliteIntegerChecked (bounds : I64 × I64) (checked bounded result : List Sqlite.Token) : List Sqlite.Token :=
  ([.case, .when, .typeof, .lparen] : List Sqlite.Token) ++ checked ++
    ([.rparen, .in, .lparen, .text "integer", .comma, .text "null", .rparen, .and, .coalesce, .lparen, .lparen] : List Sqlite.Token) ++
    bounded ++ ([.rparen, .between, .integer bounds.1, .and, .integer bounds.2, .comma, .integer 1, .rparen, .then] : List Sqlite.Token) ++
    result ++ ([.else] : List Sqlite.Token) ++ sqliteAbort ++ ([.end] : List Sqlite.Token)

def f32Factors : String :=
  "(CASE step WHEN 0 THEN 3.402823669209385e38 WHEN 1 THEN 1.8446744073709552e19 WHEN 2 THEN 4.294967296e9 " ++
  "WHEN 3 THEN 6.5536e4 WHEN 4 THEN 2.56e2 WHEN 5 THEN 1.6e1 WHEN 6 THEN 4e0 WHEN 7 THEN 2e0 END)"

/-- A REAL rounded to the nearest binary32, ties to even. -/
def sqliteF32Round (expression : List Sqlite.Token) : List Sqlite.Token :=
  .other "(WITH RECURSIVE input(value) AS (SELECT " :: expression ++ [.other (
    "), spacing(step, quantum) AS (VALUES(0, 1.401298464324817e-45) UNION ALL " ++
    "SELECT step + 1, CASE WHEN abs(value) >= quantum * " ++ f32Factors ++ " * 8388608.0 " ++
    "THEN quantum * " ++ f32Factors ++ " ELSE quantum END FROM spacing, input WHERE step < 8), " ++
    "scaled(value, quantum, units) AS " ++
    "(SELECT value, quantum, abs(value) / quantum FROM input, spacing WHERE step = 8), " ++
    "parts(value, quantum, units, whole) AS " ++
    "(SELECT value, quantum, units, CAST(units AS INTEGER) FROM scaled) " ++
    "SELECT CASE WHEN value IS NULL THEN NULL ELSE " ++
    "(CASE WHEN value < 0 THEN -1.0 ELSE 1.0 END) * quantum * " ++
    "(whole + CASE WHEN units - whole > 0.5 OR " ++
    "(units - whole = 0.5 AND whole % 2 = 1) THEN 1 ELSE 0 END) END FROM parts)")]

/-- Arithmetic kept within what the model reads of the column's type, which has to have a
fraction. -/
def sqliteFloatArithmetic (kind : Option ColumnType) (col : List Char) (operator : Sqlite.Token) (operand : BoundValue)
    (params : List BoundValue) : Option (List Sqlite.Token × List BoundValue) := do
  let (maximum, single) ← match kind with
    | some .float => some ("3.4028234663852886e38", true)
    | some .double => some ("1.7976931348623157e308", false)
    | some .decimal | some .money => some ("7.922816251426433e28", false)
    | _ => none
  let (bounded, params) := bindValue .sqlite operand params
  let (result, params) := bindValue .sqlite operand params
  let expression := [.case, .when, .column col, .other "IS NULL OR", .lparen, .column col, operator, bounded, .rparen,
    .between, .other ("-" ++ maximum), .and, .other maximum, .then, .column col, operator, result, .else] ++
    sqliteAbort ++ [.end]
  return (if single then sqliteF32Round expression else expression, params)

/-- The column multiplied, or divided, by the factor. -/
def scaled (own : Option (I64 × I64)) (kind : Option ColumnType) (col : List Char) (db : DatabaseType)
    (params : List BoundValue) (factor : F64) (divide : Bool) : Except Error (List Sqlite.Token × List BoundValue) :=
  match factor with
  | .infinite _ | .nan => .error (.query "bulk arithmetic requires a finite factor and a nonzero divisor")
  | .finite written =>
    if divide ∧ written = 0 then .error (.query "bulk arithmetic requires a finite factor and a nonzero divisor")
    else
      let integral := kind.any isInteger
      let decimal := kind = some .decimal ∨ kind = some .money
      let operator := if divide then .slash else .star
      let inexact : Except Error (List Sqlite.Token × List BoundValue) :=
        if integral ∧ db = .sqlite then
          .error (.query "SQLite cannot scale this integer column exactly with the requested factor")
        else
          let plain :=
            let (marker, params) := bindValue db (.double factor) params
            ([.column col, operator, marker], params)
          if db = .sqlite then
            .ok ((sqliteFloatArithmetic kind col operator (.double factor) params).getD plain)
          else .ok plain
      match exactDecimal fromStr factor with
      | none => inexact
      | some exact =>
        if db = .sqlite then
          if integral then
            -- rendered three times, each with parameters of its own
            let rendered := do
              let (checked, params) ← sqliteIntegerScale col exact divide db params
              let (bounded, params) ← sqliteIntegerScale col exact divide db params
              let (result, params) ← sqliteIntegerScale col exact divide db params
              return (sqliteIntegerChecked (sqliteIntegerBounds own kind) checked bounded result, params)
            rendered.elim inexact .ok
          else inexact
        else if integral ∨ decimal then
          let (marker, params) := bindValue db (.decimal exact) params
          .ok ([.column col, operator, marker], params)
        else inexact

end Scale

/-- A number rounded to 28 fraction digits. -/
def RoundedTo28 (x rounded : ℚ) : Prop := (∃ m : ℤ, rounded = m / 10 ^ 28) ∧ |rounded - x| ≤ 1 / (2 * 10 ^ 28)

def columnValue : Option I64 → Sqlite.Value
  | none => .null
  | some n => .integer n

/-- What a row is to hold after the update, or none where the statement is to be aborted. -/
def scaledValue (bounds : I64 × I64) (factor : ℚ) (divide : Bool) : Option I64 → Option Sqlite.Value
  | none => some .null
  | some n =>
    let result := roundHalfAway (if divide then n / factor else n * factor)
    if bounds.1 ≤ result ∧ result ≤ bounds.2 then some (.integer result) else none

/-- The factor is refused, or every row is scaled by its decimal value: the text is an
expression whose placeholders are bound, in their order, behind the values bound before. -/
def ScalesExactly (fl : ℚ → ℚ) (fromStr : ℚ → Option Decimal) (own : Option (I64 × I64)) (kind : Option ColumnType)
    (col : List Char) (params : List BoundValue) (factor : ℚ) (divide : Bool) : Prop :=
  match scaled fromStr own kind col .sqlite params (.finite factor) divide with
  | .error _ => True
  | .ok (sql, params') => ∃ (exact : ℚ) (expr : Expr) (values : List ℤ),
    RoundedTo28 factor exact ∧ parseExpr sql = some (expr, values.length) ∧ params' = params ++ values.map .bigInt ∧
    ∀ (row : List Char → Sqlite.Value) (value : Option I64), row col = columnValue value →
      expr.eval fl row (values.map .integer) = scaledValue (sqliteIntegerBounds own kind) exact divide value

end TideOrm
