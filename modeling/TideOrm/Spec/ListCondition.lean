import TideOrm.Lib.Kleene
import TideOrm.Spec.Filters
import TideOrm.Spec.Placeholders
import TideOrm.Spec.Validation

/-! `where_in` and `where_not_in` (`query/sql/condition_builders/comparison_pattern_list.rs`): the
predicate that a list is rendered as, by its length and the types its values are bound with
(`internal/column_values.rs`), and what a database makes of it. -/

namespace TideOrm.ListCondition

open Lib Sqlite

/-- The type of a column, without its lengths and precisions. -/
inductive ColumnType where
  | char | string | text | blob | binary | varBinary
  | tinyInteger | smallInteger | integer | bigInteger
  | tinyUnsigned | smallUnsigned | unsigned | bigUnsigned
  | float | double | decimal | money
  | dateTime | timestamp | timestampWithTimeZone | time | date
  | boolean | json | jsonBinary | uuid
  | array (element : ColumnType)
  | other

def isJsonType : Option ColumnType → Bool
  | some .json | some .jsonBinary => true
  | _ => false

def isInteger : ColumnType → Bool
  | .tinyInteger | .smallInteger | .integer | .bigInteger => true
  | .tinyUnsigned | .smallUnsigned | .unsigned | .bigUnsigned => true
  | _ => false

/-- The types whose text is read by a library. -/
inductive Scalar where
  | uuid | dateTimeUtc | dateTime | date | time | decimal
deriving DecidableEq

/-- The type of an array's elements. -/
inductive ArrayType where
  | bool | tinyInt | smallInt | int | bigInt | tinyUnsigned | smallUnsigned | unsigned | bigUnsigned
  | double | string | bytes | json
  | scalar (kind : Scalar)
deriving DecidableEq

/-- A bind value; `S` are the values of the types in `Scalar`. -/
inductive Value (S : Type) where
  | bool (b : Option Bool)
  | tinyInt (n : Option ℤ)
  | smallInt (n : Option ℤ)
  | int (n : Option ℤ)
  | bigInt (n : Option ℤ)
  | tinyUnsigned (n : Option ℕ)
  | smallUnsigned (n : Option ℕ)
  | unsigned (n : Option ℕ)
  | bigUnsigned (n : Option ℕ)
  | double (bits : Option UInt64)
  | string (text : Option String)
  | bytes (data : Option (List UInt8))
  | json (document : Option Json)
  | scalar (kind : Scalar) (x : Option S)
  | array (element : ArrayType) (items : Option (List (Value S)))

namespace Value

variable {S : Type}

def isNull : Value S → Bool
  | .bool none | .tinyInt none | .smallInt none | .int none | .bigInt none => true
  | .tinyUnsigned none | .smallUnsigned none | .unsigned none | .bigUnsigned none => true
  | .double none | .string none | .bytes none | .json none | .scalar _ none | .array _ none => true
  | _ => false

def isArray : Value S → Bool
  | .array _ _ => true
  | _ => false

end Value

/-- What libraries make of a value. -/
structure Libraries (S : Type) where
  -- `parse_utc_datetime` and its like, `Uuid::parse_str` and `parse_decimal`
  parse : Scalar → String → Option S
  decimalOfUnsigned : ℕ → S
  -- `str::parse::<f64>`
  parseDouble : String → Option UInt64
  -- an integer as an `f64`
  doubleOfInteger : ℤ → UInt64
  numberText : JsonNumber → String
  documentText : Json → String
  -- the JSON text of a list of strings
  listText : List String → String
  -- `Value::array_type`
  arrayType : Value S → ArrayType

section Binding

variable {S : Type} (lib : Libraries S)

/-- The drivers take no unsigned integer past the signed ones: it is bound as a decimal. -/
def bindableValue (n : ℕ) : Value S :=
  if (n : ℤ) ≤ i64Max then .bigUnsigned (some n) else .scalar .decimal (some (lib.decimalOfUnsigned n))

def jsonToDbValue : Json → Value S
  | .null => .string none
  | .bool b => .bool (some b)
  | .number (.posInt n) => if (n : ℤ) ≤ i64Max then .bigInt (some n) else bindableValue lib n
  | .number (.negInt n) => .bigInt (some n)
  | .number (.float bits) => .double (some bits)
  | .string s => .string (some s)
  | document => .string (some (lib.documentText document))

/-- An integer of the JSON number in a range. -/
def readInteger (low high : ℤ) : Json → Option ℤ
  | .number (.posInt n) => if (n : ℤ) ≤ high then some n else none
  | .number (.negInt n) => if low ≤ n then some n else none
  | _ => none

def readDouble : Json → Option UInt64
  | .number (.posInt n) => some (lib.doubleOfInteger n)
  | .number (.negInt n) => some (lib.doubleOfInteger n)
  | .number (.float bits) => some bits
  | _ => none

def readText : Json → Option String
  | .string s => some s
  | _ => none

def readBool : Json → Option Bool
  | .bool b => some b
  | _ => none

/-- `Vec::<T>::deserialize`, for the type of the array's elements. -/
def arrayOf {T : Type} (element : ArrayType) (build : T → Value S) (read : Json → Option T) (items : List Json) :
    Option (Value S) :=
  (items.mapM read).map fun values => .array element (some (values.map build))

/-- A JSON array as the array that a model's field of the type binds. -/
def arrayValue (items : List Json) : ColumnType → Option (Value S)
  | .integer => arrayOf .int (fun n => .int (some n)) (readInteger (-2 ^ 31) (2 ^ 31 - 1)) items
  | .bigInteger => arrayOf .bigInt (fun n => .bigInt (some n)) (readInteger i64Min i64Max) items
  | .boolean => arrayOf .bool (fun b => .bool (some b)) readBool items
  | .double => arrayOf .double (fun bits => .double (some bits)) (readDouble lib) items
  | .text | .string => arrayOf .string (fun s => .string (some s)) readText items
  | .json | .jsonBinary => arrayOf .json (fun document => .json (some document)) some items
  | _ => none

def scalarValue (kind : Scalar) (text : String) : Option (Value S) := (lib.parse kind text).map fun x => .scalar kind (some x)

def typedValue : Json → ColumnType → Option (Value S)
  | .array items, .array element => arrayValue lib items element
  | .array items, .blob | .array items, .binary | .array items, .varBinary =>
    (items.mapM (readInteger 0 255)).map fun bytes => .bytes (some (bytes.map fun n => UInt8.ofNat n.toNat))
  | .string text, .uuid => scalarValue lib .uuid text
  | .string text, .timestampWithTimeZone => scalarValue lib .dateTimeUtc text
  | .string text, .dateTime | .string text, .timestamp => scalarValue lib .dateTime text
  | .string text, .date => scalarValue lib .date text
  | .string text, .time => scalarValue lib .time text
  | .string text, .decimal | .string text, .money => scalarValue lib .decimal text
  | .number n, .decimal | .number n, .money => scalarValue lib .decimal (lib.numberText n)
  | .string text, .float | .string text, .double =>
    (lib.parseDouble (String.ofList (trim text.toList))).map fun bits => .double (some bits)
  | .string text, column =>
    if isInteger column then
      ((parseInteger (trim text.toList)).filter fun n => i64Min ≤ n ∧ n ≤ i64Max).map fun n => .bigInt (some n)
    else none
  | .number n, .string | .number n, .text | .number n, .char => some (.string (some (lib.numberText n)))
  | _, _ => none

/-- A null of the column's own type. -/
def typedNull : ColumnType → Value S
  | .json | .jsonBinary => .json none
  | .blob | .binary | .varBinary => .bytes none
  | .array element =>
    match arrayValue lib [] element with
    | some (.array element _) => .array element none
    | _ => .string none
  | .uuid => .scalar .uuid none
  | .timestampWithTimeZone => .scalar .dateTimeUtc none
  | .dateTime | .timestamp => .scalar .dateTime none
  | .date => .scalar .date none
  | .time => .scalar .time none
  | .decimal | .money => .scalar .decimal none
  | .boolean => .bool none
  | .float | .double => .double none
  | column => if isInteger column then .bigInt none else .string none

/-- A value bound for a column, or generically when it does not read as the column's type. -/
def jsonToColumnValue (value : Json) : Option ColumnType → Value S
  | none => jsonToDbValue lib value
  | some column => if value.isNull then typedNull lib column else (typedValue lib value column).getD (jsonToDbValue lib value)

end Binding

/-- What stands in a list: a parameter, or the text of an integer. -/
inductive Operand (S : Type) where
  | bound (value : Value S)
  | literal (text : List Char)

/-- A predicate on the column. -/
inductive ListPredicate (S : Type) where
  | isIn (operands : List (Operand S))
  | isNotIn (operands : List (Operand S))
  -- `= ANY(array)`
  | eqAny (array : Value S)
  -- `<> ALL(array)`
  | neAll (array : Value S)
  -- `[NOT] IN (SELECT value FROM json_each(parameter))`
  | inJsonEach (negated : Bool) (parameter : Value S)
  | jsonEquals (document : Json) (negated : Bool)
  | isNull
  | isNotNull
  | and (left right : ListPredicate S)
  | or (left right : ListPredicate S)

section Building

variable {S : Type} (lib : Libraries S)

def inlineIntegerListAfter : ℕ := 1000

/-- The array type that the values share. -/
def sharedArrayType (values : List (Value S)) : Option ArrayType :=
  values.head?.bind fun first =>
    if values.all fun value => lib.arrayType value == lib.arrayType first then some (lib.arrayType first) else none

def integerLiteral : Value S → Option (List Char)
  | .tinyInt (some n) | .smallInt (some n) | .int (some n) | .bigInt (some n) => some (signedDecimal n)
  | .tinyUnsigned (some n) | .smallUnsigned (some n) | .unsigned (some n) | .bigUnsigned (some n) => some (decimal n)
  | _ => none

def stringText : Value S → Option String
  | .string (some text) => some text
  | _ => none

/-- A long list as one array parameter, on PostgreSQL. -/
def oneArray (db : DatabaseType) (values : List (Value S)) : Option (Value S) :=
  if db = .postgres ∧ inlineIntegerListAfter < values.length then
    (sharedArrayType lib values).map fun element => .array element (some values)
  else none

/-- A long text list as one JSON parameter, on SQLite. -/
def oneJson (db : DatabaseType) (values : List (Value S)) : Option (Value S) :=
  if db = .sqlite ∧ inlineIntegerListAfter < values.length then
    (values.mapM stringText).map fun texts => .string (some (lib.listText texts))
  else none

/-- A long integer list without parameters. -/
def inlined (values : List (Value S)) : Option (List (Operand S)) :=
  if inlineIntegerListAfter < values.length then (values.mapM integerLiteral).map fun literals => literals.map .literal
  else none

def listOf (operator : ListOperator) (operands : List (Operand S)) : ListPredicate S :=
  match operator with
  | .isIn => .isIn operands
  | .notIn => .isNotIn operands

def arrayOperand (operator : ListOperator) (array : Value S) : ListPredicate S :=
  match operator with
  | .isIn => .eqAny array
  | .notIn => .neAll array

/-- The list of the bound values, by their number and their types. -/
def boundList (db : DatabaseType) (operator : ListOperator) (values : List (Value S)) : ListPredicate S :=
  match oneArray lib db values with
  | some array => arrayOperand operator array
  | none =>
    match oneJson lib db values with
    | some parameter => .inJsonEach (operator == .notIn) parameter
    | none => listOf operator ((inlined values).getD (values.map .bound))

/-- A JSON column compares documents, one per listed value. -/
def documentList (operator : ListOperator) (first : Json) (rest : List Json) : ListPredicate S :=
  let negated := operator == .notIn
  rest.foldl (fun all value =>
      if negated then all.and (.jsonEquals value negated) else all.or (.jsonEquals value negated))
    (.jsonEquals first negated)

def buildNonNullListExpression (db : DatabaseType) (columnType : Option ColumnType) (operator : ListOperator)
    (values : List Json) : ListPredicate S :=
  match isJsonType columnType, values with
  | true, first :: rest => documentList operator first rest
  | _, _ => boundList lib db operator (values.map fun value => jsonToColumnValue lib value columnType)

/-- Whether a null is listed, and the other values. -/
def partitionNulls (columnType : Option ColumnType) (values : List Json) (documents : Option Bool) : Bool × List Json :=
  match documents, isJsonType columnType with
  | some sqlNull, true => (sqlNull, values)
  | documents, _ => (documents.getD false || values.any Json.isNull, values.filter fun value => !value.isNull)

def buildListExpression (db : DatabaseType) (columnType : Option ColumnType) (operator : ListOperator) (values : List Json)
    (documents : Option Bool) : ListPredicate S :=
  let (sqlNull, values) := partitionNulls columnType values documents
  let listed := buildNonNullListExpression lib db columnType operator values
  if !sqlNull then listed
  else
    match operator, values.isEmpty with
    | .isIn, true => .isNull
    | .isIn, false => listed.or .isNull
    | .notIn, true => .isNotNull
    | .notIn, false => listed.and .isNotNull

end Building

/-- What a database makes of values; `C` are the values of the column other than `NULL`. -/
structure Engine (C S : Type) where
  -- `column = value`
  equals : C → Value S → Bool
  documentEquals : C → Json → Bool
  -- `SELECT value FROM json_each(..)`
  jsonEach : String → List String

namespace Engine

variable {C S : Type} (engine : Engine C S)

/-- A comparison with a `NULL` is unknown. -/
def compare (column : Option C) (value : Value S) : Kleene :=
  if value.isNull then none else column.map fun c => engine.equals c value

def operandTruth (column : Option C) : Operand S → Option Kleene
  | .bound value => some (engine.compare column value)
  | .literal text => (parseInteger text).map fun n => engine.compare column (.bigInt (some n))

/-- The elements of an array parameter. An array of arrays is one of several dimensions to PostgreSQL,
whose elements are no arrays, and that the driver does not bind. -/
def elements : Value S → Option (List (Value S))
  | .array _ (some items) => if items.any Value.isArray then none else some items
  | _ => none

/-- What a predicate is of a row, none when the statement fails. -/
def eval (column : Option C) : ListPredicate S → Option Kleene
  -- a list without members is `1 = 2`
  | .isIn operands => (operands.mapM (engine.operandTruth column)).map Kleene.any
  | .isNotIn operands => (operands.mapM (engine.operandTruth column)).map fun truths => Kleene.not (Kleene.any truths)
  | .eqAny array => (elements array).map fun items => Kleene.any (items.map (engine.compare column))
  | .neAll array => (elements array).map fun items => Kleene.all (items.map fun item => Kleene.not (engine.compare column item))
  | .inJsonEach negated (.string (some text)) =>
    let found := Kleene.any ((engine.jsonEach text).map fun item => engine.compare column (.string (some item)))
    some (if negated then Kleene.not found else found)
  | .inJsonEach _ _ => none
  | .jsonEquals document negated => some (column.map fun c => engine.documentEquals c document != negated)
  | .isNull => some (some column.isNone)
  | .isNotNull => some (some column.isSome)
  | .and left right => do return Kleene.and (← eval column left) (← eval column right)
  | .or left right => do return Kleene.or (← eval column left) (← eval column right)

end Engine

end TideOrm.ListCondition
