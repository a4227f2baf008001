import TideOrm.Lib.Coefficient
import TideOrm.Lib.ShortCircuit
import TideOrm.Lib.SqliteText
import TideOrm.Spec.Validation

/-! JSON containment and equality on SQLite (`query/db_sql/sqlite_json.rs`): the tests that stand for
`@>`, `<@` and `=`, and what they are of a document. -/

namespace TideOrm.SqliteJson

open Lib

section Documents

structure Exponent where
  upper : Bool
  sign : List Char
  digits : List Char
  sign_is : sign = [] ∨ sign = ['+'] ∨ sign = ['-']
  digits_are : readsDigits digits = true
  small : digitsValue digits < 2 ^ 30

/-- The text of a JSON number, within the sizes of a `numeric`. -/
structure NumberText where
  negative : Bool
  whole : List Char
  -- empty where there is no point
  fraction : List Char
  exponent : Option Exponent
  whole_are : readsDigits whole = true
  fraction_are : fraction.all Char.isDigit = true
  short : whole.length + fraction.length < 2 ^ 30

def Exponent.text (e : Exponent) : List Char := (if e.upper then 'E' else 'e') :: (e.sign ++ e.digits)

def Exponent.value (e : Exponent) : ℤ := if e.sign = ['-'] then -digitsValue e.digits else digitsValue e.digits

namespace NumberText

variable (n : NumberText)

def mantissa : List Char := n.whole ++ if n.fraction = [] then [] else '.' :: n.fraction

def text : List Char := (if n.negative then ['-'] else []) ++ (n.mantissa ++ n.exponent.elim [] Exponent.text)

/-- The power of ten that the last digit counts. -/
def scale : ℤ := n.exponent.elim 0 Exponent.value - n.fraction.length

/-- The number that the text denotes. -/
def value : ℚ := (if n.negative then -1 else 1) * (digitsValue (n.whole ++ n.fraction) * 10 ^ n.scale)

end NumberText

structure ExponentSpelling where
  upper : Bool
  sign : List Char
  digits : List Char
  sign_is : sign = [] ∨ sign = ['+'] ∨ sign = ['-']
  digits_are : readsDigits digits = true

/-- The text of any JSON number. -/
structure NumberSpelling where
  negative : Bool
  whole : List Char
  -- empty where there is no point
  fraction : List Char
  exponent : Option ExponentSpelling
  whole_are : readsDigits whole = true
  fraction_are : fraction.all Char.isDigit = true

def ExponentSpelling.text (e : ExponentSpelling) : List Char := (if e.upper then 'E' else 'e') :: (e.sign ++ e.digits)

def ExponentSpelling.value (e : ExponentSpelling) : ℤ := if e.sign = ['-'] then -digitsValue e.digits else digitsValue e.digits

namespace NumberSpelling

variable (n : NumberSpelling)

def mantissa : List Char := n.whole ++ if n.fraction = [] then [] else '.' :: n.fraction

def text : List Char := (if n.negative then ['-'] else []) ++ (n.mantissa ++ n.exponent.elim [] ExponentSpelling.text)

def digits : List Char := n.whole ++ n.fraction

def exponentValue : ℤ := n.exponent.elim 0 ExponentSpelling.value

/-- The power of ten that the last digit counts. -/
def scale : ℤ := n.exponentValue - n.fraction.length

/-- The power of ten above the zeros at the end. -/
def normalScale : ℤ := n.scale + trailingZeros n.digits

def value : ℚ := (if n.negative then -1 else 1) * (digitsValue n.digits * 10 ^ n.scale)

end NumberSpelling

def Exponent.spelling (e : Exponent) : ExponentSpelling := ⟨e.upper, e.sign, e.digits, e.sign_is, e.digits_are⟩

def NumberText.spelling (n : NumberText) : NumberSpelling :=
  ⟨n.negative, n.whole, n.fraction, n.exponent.map Exponent.spelling, n.whole_are, n.fraction_are⟩

inductive Document where
  | null
  | bool (b : Bool)
  | number (n : NumberText)
  | string (s : String)
  | array (items : List Document)
  | object (fields : List (String × Document))

def isScalar : Document → Bool
  | .array _ | .object _ => false
  | _ => true

/-- Of each object the keys differ. -/
inductive Keyed : Document → Prop where
  | scalar {value : Document} (h : isScalar value = true) : Keyed value
  | array {items : List Document} (h : ∀ item ∈ items, Keyed item) : Keyed (.array items)
  | object {fields : List (String × Document)} (hkeys : (fields.map Prod.fst).Nodup)
      (h : ∀ field ∈ fields, Keyed field.2) : Keyed (.object fields)

/-- A value of `jsonb`. -/
structure Jsonb where
  document : Document
  keyed : Keyed document

/-- `=` of `jsonb`: numbers are compared by value, objects by what each key finds. -/
inductive Equal : Document → Document → Prop where
  | null : Equal .null .null
  | bool (b : Bool) : Equal (.bool b) (.bool b)
  | number {n m : NumberText} (h : n.value = m.value) : Equal (.number n) (.number m)
  | string (s : String) : Equal (.string s) (.string s)
  | array {items others : List Document} (h : List.Forall₂ Equal items others) : Equal (.array items) (.array others)
  | object {fields others : List (String × Document)}
      (h : ∀ key, Option.Rel Equal (fields.lookup key) (others.lookup key)) : Equal (.object fields) (.object others)

/-- Containment below the top level: like in like, each element and member in one that was found for it. -/
inductive DeepContains : Document → Document → Prop where
  | scalar {target candidate : Document} (hscalar : isScalar candidate = true) (h : Equal target candidate) :
      DeepContains target candidate
  | array {items candidates : List Document} (found : Document → Document)
      (hfound : ∀ candidate ∈ candidates, found candidate ∈ items)
      (h : ∀ candidate ∈ candidates, DeepContains (found candidate) candidate) :
      DeepContains (.array items) (.array candidates)
  | object {fields members : List (String × Document)} (found : String → Document)
      (hfound : ∀ member ∈ members, fields.lookup member.1 = some (found member.1))
      (h : ∀ member ∈ members, DeepContains (found member.1) member.2) :
      DeepContains (.object fields) (.object members)

/-- `target @> candidate`: an array at the top also contains a scalar that it has. -/
def Contains (target candidate : Document) : Prop :=
  DeepContains target candidate ∨
    isScalar candidate = true ∧ ∃ items, target = .array items ∧ ∃ item ∈ items, DeepContains item candidate

end Documents

section Text

/-- One JSON node that a test inspects: the column itself, or a `json_each` row. -/
inductive Node where
  | document
  | row (row : ℕ)

/-- The name of a `json_each` row: `JsonTests::alias` counts from 1, and 0 is the element that an array
filter names itself. -/
def aliasName (row : ℕ) : String := if row = 0 then "tideorm_element" else "tide_json_" ++ String.ofList (decimal row)

namespace Node

variable (column : String)

def json : Node → String
  | document => column
  | row k => aliasName k ++ ".value"

def kind : Node → String
  | document => "json_type(" ++ column ++ ")"
  | row k => aliasName k ++ ".type"

def rawJson : Node → String
  | document => "(" ++ column ++ " -> '$')"
  | row k => "(" ++ aliasName k ++ ".json -> " ++ aliasName k ++ ".fullkey)"

def atom : Node → String
  | document => "json_extract(" ++ column ++ ", '$')"
  | row k => aliasName k ++ ".atom"

end Node

/-- What a number's parts are compared with. -/
inductive Comparison (M : Type) where
  | empty
  | parts (coefficient negative scale : M)
  | never

/-- SQL tests; `M` stands where a value is bound. -/
inductive Test (M : Type) where
  | kindIs (node : Node) (kind : String)
  | isNumber (node : Node)
  | normal (node : Node) (comparison : Comparison M)
  | atomIs (node : Node) (value : M)
  | keyIs (row : ℕ) (value : M)
  | keyAt (row index : ℕ)
  | memberCount (node : Node) (count : ℕ)
  | arrayLength (node : Node) (count : ℕ)
  | no
  | and (left right : Test M)
  | or (left right : Test M)
  | not (test : Test M)
  | group (test : Test M)
  | exist (node : Node) (row : ℕ) (test : Test M)

variable {M : Type}

def Comparison.pieces : Comparison M → List (String ⊕ M)
  | .empty => [.inl "coefficient = ''"]
  | .parts coefficient negative scale =>
    [.inl "coefficient = ", .inr coefficient, .inl " AND negative = ", .inr negative, .inl " AND scale = ", .inr scale]
  | .never => [.inl "0"]

/-- The parts of the number whose JSON text is `raw`, in decimal. -/
def normalParts (raw : String) : String :=
  "(WITH tide_num_token AS (SELECT lower(" ++ raw ++ ") AS token), " ++
  "tide_num_unsigned AS (SELECT substr(token, 1, 1) = '-' AS negative, " ++
  "CASE WHEN substr(token, 1, 1) = '-' THEN substr(token, 2) ELSE token END AS digits FROM tide_num_token), " ++
  "tide_num_parts AS (SELECT negative, " ++
  "CASE WHEN instr(digits, 'e') > 0 THEN substr(digits, 1, instr(digits, 'e') - 1) ELSE digits END AS mantissa, " ++
  "CASE WHEN instr(digits, 'e') > 0 THEN CAST(substr(digits, instr(digits, 'e') + 1) AS INTEGER) ELSE 0 END AS exponent " ++
  "FROM tide_num_unsigned), " ++
  "tide_num_digits AS (SELECT negative, replace(mantissa, '.', '') AS digits, " ++
  "exponent - CASE WHEN instr(mantissa, '.') > 0 THEN length(mantissa) - instr(mantissa, '.') ELSE 0 END AS exponent " ++
  "FROM tide_num_parts), " ++
  "tide_num_normal AS (SELECT negative, ltrim(rtrim(digits, '0'), '0') AS coefficient, " ++
  "exponent + length(digits) - length(rtrim(digits, '0')) AS scale FROM tide_num_digits) SELECT "

/-- The SQL of a test, cut where the values are bound. -/
def Test.pieces (column : String) : Test M → List (String ⊕ M)
  | .kindIs node kind => [.inl (node.kind column ++ " = '" ++ kind ++ "'")]
  | .isNumber node => [.inl (node.kind column ++ " IN ('integer', 'real')")]
  | .normal node comparison =>
    .inl (normalParts (node.rawJson column)) :: (comparison.pieces ++ [.inl " FROM tide_num_normal)"])
  | .atomIs node value => [.inl (node.atom column ++ " = "), .inr value]
  | .keyIs row value => [.inl (aliasName row ++ ".key = "), .inr value]
  | .keyAt row index => [.inl (aliasName row ++ ".key = " ++ String.ofList (decimal index))]
  | .memberCount node count =>
    [.inl ("(SELECT COUNT(*) FROM json_each(" ++ node.json column ++ ")) = " ++ String.ofList (decimal count))]
  | .arrayLength node count => [.inl ("json_array_length(" ++ node.json column ++ ") = " ++ String.ofList (decimal count))]
  | .no => [.inl "0"]
  | .and left right => left.pieces column ++ .inl " AND " :: right.pieces column
  | .or left right => left.pieces column ++ .inl " OR " :: right.pieces column
  | .not test => .inl "NOT " :: test.pieces column
  | .group test => .inl "(" :: (test.pieces column ++ [.inl ")"])
  | .exist node row test =>
    .inl ("EXISTS (SELECT 1 FROM json_each(" ++ node.json column ++ ") AS " ++ aliasName row ++ " WHERE ") ::
      (test.pieces column ++ [.inl ")"])

def Test.sql (column : String) (test : Test M) : String := String.join ((test.pieces column).map (Sum.elim id fun _ => "?"))

end Text

section Erasure

variable {M : Type}

def Comparison.erase : Comparison M → Comparison Unit
  | .parts _ _ _ => .parts () () ()
  | .empty => .empty
  | .never => .never

/-- The test with a marker where each value is bound. -/
def Test.erase : Test M → Test Unit
  | .kindIs node kind => .kindIs node kind
  | .isNumber node => .isNumber node
  | .normal node comparison => .normal node comparison.erase
  | .atomIs node _ => .atomIs node ()
  | .keyIs row _ => .keyIs row ()
  | .keyAt row index => .keyAt row index
  | .memberCount node count => .memberCount node count
  | .arrayLength node count => .arrayLength node count
  | .no => .no
  | .and left right => .and left.erase right.erase
  | .or left right => .or left.erase right.erase
  | .not test => .not test.erase
  | .group test => .group test.erase
  | .exist node row test => .exist node row test.erase

end Erasure

section Building

/-- A bound value. -/
inductive Value where
  | text (text : List Char)
  | bool (b : Bool)
  | int (n : ℤ)
deriving DecidableEq

structure JsonTests where
  values : List Value
  aliases : ℕ

/-- A test with its markers, and the builder after it. -/
abbrev Built := Test Unit × JsonTests

def JsonTests.alias (tests : JsonTests) : ℕ × JsonTests :=
  (tests.aliases + 1, { tests with aliases := tests.aliases + 1 })

def JsonTests.push (tests : JsonTests) (values : List Value) : JsonTests := { tests with values := tests.values ++ values }

variable {M : Type}

def joinAnd (first : Test M) (checks : List (Test M)) : Test M := .group (checks.foldl .and first)

/-- The alternatives joined with OR; an empty list is false. -/
def anyOf : List (Test M) → Test M
  | [] => .group .no
  | first :: rest => .group (rest.foldl .or first)

/-- `str::parse::<i64>` -/
def parseI64 (text : List Char) : Option ℤ := (parseInteger text).filter fun n => Sqlite.i64Min ≤ n ∧ n ≤ Sqlite.i64Max

/-- The checked operations of `i64`. -/
def checkedI64 (n : ℤ) : Option ℤ := if Sqlite.i64Min ≤ n ∧ n ≤ Sqlite.i64Max then some n else none

/-- `split_once` at one of the characters. -/
def splitOnce (isSeparator : Char → Bool) (text : List Char) : Option (List Char × List Char) :=
  match text.dropWhile fun ch => !isSeparator ch with
  | [] => none
  | _ :: rest => some (text.takeWhile fun ch => !isSeparator ch, rest)

def mantissaExponent (unsigned : List Char) : List Char × Option ℤ :=
  match splitOnce isExponentMark unsigned with
  | some (mantissa, exponent) => (mantissa, parseI64 exponent)
  | none => (unsigned, some 0)

def fractionLength (mantissa : List Char) : ℕ :=
  match splitOnce (· == '.') mantissa with
  | some (_, fraction) => fraction.length
  | none => 0

/-- A JSON number's text as its sign, its coefficient without leading or trailing zeros and the power of
ten that multiplies it. -/
def decimalParts (text : List Char) : Bool × List Char × Option ℤ :=
  let negative := text.head? == some '-'
  let unsigned := text.dropWhile (· == '-')
  let (mantissa, exponent) := mantissaExponent unsigned
  let digits := mantissa.filter (· != '.')
  let scale := exponent.bind fun exponent => (checkedI64 (fractionLength mantissa)).bind fun fraction =>
    (checkedI64 (exponent - fraction)).bind fun scale => (checkedI64 (trailingZeros digits)).bind fun zeros =>
    checkedI64 (scale + zeros)
  (negative, coefficient digits, scale)

/-- The node holds the number whose JSON text is `text`. -/
def numberEquals (node : Node) (text : List Char) (tests : JsonTests) : Built :=
  let (negative, coefficient, scale) := decimalParts text
  let (comparison, tests) := match coefficient.isEmpty, scale with
    | true, _ => (Comparison.empty, tests)
    | false, some scale => (Comparison.parts () () (), tests.push [.text coefficient, .bool negative, .int scale])
    | false, none => (Comparison.never, tests)
  (.group (.and (.isNumber node) (.normal node comparison)), tests)

def scalarEquals (node : Node) (scalar : Document) (tests : JsonTests) : Built :=
  match scalar with
  | .null => (.kindIs node "null", tests)
  | .bool true => (.kindIs node "true", tests)
  | .bool false => (.kindIs node "false", tests)
  | .number n => numberEquals node n.text tests
  | .string s => (.group (.and (.kindIs node "text") (.atomIs node ())), tests.push [.text s.toList])
  -- containers are not scalars
  | .array _ | .object _ => (.no, tests)

/-- Some element of the array `node` passes the test that is built for it. -/
def someElement (build : Node → JsonTests → Built) (node : Node) (tests : JsonTests) : Built :=
  let (row, tests) := tests.alias
  let (element, tests) := build (.row row) tests
  (.exist node row element, tests)

/-- Some row of `node` has the key and passes the test that is built for it. -/
def someMember (key : String) (build : Node → JsonTests → Built) (node : Node) (tests : JsonTests) : Built :=
  let (row, tests) := tests.alias
  let (member, tests) := build (.row row) (tests.push [.text key.toList])
  (.exist node row (.and (.keyIs row ()) member), tests)

/-- The row of the array `node` at the index passes the test that is built for it. -/
def elementAt (index : ℕ) (build : Node → JsonTests → Built) (node : Node) (tests : JsonTests) : Built :=
  let (row, tests) := tests.alias
  let (element, tests) := build (.row row) tests
  (.exist node row (.and (.keyAt row index) element), tests)

mutual

/-- `contains` below the top level. -/
def containsBelow : Document → Node → JsonTests → Built
  | .object members, node, tests =>
    let (checks, tests) := memberContains members node tests
    (joinAnd (.kindIs node "object") checks, tests)
  | .array elements, node, tests =>
    let (checks, tests) := elementContains elements node tests
    (joinAnd (.kindIs node "array") checks, tests)
  | scalar, node, tests => scalarEquals node scalar tests

def memberContains : List (String × Document) → Node → JsonTests → List (Test Unit) × JsonTests
  | [], _, tests => ([], tests)
  | (key, value) :: members, node, tests =>
    let (check, tests) := someMember key (containsBelow value) node tests
    let (checks, tests) := memberContains members node tests
    (check :: checks, tests)

def elementContains : List Document → Node → JsonTests → List (Test Unit) × JsonTests
  | [], _, tests => ([], tests)
  | element :: elements, node, tests =>
    let (check, tests) := someElement (containsBelow element) node tests
    let (checks, tests) := elementContains elements node tests
    (check :: checks, tests)

end

/-- `contains` at the top level, where a scalar may also be an element. -/
def contains (candidate : Document) (node : Node) (tests : JsonTests) : Built :=
  if isScalar candidate then
    let (equal, tests) := scalarEquals node candidate tests
    let (element, tests) := someElement (containsBelow candidate) node tests
    (.group (.or equal (.group (.and (.kindIs node "array") element))), tests)
  else containsBelow candidate node tests

/-- No row of `node`, which is of the kind, fails every test that is built for it. -/
def eachPlaced (kind : String) (build : ℕ → JsonTests → List (Test Unit) × JsonTests) (node : Node) (tests : JsonTests) : Built :=
  let (row, tests) := tests.alias
  let (placed, tests) := build row tests
  (.group (.and (.kindIs node kind) (.not (.exist node row (.not (anyOf placed))))), tests)

mutual

/-- `contained_by` below the top level. -/
def containedBelow : Document → Node → JsonTests → Built
  | .object members, node, tests => eachPlaced "object" (memberPlaced members) node tests
  | .array elements, node, tests => eachPlaced "array" (elementPlaced elements) node tests
  | scalar, node, tests => scalarEquals node scalar tests

def memberPlaced : List (String × Document) → ℕ → JsonTests → List (Test Unit) × JsonTests
  | [], _, tests => ([], tests)
  | (key, value) :: members, row, tests =>
    let (member, tests) := containedBelow value (.row row) (tests.push [.text key.toList])
    let (placed, tests) := memberPlaced members row tests
    (.group (.and (.keyIs row ()) member) :: placed, tests)

def elementPlaced : List Document → ℕ → JsonTests → List (Test Unit) × JsonTests
  | [], _, tests => ([], tests)
  | element :: elements, row, tests =>
    let (check, tests) := containedBelow element (.row row) tests
    let (placed, tests) := elementPlaced elements row tests
    (check :: placed, tests)

end

def scalarsEqual : List Document → Node → JsonTests → List (Test Unit) × JsonTests
  | [], _, tests => ([], tests)
  | scalar :: scalars, node, tests =>
    let (check, tests) := scalarEquals node scalar tests
    let (checks, tests) := scalarsEqual scalars node tests
    (check :: checks, tests)

/-- `contained_by` at the top level, where a scalar may also equal an element of the container. -/
def containedBy (container : Document) (node : Node) (tests : JsonTests) : Built :=
  match container with
  | .array elements =>
    let (array, tests) := containedBelow container node tests
    let (scalars, tests) := scalarsEqual (elements.filter isScalar) node tests
    (.group (.or array (anyOf scalars)), tests)
  | _ => containedBelow container node tests

mutual

def equals : Document → Node → JsonTests → Built
  | .object members, node, tests =>
    let (checks, tests) := memberEquals members node tests
    (joinAnd (.kindIs node "object") (.memberCount node members.length :: checks), tests)
  | .array elements, node, tests =>
    let (checks, tests) := elementEquals elements 0 node tests
    (joinAnd (.kindIs node "array") (.arrayLength node elements.length :: checks), tests)
  | scalar, node, tests => scalarEquals node scalar tests

def memberEquals : List (String × Document) → Node → JsonTests → List (Test Unit) × JsonTests
  | [], _, tests => ([], tests)
  | (key, value) :: members, node, tests =>
    let (check, tests) := someMember key (equals value) node tests
    let (checks, tests) := memberEquals members node tests
    (check :: checks, tests)

def elementEquals : List Document → ℕ → Node → JsonTests → List (Test Unit) × JsonTests
  | [], _, _, tests => ([], tests)
  | element :: elements, index, node, tests =>
    let (check, tests) := elementAt index (equals element) node tests
    let (checks, tests) := elementEquals elements (index + 1) node tests
    (check :: checks, tests)

end

def built (build : Node → JsonTests → Built) : Test Unit × List Value :=
  let (test, tests) := build .document ⟨[], 0⟩
  (test, tests.values)

def sqliteJsonContains (candidate : Document) : Test Unit × List Value := built (contains candidate)

def sqliteJsonContainedBy (container : Document) : Test Unit × List Value := built (containedBy container)

def sqliteJsonEquals (value : Document) : Test Unit × List Value := built (equals value)

example : (sqliteJsonContains (.object [("a", .string "x"), ("b", .null)])).2 = [.text ['a'], .text ['x'], .text ['b']] := by
  decide

end Building

section Meaning

def Comparison.fill : Comparison Unit → List Value → Option (Comparison Value × List Value)
  | .parts _ _ _, coefficient :: negative :: scale :: values => some (.parts coefficient negative scale, values)
  | .empty, values => some (.empty, values)
  | .never, values => some (.never, values)
  | _, _ => none

/-- The values bound, from the left of the SQL. -/
def Test.fill : Test Unit → List Value → Option (Test Value × List Value)
  | .kindIs node kind, values => some (.kindIs node kind, values)
  | .isNumber node, values => some (.isNumber node, values)
  | .normal node comparison, values => (comparison.fill values).map fun (comparison, values) => (.normal node comparison, values)
  | .atomIs node _, value :: values => some (.atomIs node value, values)
  | .keyIs row _, value :: values => some (.keyIs row value, values)
  | .keyAt row index, values => some (.keyAt row index, values)
  | .memberCount node count, values => some (.memberCount node count, values)
  | .arrayLength node count, values => some (.arrayLength node count, values)
  | .no, values => some (.no, values)
  | .and left right, values => (left.fill values).bind fun (left, values) =>
    (right.fill values).map fun (right, values) => (.and left right, values)
  | .or left right, values => (left.fill values).bind fun (left, values) =>
    (right.fill values).map fun (right, values) => (.or left right, values)
  | .not test, values => (test.fill values).map fun (test, values) => (.not test, values)
  | .group test, values => (test.fill values).map fun (test, values) => (.group test, values)
  | .exist node row test, values => (test.fill values).map fun (test, values) => (.exist node row test, values)
  | _, _ => none

/-- A `json_each` row. -/
structure Row where
  key : String ⊕ ℕ
  value : Document

def Row.keyIs (bound : Value) (entry : Row) : Bool :=
  match entry.key with
  | .inl name => bound == .text name.toList
  | .inr _ => false

/-- `json_each` of an array or an object. -/
def jsonEach : Document → Option (List Row)
  | .array items => some (items.zipIdx.map fun (item, i) => ⟨.inr i, item⟩)
  | .object fields => some (fields.map fun (key, value) => ⟨.inl key, value⟩)
  | _ => none

/-- `json_type` of a value. -/
def jsonType : Document → String
  | .null => "null"
  | .bool true => "true"
  | .bool false => "false"
  | .number n => if n.fraction = [] ∧ n.exponent.isNone then "integer" else "real"
  | .string _ => "text"
  | .array _ => "array"
  | .object _ => "object"

/-- A number's sign, as a truth value, and the rest of its token. -/
def tideNumUnsigned (token : List Char) : Bool × List Char :=
  if Sqlite.substr token 1 1 = ['-'] then (true, Sqlite.substrFrom token 2) else (false, token)

def tideNumParts (digits : List Char) : List Char × ℤ :=
  let mark := Sqlite.instr digits 'e'
  if 0 < mark then (Sqlite.substr digits 1 (mark - 1), Sqlite.castInteger (Sqlite.substrFrom digits (mark + 1)))
  else (digits, 0)

def tideNumDigits (mantissa : List Char) (exponent : ℤ) : List Char × ℤ :=
  let point := Sqlite.instr mantissa '.'
  (mantissa.filter (· != '.'), exponent - if 0 < point then (mantissa.length : ℤ) - point else 0)

/-- The columns of `tide_num_normal`. -/
def tideNumNormal (raw : List Char) : Bool × List Char × ℤ :=
  let (negative, digits) := tideNumUnsigned (Sqlite.lower raw)
  let (mantissa, exponent) := tideNumParts digits
  let (digits, exponent) := tideNumDigits mantissa exponent
  (negative, coefficient digits, exponent + digits.length - (unpadded digits).length)

/-- The columns of `tide_num_normal` in SQLite's integers, which become REAL where they leave 64 bits; `fl` rounds to one. -/
def tideNumNormalValues (fl : ℚ → ℚ) (raw : List Char) : Bool × List Char × Sqlite.Value :=
  let (negative, digits) := tideNumUnsigned (Sqlite.lower raw)
  let (mantissa, exponent) := tideNumParts digits
  let point := Sqlite.instr mantissa '.'
  let digits := mantissa.filter (· != '.')
  let minus := fun (v : Sqlite.Value) (n : ℤ) => v.arith fl .add (.integer (-n))
  let exponent := minus (.integer exponent) (if 0 < point then (mantissa.length : ℤ) - point else 0)
  (negative, coefficient digits, minus (exponent.arith fl .add (.integer digits.length)) (unpadded digits).length)

def Comparison.truth : Comparison Value → Bool × List Char × ℤ → Bool
  | .empty, (_, coefficient, _) => coefficient.isEmpty
  | .parts coefficient negative scale, (negative', coefficient', scale') =>
    coefficient == .text coefficient' && negative == .bool negative' && scale == .int scale'
  | .never, _ => false

/-- The row that an alias stands for. -/
abbrev Env := ℕ → Option Row

variable (document : Document)

def Node.read (env : Env) : Node → Option Document
  | .document => some document
  | .row k => (env k).map Row.value

/-- What a test is of the document; none where `json_each` and the functions of values read what they are
not made for. -/
@[simp] def Test.eval : Test Value → Env → Option Bool
  | .kindIs node kind, env => (node.read document env).map fun value => jsonType value == kind
  | .isNumber node, env => (node.read document env).map fun value => ["integer", "real"].contains (jsonType value)
  | .normal node comparison, env => (node.read document env).bind fun value =>
    match value with
    | .number n => some (comparison.truth (tideNumNormal n.text))
    | _ => none
  | .atomIs node bound, env => (node.read document env).bind fun value =>
    match value with
    | .string s => some (bound == .text s.toList)
    | _ => none
  | .keyIs row bound, env => (env row).map (Row.keyIs bound)
  | .keyAt row index, env => (env row).map fun entry => decide (entry.key = .inr index)
  | .memberCount node count, env => ((node.read document env).bind jsonEach).map fun rows => rows.length == count
  | .arrayLength node count, env => (node.read document env).bind fun value =>
    match value with
    | .array items => some (items.length == count)
    | _ => none
  | .no, _ => some false
  | .and left right, env => both (left.eval env) (right.eval env)
  | .or left right, env => either (left.eval env) (right.eval env)
  | .not test, env => (test.eval env).map Bool.not
  | .group test, env => test.eval env
  | .exist node row test, env => ((node.read document env).bind jsonEach).bind fun rows =>
    someRow (fun entry => test.eval (Function.update env row (some entry))) rows

/-- The SQL with its values, of the document. -/
def answer (predicate : Test Unit × List Value) : Option Bool :=
  match predicate.1.fill predicate.2 with
  | some (test, []) => test.eval document fun _ => none
  | _ => none

end Meaning

end TideOrm.SqliteJson
