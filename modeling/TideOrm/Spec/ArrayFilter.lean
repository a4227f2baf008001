import TideOrm.Spec.ListCondition
import TideOrm.Spec.MysqlJson
import TideOrm.Spec.SqliteJson

/-! Array filters (`query/sql/condition_builders/range_json_array.rs`, `query/db_sql/arrays.rs`): what each
backend's elements are tested for, and what the predicates are of a column. -/

namespace TideOrm.ArrayFilter

open Lib ListCondition

section Shapes

/-- The shapes every backend assembles from tests `A` of one value, and tests `O` that select the elements
of a column which offend. -/
inductive ArrayTest (A O : Type) where
  | matchNothing
  | isNotNull
  | conjunction (checks : List A)
  | disjunction (checks : List A)
  /-- not NULL, and without an element that offends; without a test, every element offends -/
  | noneOffends (offending : Option O)

namespace ArrayTest

variable {A O M : Type}

def map {B P : Type} (f : A → B) (g : O → P) : ArrayTest A O → ArrayTest B P
  | matchNothing => matchNothing
  | isNotNull => isNotNull
  | conjunction checks => conjunction (checks.map f)
  | disjunction checks => disjunction (checks.map f)
  | noneOffends offending => noneOffends (offending.map g)

def joined (checks : List A) (combine : List A → ArrayTest A O) (empty : ArrayTest A O) : ArrayTest A O :=
  if checks.isEmpty then empty else combine checks

def allElements (checks : List A) : ArrayTest A O := joined checks .conjunction .isNotNull

def anyElement (checks : List A) : ArrayTest A O := joined checks .disjunction .matchNothing

def arrayContainedBy (offending : Option O) : ArrayTest A O := .noneOffends offending

/-- The SQL over a column, whose elements are `source`, cut where values are bound. -/
def pieces (column source : String) (check : A → List (String ⊕ M)) (offends : O → List (String ⊕ M)) :
    ArrayTest A O → List (String ⊕ M)
  | .matchNothing => [.inl "0 = 1"]
  | .isNotNull => [.inl (column ++ " IS NOT NULL")]
  | .conjunction checks => .inl "(" :: ([.inl " AND "].intercalate (checks.map check) ++ [.inl ")"])
  | .disjunction checks => .inl "(" :: ([.inl " OR "].intercalate (checks.map check) ++ [.inl ")"])
  | .noneOffends none => [.inl ("(" ++ column ++ " IS NOT NULL AND NOT EXISTS (SELECT 1 FROM " ++ source ++ "))")]
  | .noneOffends (some offending) =>
    .inl ("(" ++ column ++ " IS NOT NULL AND NOT EXISTS (SELECT 1 FROM " ++ source ++ " WHERE ") :: (offends offending ++ [.inl "))"])

end ArrayTest

end Shapes

section Postgres

/-- What an element of a list is not contained for. -/
inductive PostgresOffending (M : Type) where
  | isNotNull
  | notIn (nullOffends : Bool) (operands : List M)

variable {M : Type}

def postgresArrayContains (operands : List M) : ArrayTest M (PostgresOffending M) := .allElements operands

def postgresArrayOverlaps (operands : List M) : ArrayTest M (PostgresOffending M) := .anyElement operands

def postgresArrayContainedBy (operands : List M) (nullAllowed : Bool) : ArrayTest M (PostgresOffending M) :=
  .arrayContainedBy <| match operands.isEmpty, nullAllowed with
    | true, false => none
    | true, true => some .isNotNull
    | false, false => some (.notIn true operands)
    | false, true => some (.notIn false operands)

def PostgresOffending.map {N : Type} (h : M → N) : PostgresOffending M → PostgresOffending N
  | isNotNull => isNotNull
  | notIn nullOffends operands => notIn nullOffends (operands.map h)

def postgresElement : String := "tideorm_array_element" ++ ".element"

def PostgresOffending.pieces : PostgresOffending M → List (String ⊕ M)
  | .isNotNull => [.inl (postgresElement ++ " IS NOT NULL")]
  | .notIn nullOffends operands =>
    (if nullOffends then [.inl (postgresElement ++ " IS NULL OR ")] else []) ++ .inl (postgresElement ++ " NOT IN (") ::
      ([.inl ", "].intercalate (operands.map fun operand => [.inr operand]) ++ [.inl ")"])

/-- The SQL with `$1`, `$2`, .. where the values are bound. -/
def postgresPieces (column : String) (test : ArrayTest M (PostgresOffending M)) : List (String ⊕ M) :=
  test.pieces column ("unnest(" ++ column ++ ") AS " ++ "tideorm_array_element" ++ "(element)")
    (fun operand => [.inr operand, .inl (" = ANY(" ++ column ++ ")")]) PostgresOffending.pieces

def jsonElements : Option ListCondition.ColumnType → Bool
  | some (.array element) => isJsonType (some element)
  | _ => false

variable {S : Type} (lib : Libraries S)

/-- A JSON document is itself in an array of documents, a null too. -/
def jsonToArrayElement (value : Json) (column : Option ListCondition.ColumnType) : Value S :=
  match column with
  | some (.array element) => if isJsonType (some element) then .json (some value) else jsonToColumnValue lib value (some element)
  | _ => jsonToDbValue lib value

/-- The values that are not null, and whether a null was among them. -/
def splitNulls (values : List Json) : List Json × Bool :=
  let listed := values.filter fun value => !value.isNull
  (listed, decide (listed.length < values.length))

/-- The list as far as it is bound, and whether it admits null elements. -/
def postgresListed (columnType : Option ListCondition.ColumnType) (operator : ArrayOperator) (values : List Json) : List Json × Bool :=
  match operator, jsonElements columnType with
  | .containedBy, false => splitNulls values
  | _, _ => (values, false)

def postgresTest (operator : ArrayOperator) (operands : List M) (nullAllowed : Bool) : ArrayTest M (PostgresOffending M) :=
  match operator with
  | .contains => postgresArrayContains operands
  | .containedBy => postgresArrayContainedBy operands nullAllowed
  | .overlaps => postgresArrayOverlaps operands

end Postgres

section Mysql

inductive MysqlArray where
  | containment (containment : MysqlJson.Containment)
  | elements (test : ArrayTest Json Empty)

-- a JSON value as text
variable (text : Json → String)

/-- A containment cut where its document, as text, and the paths of its guards are bound. -/
def containmentPieces (column : String) (containment : MysqlJson.Containment) : List (String ⊕ String) :=
  (if containment.columnHolds then [.inl ("JSON_CONTAINS(" ++ column ++ ", "), .inr (text containment.document), .inl ")"]
    else [.inl "JSON_CONTAINS(", .inr (text containment.document), .inl (", " ++ column ++ ")")]) ++
  containment.guards.flatMap fun (path, kind) =>
    let test := MysqlJson.guardTest kind
    [.inl (" AND " ++ (if test.whenAbsent.isSome then "COALESCE(" else "") ++ "JSON_TYPE(JSON_EXTRACT(" ++ column ++ ", "), .inr path,
      .inl ("))" ++ test.whenAbsent.elim "" (fun name => ", '" ++ name ++ "')") ++ (if test.differs then " <> '" else " = '") ++
        test.name ++ "'")]

def mysqlPieces (column : String) (test : MysqlArray) : List (String ⊕ String) :=
  let bound := match test with
    | .containment containment => containmentPieces text column containment
    | .elements test => test.pieces column "" (fun value => [.inl ("JSON_CONTAINS(" ++ column ++ ", "), .inr (text value), .inl ")"]) fun _ => []
  .inl ("(JSON_TYPE(" ++ column ++ ") = 'ARRAY' AND (") :: (bound ++ [.inl "))"])

def mysqlTest (operator : ArrayOperator) (values : List Json) : MysqlArray :=
  match operator with
  | .contains => .containment (MysqlJson.mysqlJsonContains text (.array values))
  | .containedBy => .containment (MysqlJson.mysqlJsonContainedBy text (.array values))
  | .overlaps => .elements (.anyElement values)

/-- The values that are bound with the test. -/
def mysqlValues (column : String) (values : List Json) : MysqlArray → List String
  | .containment containment => (MysqlJson.render text column containment).2
  | .elements _ => values.map text

end Mysql

section Sqlite

open SqliteJson (Document NumberText Test JsonTests)

variable (numberText : JsonNumber → NumberText)

mutual

/-- A value as SQLite reads its text. -/
def documentOf : Json → Document
  | .null => .null
  | .bool b => .bool b
  | .number n => .number (numberText n)
  | .string s => .string s
  | .array items => .array (documentsOf items)
  | .object fields => .object (membersOf fields)

def documentsOf : List Json → List Document
  | [] => []
  | item :: items => documentOf item :: documentsOf items

def membersOf : List (String × Json) → List (String × Document)
  | [] => []
  | (key, value) :: fields => (key, documentOf value) :: membersOf fields

end

/-- A test that the `json_each` row `tideorm_element` holds the value. -/
def sqliteJsonElementEquals (value : Document) : Test Unit × List SqliteJson.Value :=
  let (test, tests) := SqliteJson.equals value (.row 0) ⟨[], 0⟩
  (test, tests.values)

def sqliteTest {M : Type} (operator : ArrayOperator) (checks : List (Test M)) : ArrayTest (Test M) (Test M) :=
  match operator with
  | .contains => .allElements (checks.map (.exist .document 0))
  | .overlaps => .anyElement (checks.map (.exist .document 0))
  | .containedBy => .arrayContainedBy (if checks.isEmpty then none else some (.not (SqliteJson.anyOf checks)))

/-- The SQL of the test; MySQL's and SQLite's are guarded by the column's own type. -/
def sqlitePieces {M : Type} (column : String) (test : ArrayTest (Test M) (Test M)) : List (String ⊕ M) :=
  .inl ("(json_type(" ++ column ++ ") = 'array' AND (") ::
    (test.pieces column ("json_each(" ++ column ++ ") AS " ++ SqliteJson.aliasName 0) (fun test => test.pieces column)
      (fun test => test.pieces column) ++ [.inl "))"])

end Sqlite

section Building

/-- A predicate with the values it binds. -/
inductive ArrayExpression (S : Type) where
  | matchNothing
  | postgres (test : ArrayTest Unit (PostgresOffending Unit)) (values : List (Value S))
  | mysql (test : MysqlArray) (values : List String)
  | sqlite (test : ArrayTest (SqliteJson.Test Unit) (SqliteJson.Test Unit)) (values : List SqliteJson.Value)

variable {S : Type} (lib : Libraries S) (text : Json → String) (numberText : JsonNumber → SqliteJson.NumberText)

def buildArrayExpression (db : DatabaseType) (column : String) (columnType : Option ListCondition.ColumnType) (operator : ArrayOperator)
    (values : List Json) : ArrayExpression S :=
  if values.isEmpty ∧ operator = .overlaps then .matchNothing
  else
    match db with
    | .postgres =>
      let (listed, nullAllowed) := postgresListed columnType operator values
      .postgres (postgresTest operator (List.replicate listed.length ()) nullAllowed)
        (listed.map fun value => jsonToArrayElement lib value columnType)
    | .mySql | .mariaDb => .mysql (mysqlTest text operator values) (mysqlValues text column values (mysqlTest text operator values))
    | .sqlite =>
      let built := values.map fun value => sqliteJsonElementEquals (documentOf numberText value)
      .sqlite (sqliteTest operator (built.map Prod.fst)) (built.flatMap Prod.snd)

end Building

section Meaning

/-- What the test of a column is, when its checks and the elements that offend are known. -/
def ArrayTest.truth {A O : Type} (notNull : Bool) (check : A → Kleene) (offends : Option O → Bool) : ArrayTest A O → Kleene
  | .matchNothing => some false
  | .isNotNull => some notNull
  | .conjunction checks => Kleene.all (checks.map check)
  | .disjunction checks => Kleene.any (checks.map check)
  | .noneOffends offending => Kleene.and (some notNull) (some !offends offending)

/-- What the backends make of values; `C` are PostgreSQL's elements other than `NULL`. -/
structure Engines (C S : Type) where
  postgres : Engine C S
  -- how MySQL compares scalars, and its `JSON_EXTRACT`
  equal : Json → Json → Bool
  extract : Json → String → Option Json
  root : ∀ value, extract value "$" = some value

/-- What a column holds, as each backend holds it. -/
structure Row (C : Type) where
  postgres : Option (List (Option C))
  mysql : Option Json
  sqlite : Option SqliteJson.Document

variable {C S : Type}

def Engines.offends (engines : Engines C S) (item : Option C) : Option (PostgresOffending (Value S)) → Bool
  | none => true
  | some .isNotNull => item.isSome
  | some (.notIn nullOffends operands) =>
    Kleene.or (some (nullOffends && item.isNone)) (Kleene.not (Kleene.any (operands.map (engines.postgres.compare item)))) == some true

def Engines.postgresTruth (engines : Engines C S) (column : Option (List (Option C)))
    (test : ArrayTest (Value S) (PostgresOffending (Value S))) : Kleene :=
  test.truth column.isSome
    -- `operand = ANY(column)`
    (fun operand => column.bind fun items => Kleene.any (items.map fun item => engines.postgres.compare item operand))
    fun offending => (column.getD []).any fun item => engines.offends item offending

def Engines.mysqlTruth (engines : Engines C S) (column : Option Json) (test : MysqlArray) : Kleene :=
  column.bind fun value => Kleene.and (some (MysqlJson.jsonType value == "ARRAY")) <| match test with
    | .containment containment => containment.truth engines.equal engines.extract value
    | .elements test => test.truth true (fun candidate => some (MysqlJson.jsonContains engines.equal value candidate)) fun _ => false

section Sqlite

open SqliteJson (Document Test jsonEach jsonType)

/-- A test of the rows of a column; a NULL column has none. -/
def sqliteCheck (column : Option Document) (check : Test SqliteJson.Value) : Option Bool :=
  column.elim (some false) fun document => check.eval document fun _ => none

/-- The test behind the guard, from the left up to its answer; none when a test is not read. -/
def sqliteInner (column : Option Document) : ArrayTest (Test SqliteJson.Value) (Test SqliteJson.Value) → Option Bool
  | .matchNothing => some false
  | .isNotNull => some column.isSome
  | .conjunction checks => everyRow (sqliteCheck column) checks
  | .disjunction checks => someRow (sqliteCheck column) checks
  | .noneOffends none => both (some column.isSome) ((column.elim (some []) jsonEach).map fun rows => rows.isEmpty)
  | .noneOffends (some offending) => both (some column.isSome) ((sqliteCheck column (.exist .document 0 offending)).map Bool.not)

def sqliteTruth (column : Option Document) (test : ArrayTest (Test SqliteJson.Value) (Test SqliteJson.Value)) : Option Kleene :=
  match column.map fun document => jsonType document == "array" with
  | none => (sqliteInner column test).map fun inner => Kleene.and none (some inner)
  | some isArray => (both (some isArray) (sqliteInner column test)).map some

end Sqlite

/-- The values stand in the order of the markers. -/
def InOrder {M : Type} (bound : List (String ⊕ M)) (built : List (String ⊕ Unit)) (values : List M) : Prop :=
  bound.map (Sum.map id fun _ => ()) = built ∧ bound.filterMap Sum.getRight? = values

/-- What a backend makes of the row: each value is bound at its own marker of the test that was built. -/
inductive Answers (engines : Engines C S) (text : Json → String) (columnSql : String) (row : Row C) : ArrayExpression S → Kleene → Prop where
  | matchNothing : Answers engines text columnSql row .matchNothing (some false)
  | postgres {test built values} (hbuilt : test.map (fun _ => ()) (PostgresOffending.map fun _ => ()) = built)
      (h : InOrder (postgresPieces columnSql test) (postgresPieces columnSql built) values) :
      Answers engines text columnSql row (.postgres built values) (engines.postgresTruth row.postgres test)
  | mysql {test values} (h : (mysqlPieces text columnSql test).filterMap Sum.getRight? = values) :
      Answers engines text columnSql row (.mysql test values) (engines.mysqlTruth row.mysql test)
  | sqlite {test built values truth} (hbuilt : test.map SqliteJson.Test.erase SqliteJson.Test.erase = built)
      (h : InOrder (sqlitePieces columnSql test) (sqlitePieces columnSql built) values)
      (htruth : sqliteTruth row.sqlite test = some truth) : Answers engines text columnSql row (.sqlite built values) truth

end Meaning

section Selection

variable (numberText : JsonNumber → SqliteJson.NumberText)

/-- `=` of scalars, numbers by value. -/
def Same (item value : Json) : Prop := SqliteJson.Equal (documentOf numberText item) (documentOf numberText value)

/-- The column has every listed value, only listed values, or some listed value. -/
def Selects (operator : ArrayOperator) (values : List Json) (column : Option (List Json)) : Prop :=
  ∃ items, column = some items ∧ match operator with
    | .contains => ∀ value ∈ values, ∃ item ∈ items, Same numberText item value
    | .containedBy => ∀ item ∈ items, ∃ value ∈ values, Same numberText item value
    | .overlaps => ∃ value ∈ values, ∃ item ∈ items, Same numberText item value

variable {C S : Type}

/-- The column with its elements as PostgreSQL stores them, and as a document. -/
def rowOf (store : Json → Option C) (column : Option (List Json)) : Row C where
  postgres := column.map fun items => items.map store
  mysql := column.map .array
  sqlite := column.map fun items => .array (documentsOf numberText items)

/-- PostgreSQL holds the item, a null as `NULL` but in an array of documents, and a listed value, bound
for the column, is equal to it when it is the same value. -/
def HeldAs (lib : Libraries S) (engines : Engines C S) (columnType : Option ListCondition.ColumnType) (values : List Json)
    (store : Json → Option C) (item : Json) : Prop :=
  if item.isNull ∧ jsonElements columnType = false then store item = none
  else ∃ c, store item = some c ∧ ∀ value ∈ values, (jsonElements columnType = true ∨ value.isNull = false) →
    (engines.postgres.equals c (jsonToArrayElement lib value columnType) = true ↔ Same numberText item value)

/-- MySQL tells an element and a listed value apart when they are not the same. -/
def ComparedAs (engines : Engines C S) (values : List Json) (item : Json) : Prop :=
  ∀ value ∈ values, (engines.equal item value = true ↔ Same numberText item value) ∧
    (engines.equal value item = true ↔ Same numberText item value)

/-- What each backend must make of an element. -/
def Told (lib : Libraries S) (engines : Engines C S) (columnType : Option ListCondition.ColumnType) (values : List Json)
    (store : Json → Option C) (item : Json) : DatabaseType → Prop
  | .postgres => HeldAs numberText lib engines columnType values store item
  | .mySql | .mariaDb => ComparedAs numberText engines values item
  | .sqlite => True

end Selection

end TideOrm.ArrayFilter
