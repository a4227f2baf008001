import TideOrm.Spec.JsonPath
import TideOrm.Spec.MysqlJson
import TideOrm.Spec.Placeholders

/-! JSON key and path tests (`query/db_sql.rs`): what `json_exists_bound` renders for each backend, and
what the tests are of a document. -/

namespace TideOrm.JsonExists

open Lib

section Rendering

def unknownWhenNull (columnSql test : String) : String := "CASE WHEN " ++ columnSql ++ " IS NOT NULL THEN " ++ test ++ " END"

def postgresJsonb (columnSql : String) : String := "(" ++ columnSql ++ ")::jsonb"

/-- The steps that the test looks for. -/
def targetSteps (existence : JsonExistence) (target : String) : Option (List JsonPathStep) :=
  match existence with
  | .key => some [.member target]
  | .path => parseJsonPath target.toList

/-- The one placeholder of PostgreSQL's tests, or MySQL's and SQLite's. -/
def placeholder : DatabaseType → String
  | .postgres => "$1"
  | _ => "?"

/-- MySQL's test, each indexed step with the check that its parent is an array. -/
def mysqlExists (columnSql : String) (steps : List JsonPathStep) : String × List (List Char) :=
  steps.zipIdx.foldl (fun (sql, bound) (step, index) =>
      match step with
      | .element _ =>
        (sql ++ " AND " ++ MysqlJson.guardSql columnSql .array, bound ++ [jsonPathText (steps.take index)])
      | .member _ => (sql, bound))
    ("JSON_CONTAINS_PATH(" ++ columnSql ++ ", 'one', " ++ "?" ++ ")", [jsonPathText steps])

/-- The SQL of the test, before it may be negated, and the texts it binds. -/
def existsBound (db : DatabaseType) (columnSql : String) (existence : JsonExistence) (target : String) :
    Option (String × List (List Char)) :=
  let jsonb := postgresJsonb columnSql
  match db, existence, targetSteps existence target with
  | .postgres, .key, _ => some
    (unknownWhenNull columnSql ("(jsonb_typeof(" ++ jsonb ++ ") = 'object' AND " ++ jsonb ++ " ? " ++ "$1" ++ ")"),
      [target.toList])
  | .postgres, .path, some steps => some
    (unknownWhenNull columnSql ("COALESCE(" ++ jsonb ++ " @? (" ++ "$1" ++ "::jsonpath), FALSE)"),
      ["strict ".toList ++ jsonPathText steps])
  | .postgres, .path, none => some (jsonb ++ " @? (" ++ "$1" ++ "::jsonpath)", [target.toList])
  | _, _, none => none
  | .sqlite, _, some steps => some
    (unknownWhenNull columnSql ("json_type(" ++ columnSql ++ ", " ++ "?" ++ ") IS NOT NULL"), [jsonPathText steps])
  | .mySql, _, some steps | .mariaDb, _, some steps => some (mysqlExists columnSql steps)

def negate (negated : Bool) (sql : String) : String := if negated then "NOT (" ++ sql ++ ")" else sql

def jsonExistsBound (db : DatabaseType) (columnSql : String) (existence : JsonExistence) (target : String) (negated : Bool) :
    Option (String × List (List Char)) :=
  (existsBound db columnSql existence target).map fun (sql, bound) => (negate negated sql, bound)

end Rendering

section Tests

/-- A test that binds one text. -/
inductive PathTest where
  | hasKey
  /-- `@?`, no answer being none -/
  | matchOrFalse
  | matchPath
  | hasType
  | containsPath
  | arrayAt
deriving DecidableEq

/-- The SQL of a test, before the text that it binds and after it. -/
def PathTest.sql (columnSql : String) : PathTest → String × String
  | .hasKey => ("(jsonb_typeof(" ++ postgresJsonb columnSql ++ ") = 'object' AND " ++ postgresJsonb columnSql ++ " ? ", ")")
  | .matchOrFalse => ("COALESCE(" ++ postgresJsonb columnSql ++ " @? (", "::jsonpath), FALSE)")
  | .matchPath => (postgresJsonb columnSql ++ " @? (", "::jsonpath)")
  | .hasType => ("json_type(" ++ columnSql ++ ", ", ") IS NOT NULL")
  | .containsPath => ("JSON_CONTAINS_PATH(" ++ columnSql ++ ", 'one', ", ")")
  | .arrayAt => ("JSON_TYPE(JSON_EXTRACT(" ++ columnSql ++ ", ", "))" ++ " = '" ++ "ARRAY" ++ "'")

/-- Tests that must all hold. -/
structure ExistsTest where
  first : PathTest × List Char
  rest : List (PathTest × List Char)
  /-- unknown for a NULL column -/
  unlessNull : Bool
  negated : Bool

/-- The guards of the indexed steps, with the paths of their parents. -/
def arrayGuards (steps : List JsonPathStep) : List (PathTest × List Char) :=
  steps.zipIdx.filterMap fun (step, index) =>
    match step with
    | .element _ => some (.arrayAt, jsonPathText (steps.take index))
    | .member _ => none

def existsTest (db : DatabaseType) (existence : JsonExistence) (target : String) (negated : Bool) : Option ExistsTest :=
  match db, existence, targetSteps existence target with
  | .postgres, .key, _ => some ⟨(.hasKey, target.toList), [], true, negated⟩
  | .postgres, .path, some steps => some ⟨(.matchOrFalse, "strict ".toList ++ jsonPathText steps), [], true, negated⟩
  | .postgres, .path, none => some ⟨(.matchPath, target.toList), [], false, negated⟩
  | _, _, none => none
  | .sqlite, _, some steps => some ⟨(.hasType, jsonPathText steps), [], true, negated⟩
  | .mySql, _, some steps | .mariaDb, _, some steps =>
    some ⟨(.containsPath, jsonPathText steps), arrayGuards steps, false, negated⟩

namespace ExistsTest

variable (test : ExistsTest)

/-- The SQL cut where texts are bound. -/
def testPieces (columnSql : String) (test : PathTest × List Char) : List (String ⊕ List Char) :=
  [.inl (test.1.sql columnSql).1, .inr test.2, .inl (test.1.sql columnSql).2]

def pieces (columnSql : String) : List (String ⊕ List Char) :=
  let tests := testPieces columnSql test.first ++ test.rest.flatMap fun test => .inl " AND " :: testPieces columnSql test
  let tests :=
    if test.unlessNull then .inl "CASE WHEN " :: .inl columnSql :: .inl " IS NOT NULL THEN " :: tests ++ [.inl " END"] else tests
  if test.negated then .inl "NOT (" :: tests ++ [.inl ")"] else tests

def sql (db : DatabaseType) (columnSql : String) : String :=
  String.join ((test.pieces columnSql).map (Sum.elim id fun _ => placeholder db))

def binds (columnSql : String) : List (List Char) := (test.pieces columnSql).filterMap Sum.getRight?

end ExistsTest

end Tests

section Meaning

/-- How a backend reads the texts of paths: as they are written, where it covers their steps. No
engine covers all of them (SQLite's keys end at a NUL, and indexes past 32 bits wrap or are
refused). -/
structure PathReader where
  read : List Char → Option (List JsonPathStep)
  covers : JsonPathStep → Prop
  reads : ∀ steps, (∀ step ∈ steps, covers step) → read (jsonPathText steps) = some steps

/-- The value at a path that is followed strictly. -/
def strictFind : Json → List JsonPathStep → Option Json
  | value, [] => some value
  | .object fields, .member key :: steps => (fields.lookup key).bind fun value => strictFind value steps
  | .array items, .element index :: steps => items[index.toNat]?.bind fun value => strictFind value steps
  | _, _ => none

/-- The value that MySQL finds at a path: what is no array is its own element 0. -/
def wrappedFind : Json → List JsonPathStep → Option Json
  | value, [] => some value
  | .object fields, .member key :: steps => (fields.lookup key).bind fun value => wrappedFind value steps
  | .array items, .element index :: steps => items[index.toNat]?.bind fun value => wrappedFind value steps
  | value, .element index :: steps => if index = 0 then wrappedFind value steps else none
  | _, _ => none

/-- `jsonb ? key` -/
def hasKey (key : String) : Json → Bool
  | .object fields => (fields.lookup key).isSome
  | .array items => items.any fun
    | .string item => item == key
    | _ => false
  | .string value => value == key
  | _ => false

structure Engines where
  mysql : PathReader
  sqlite : PathReader
  /-- PostgreSQL's, of a path in strict mode -/
  postgres : PathReader
  /-- `@?` of any other JSONPath -/
  lax : Json → List Char → Kleene

def Engines.reader (engines : Engines) : DatabaseType → PathReader
  | .postgres => engines.postgres
  | .mySql | .mariaDb => engines.mysql
  | .sqlite => engines.sqlite

variable (engines : Engines)

/-- `value @? path`; in strict mode what is not found is no answer. -/
def Engines.matchPath (value : Json) (path : List Char) : Kleene :=
  if "strict ".toList.isPrefixOf path then
    ((engines.postgres.read (path.drop 7)).bind (strictFind value)).map fun _ => true
  else engines.lax value path

def PathTest.truth (column : Option Json) (bound : List Char) : PathTest → Kleene
  | .hasKey => column.bind fun value =>
    Kleene.and (some (MysqlJson.jsonType value == "OBJECT")) (some (JsonExists.hasKey (String.ofList bound) value))
  | .matchOrFalse => (column.bind fun value => engines.matchPath value bound).or (some false)
  | .matchPath => column.bind fun value => engines.matchPath value bound
  | .hasType => some (column.bind fun value => (engines.sqlite.read bound).bind (strictFind value)).isSome
  | .containsPath => column.map fun value => ((engines.mysql.read bound).bind (wrappedFind value)).isSome
  | .arrayAt => (MysqlJson.guardTest .array).truth
    ((column.bind fun value => (engines.mysql.read bound).bind (wrappedFind value)).map MysqlJson.jsonType)

def ExistsTest.truth (test : ExistsTest) (column : Option Json) : Kleene :=
  let holds := Kleene.all ((test.first :: test.rest).map fun test => test.1.truth engines column test.2)
  let holds := if test.unlessNull ∧ column.isNone then none else holds
  if test.negated then Kleene.not holds else holds

/-- Each member step finds a member of an object, and each index step an element of an array. -/
inductive Reaches : Json → List JsonPathStep → Prop where
  | here (value : Json) : Reaches value []
  | member {fields : List (String × Json)} {key : String} {value : Json} {steps : List JsonPathStep}
      (hlookup : fields.lookup key = some value) (h : Reaches value steps) : Reaches (.object fields) (.member key :: steps)
  | element {items : List Json} {index : UInt64} {value : Json} {steps : List JsonPathStep}
      (hindex : items[index.toNat]? = some value) (h : Reaches value steps) : Reaches (.array items) (.element index :: steps)

end Meaning

end TideOrm.JsonExists
