import TideOrm.Lib.Kleene
import TideOrm.Spec.Filters

/-! JSON containment on MySQL and MariaDB (`query/db_sql/mysql_json.rs`): `JSON_CONTAINS` and the
guards that are to give it PostgreSQL's meaning. -/

namespace TideOrm.MysqlJson

open Lib

/-- What the column's value at a path must be. -/
inductive Kind where
  | object
  | array
  | notArray
  | notObject
  | arrayOrAbsent
deriving DecidableEq

/-- A test of `JSON_TYPE(JSON_EXTRACT(column, ?))`, what it is compared with, and what stands for an
absent value. -/
structure TypeTest where
  whenAbsent : Option String
  differs : Bool
  name : String

def guardTest : Kind → TypeTest
  | .object => ⟨none, false, "OBJECT"⟩
  | .array => ⟨none, false, "ARRAY"⟩
  | .notArray => ⟨none, true, "ARRAY"⟩
  | .notObject => ⟨none, true, "OBJECT"⟩
  | .arrayOrAbsent => ⟨some "ARRAY", false, "ARRAY"⟩

def TypeTest.sql (columnSql : String) (test : TypeTest) : String :=
  let valueType := "JSON_TYPE(JSON_EXTRACT(" ++ columnSql ++ ", ?))"
  let tested := test.whenAbsent.elim valueType fun name => "COALESCE(" ++ valueType ++ ", '" ++ name ++ "')"
  tested ++ (if test.differs then " <> '" else " = '") ++ test.name ++ "'"

def guardSql (columnSql : String) (kind : Kind) : String := (guardTest kind).sql columnSql

section Guards

-- a JSON value as text
variable (text : Json → String)

/-- The path of the member `key` below `path`. -/
def jsonMemberPath (path key : String) : String := path ++ "." ++ text (.string key)

mutual

/-- A candidate object only matches an object, and a scalar below the top level never matches an array. -/
def containsGuards : Json → String → List (String × Kind) → List (String × Kind)
  | .object members, path, guards => memberContainsGuards members path guards ++ [(path, .object)]
  | .array _, _, guards => guards
  | _, path, guards => if path = "$" then guards else guards ++ [(path, .notArray)]

def memberContainsGuards : List (String × Json) → String → List (String × Kind) → List (String × Kind)
  | [], _, guards => guards
  | (key, value) :: members, path, guards =>
    memberContainsGuards members path (containsGuards value (jsonMemberPath text path key) guards)

end

mutual

/-- Where the target holds an array below the top level, the column's value there, if it has one, must be
an array; at the top level it must not be an object. -/
def containedByGuards : Json → String → List (String × Kind) → List (String × Kind)
  | .object members, path, guards => memberContainedByGuards members path guards
  | .array _, path, guards => guards ++ [(path, if path = "$" then .notObject else .arrayOrAbsent)]
  | _, _, guards => guards

def memberContainedByGuards : List (String × Json) → String → List (String × Kind) → List (String × Kind)
  | [], _, guards => guards
  | (key, value) :: members, path, guards =>
    memberContainedByGuards members path (containedByGuards value (jsonMemberPath text path key) guards)

end

/-- `JSON_CONTAINS` of the column and a document, in one order or the other, and the guards. -/
structure Containment where
  columnHolds : Bool
  document : Json
  guards : List (String × Kind)

def mysqlJsonContains (candidate : Json) : Containment := ⟨true, candidate, containsGuards text candidate "$" []⟩

def mysqlJsonContainedBy (target : Json) : Containment := ⟨false, target, containedByGuards text target "$" []⟩

/-- The containment and each guard, binding the document and then each path. -/
def render (columnSql : String) (containment : Containment) : String × List String :=
  let holds :=
    if containment.columnHolds then "JSON_CONTAINS(" ++ columnSql ++ ", ?)" else "JSON_CONTAINS(?, " ++ columnSql ++ ")"
  containment.guards.foldl (fun (sql, values) (path, kind) =>
      (sql ++ " AND " ++ guardSql columnSql kind, values ++ [path]))
    (holds, [text containment.document])

end Guards

def isScalar : Json → Bool
  | .array _ | .object _ => false
  | _ => true

section Meaning

-- how scalars are compared
variable (equal : Json → Json → Bool)

def sameScalar (target candidate : Json) : Bool := isScalar target && isScalar candidate && equal target candidate

mutual

/-- `JSON_CONTAINS(target, candidate)`: what is no array is contained in an array that has it. -/
def jsonContains : Json → Json → Bool
  | .array items, .array candidates => candidates.all fun candidate => anyJsonContains items candidate
  | .array items, candidate => anyJsonContains items candidate
  | .object fields, .object members => members.all fun member => memberJsonContains fields member.1 member.2
  | .object _, _ => false
  | target, candidate => sameScalar equal target candidate

def anyJsonContains : List Json → Json → Bool
  | [], _ => false
  | item :: items, candidate => jsonContains item candidate || anyJsonContains items candidate

def memberJsonContains : List (String × Json) → String → Json → Bool
  | [], _, _ => false
  | (name, value) :: fields, key, candidate =>
    if key = name then jsonContains value candidate else memberJsonContains fields key candidate

end

mutual

/-- PostgreSQL's containment below the top level: like in like. -/
def deepContains : Json → Json → Bool
  | .array items, .array candidates => candidates.all fun candidate => anyDeepContains items candidate
  | .array _, _ => false
  | .object fields, .object members => members.all fun member => memberDeepContains fields member.1 member.2
  | .object _, _ => false
  | target, candidate => sameScalar equal target candidate

def anyDeepContains : List Json → Json → Bool
  | [], _ => false
  | item :: items, candidate => deepContains item candidate || anyDeepContains items candidate

def memberDeepContains : List (String × Json) → String → Json → Bool
  | [], _, _ => false
  | (name, value) :: fields, key, candidate =>
    if key = name then deepContains value candidate else memberDeepContains fields key candidate

end

/-- `target @> candidate`: an array at the top also contains a scalar that it has. -/
def postgresContains (target candidate : Json) : Bool :=
  match target, isScalar candidate with
  | .array items, true => anyDeepContains equal items candidate
  | target, _ => deepContains equal target candidate

/-- The value at the keys of a path, through objects. -/
def follow : Json → List String → Option Json
  | value, [] => some value
  | .object fields, key :: keys => (fields.lookup key).bind fun value => follow value keys
  | _, _ => none

/-- `JSON_TYPE` of a value. -/
def jsonType : Json → String
  | .null => "NULL"
  | .bool _ => "BOOLEAN"
  | .number (.float _) => "DOUBLE"
  | .number _ => "INTEGER"
  | .string _ => "STRING"
  | .array _ => "ARRAY"
  | .object _ => "OBJECT"

def TypeTest.truth (test : TypeTest) (valueType : Option String) : Kleene :=
  (valueType.or test.whenAbsent).map fun valueType => (valueType == test.name) != test.differs

-- `JSON_EXTRACT`
variable (extract : Json → String → Option Json)

def guardTruth (column : Json) (guard : String × Kind) : Kleene :=
  (guardTest guard.2).truth ((extract column guard.1).map jsonType)

/-- What the containment and its guards are of a column's document. -/
def Containment.truth (containment : Containment) (column : Json) : Kleene :=
  let holds :=
    if containment.columnHolds then jsonContains equal column containment.document
    else jsonContains equal containment.document column
  containment.guards.foldl (fun truth guard => Kleene.and truth (guardTruth extract column guard)) (some holds)

end Meaning

mutual

/-- Of each object the keys differ. -/
def keyed : Json → Bool
  | .array items => allKeyed items
  | .object fields => decide (fields.map Prod.fst).Nodup && fieldsKeyed fields
  | _ => true

def allKeyed : List Json → Bool
  | [] => true
  | item :: items => keyed item && allKeyed items

def fieldsKeyed : List (String × Json) → Bool
  | [] => true
  | (_, value) :: fields => keyed value && fieldsKeyed fields

end

/-- A JSON document, as a column holds one. -/
structure Document where
  value : Json
  keyed : keyed value = true

mutual

/-- No array is in the value. -/
def arrayFree : Json → Bool
  | .array _ => false
  | .object fields => fieldsArrayFree fields
  | _ => true

def fieldsArrayFree : List (String × Json) → Bool
  | [] => true
  | (_, value) :: fields => arrayFree value && fieldsArrayFree fields

end

mutual

/-- No array is in an array. -/
def flatArrays : Json → Bool
  | .array items => items.all arrayFree
  | .object fields => fieldsFlatArrays fields
  | _ => true

def fieldsFlatArrays : List (String × Json) → Bool
  | [] => true
  | (_, value) :: fields => flatArrays value && fieldsFlatArrays fields

end

end TideOrm.MysqlJson
