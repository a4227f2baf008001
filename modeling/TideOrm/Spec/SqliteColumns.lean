import TideOrm.Spec.AlterTable

/-! The columns of a SQLite table through an alteration, and the steps that it takes: each column
goes with the indexes over it. -/

namespace TideOrm

open Lib Ddl

/-- Where a column comes from: the table as stored, by the key of its name, or the alteration. -/
inductive ColumnSource where
  | stored (key : List Char)
  | added (column : ColumnDefinition)

/-- SQLite compares the names of columns and of indexes without regard to ASCII case. -/
def sqliteKey (name : List Char) : List Char := name.map Char.toLower

/-- The columns by the keys of their names: how the alteration wrote the name last, none where
it is the stored one, and where the column comes from. -/
abbrev SqliteColumns := List Char → Option (Option (List Char) × ColumnSource)

namespace SqliteColumns

def ofTable (names : List (List Char)) : SqliteColumns := fun key =>
  if key ∈ names.map sqliteKey then some (none, .stored key) else none

/-- An operation on the table, none when SQLite refuses it. -/
def apply (t : SqliteColumns) : AlterOperation → Option SqliteColumns
  | .addColumn column =>
    if (t (sqliteKey column.name)).isNone then
      some (Function.update t (sqliteKey column.name) (some (some column.name, .added column)))
    else none
  | .dropColumn name =>
    if (t (sqliteKey name)).isSome then some (Function.update t (sqliteKey name) none) else none
  | .renameColumn source target =>
    if sqliteKey target = sqliteKey source ∨ (t (sqliteKey target)).isNone then
      (t (sqliteKey source)).map fun column =>
        Function.update (Function.update t (sqliteKey source) none) (sqliteKey target) (some (some target, column.2))
    else none
  | .changeColumnType _ _ => none

def run : SqliteColumns → List AlterOperation → Option SqliteColumns
  | t, [] => some t
  | t, operation :: rest => (t.apply operation).bind fun t => run t rest

/-- The column that an operation drops or renames, if any, is named as the alteration itself
wrote its name last. -/
def Spelled (t : SqliteColumns) : AlterOperation → Prop
  | .dropColumn name | .renameColumn name _ =>
    ∀ written origin, t (sqliteKey name) = some (some written, origin) → written = name
  | _ => True

/-- Every operation of the alteration names its column so. -/
def SpelledRun : SqliteColumns → List AlterOperation → Prop
  | _, [] => True
  | t, operation :: rest => t.Spelled operation ∧ ∀ t', t.apply operation = some t' → SpelledRun t' rest

end SqliteColumns

/-- What an alteration does to the table and its indexes. -/
inductive AlterationStep where
  | dropIndex (index : List Char)
  | operation (operation : AlterOperation)
  | createIndex (column : ColumnDefinition)

namespace AlterTableBuilder

/-- The single-column indexes over a column: those listed for it, or the one it was added with. -/
def covering (alter : AlterTableBuilder) : ColumnSource → List (List Char)
  | .stored key => (alter.sqliteColumnIndexes.filter fun index => sqliteKey index.1 = key).map Prod.snd
  | .added column =>
    (alter.sqliteUniqueAddition (.addColumn column)).toList.map fun column => alter.sqliteColumnIndex column.name

/-- The indexes that go before an operation: those over the column it drops. -/
def indexesBefore (alter : AlterTableBuilder) (t : SqliteColumns) : AlterOperation → List (List Char)
  | .dropColumn name => (t (sqliteKey name)).elim [] fun column => alter.covering column.2
  | _ => []

def stepsOf (alter : AlterTableBuilder) (t : SqliteColumns) (operation : AlterOperation) : List AlterationStep :=
  (alter.indexesBefore t operation).map .dropIndex ++
    .operation operation :: (alter.sqliteUniqueAddition operation).toList.map .createIndex

def steps (alter : AlterTableBuilder) : SqliteColumns → List AlterOperation → List AlterationStep
  | _, [] => []
  | t, operation :: rest => alter.stepsOf t operation ++ (t.apply operation).elim [] fun t => alter.steps t rest

def stepSql (alter : AlterTableBuilder) : AlterationStep → Except Error (List Char)
  | .dropIndex index => .ok ("DROP INDEX ".toList ++ alter.sqliteIndexReference index)
  | .operation operation => alter.buildOperation operation
  | .createIndex column => .ok (alter.createUniqueIndex column)

/-- The keys of the indexes that are left, none when one is dropped that is not there. -/
def indexesLeft (alter : AlterTableBuilder) : List (List Char) → List AlterationStep → Option (List (List Char))
  | indexes, [] => some indexes
  | indexes, .dropIndex index :: rest =>
    if sqliteKey index ∈ indexes then alter.indexesLeft (indexes.erase (sqliteKey index)) rest else none
  | indexes, .operation _ :: rest => alter.indexesLeft indexes rest
  | indexes, .createIndex column :: rest =>
    alter.indexesLeft (sqliteKey (alter.sqliteColumnIndex column.name) :: indexes) rest

/-- The statements are those of the steps: right before a column go the indexes over it, and no
index, listed once or twice, goes twice. -/
structure TakesIndexes (alter : AlterTableBuilder) (t : SqliteColumns) : Prop where
  build : ∃ statements, alter.build = .ok statements ∧ (alter.steps t alter.operations).mapM alter.stepSql = .ok statements
  once : (alter.indexesLeft (alter.sqliteColumnIndexes.map fun index => sqliteKey index.2).dedup
    (alter.steps t alter.operations)).isSome

end AlterTableBuilder

end TideOrm
