import TideOrm.Spec.Ddl
import TideOrm.Spec.Error
import TideOrm.Lib.HashMap
import Mathlib.Data.List.DropRight
import Mathlib.Logic.Function.Basic

/-! `ALTER TABLE` (`migration/alter.rs`): the operations of an alteration, what it keeps of a
MySQL column whose type changes, and the statements it renders. -/

namespace TideOrm

open Lib Ddl

inductive AlterOperation where
  | addColumn (column : ColumnDefinition)
  | dropColumn (name : List Char)
  | renameColumn (source target : List Char)
  | changeColumnType (name : List Char) (columnType : Ddl.ColumnType)
deriving DecidableEq

/-- A MySQL column's declaration besides its type, as `SHOW CREATE TABLE` writes it. -/
structure KeptAttributes where
  character : List Char
  rest : List Char
deriving DecidableEq

/-- `str::lines` -/
def lines (text : List Char) : List (List Char) :=
  let parts := text.splitOn '\n'
  let parts := if parts.getLast? = some [] then parts.dropLast else parts
  parts.map fun line => if line.getLast? = some '\r' then line.dropLast else line

/-- The rest of `line` after `head`, compared without ASCII case. -/
def stripHead (head line : List Char) : Option (List Char) :=
  if eqIgnoreAsciiCase (line.take head.length) head then some (line.drop head.length) else none

/-- The words that end a column's type. -/
def ATTRIBUTES : List (List Char) :=
  ["NOT".toList, "NULL".toList, "DEFAULT".toList, "AUTO_INCREMENT".toList, "ON".toList, "COMMENT".toList,
    "GENERATED".toList, "AS".toList, "INVISIBLE".toList, "VISIBLE".toList, "CHECK".toList, "COLUMN_FORMAT".toList,
    "STORAGE".toList, "SRID".toList, "PRIMARY".toList, "UNIQUE".toList, "REFERENCES".toList]

/-- The length of the parenthesized group that begins `rest`, with `depth` groups open. -/
def groupLen (depth : ℕ) : List Char → ℕ
  | [] => 0
  | ch :: rest =>
    let depth := if ch = '(' then depth + 1 else if ch = ')' then depth - 1 else depth
    if depth = 0 then 1 else groupLen depth rest + 1

/-- The length of the word that begins `rest`: a quoted literal and a parenthesized group are
one word each. -/
def wordLen (rest : List Char) : ℕ :=
  match rest with
  | [] => 0
  | first :: tail =>
    if first = '\'' ∨ first = '"' ∨ first = '`' then
      if first ∈ tail then tail.idxOf first + 2 else rest.length
    else if first = '(' then groupLen 0 rest
    else (rest.takeWhile fun ch => !isWhitespace ch && ch != '(').length

/-- The words of a definition up to the first attribute. The `clauseWords` next ones belong to a
`CHARACTER SET` or `COLLATE` clause; each round reads a word, so `fuel` above the length is enough. -/
def attributesFrom : ℕ → List (List Char) → ℕ → List Char → Option KeptAttributes
  | 0, _, _, _ => none
  | fuel + 1, character, clauseWords, rest =>
    let rest := rest.dropWhile isWhitespace
    if rest.isEmpty then some ⟨[' '].intercalate character, []⟩
    else
      let word := rest.take (wordLen rest)
      let next := rest.drop (wordLen rest)
      if 0 < clauseWords then attributesFrom fuel (character ++ [word]) (clauseWords - 1) next
      else if eqIgnoreAsciiCase word "CHARACTER".toList then attributesFrom fuel (character ++ [word]) 2 next
      else if eqIgnoreAsciiCase word "CHARSET".toList || eqIgnoreAsciiCase word "COLLATE".toList then
        attributesFrom fuel (character ++ [word]) 1 next
      else if ATTRIBUTES.any (eqIgnoreAsciiCase word) then
        some ⟨[' '].intercalate character, rest⟩
      else attributesFrom fuel character 0 next

/-- What `createTable`, a `SHOW CREATE TABLE`, declares for `column` besides its type. -/
def mysqlColumnAttributes (createTable column : List Char) : Option KeptAttributes :=
  let quoted := quoteIdent .mySql column
  let definition := ((lines createTable).map trim).findSome? fun line =>
    (stripHead quoted line).filter fun rest => rest.head? == some ' '
  definition.bind fun definition =>
    let rest := (trim definition).rdropWhile (· == ',')
    attributesFrom (rest.length + 1) [] 0 rest

/-- Whether a MySQL column of this type holds text. -/
def holdsText (typeSql : List Char) : Bool :=
  ["CHAR".toList, "VARCHAR".toList, "NCHAR".toList, "NVARCHAR".toList, "NATIONAL".toList, "TINYTEXT".toList,
    "TEXT".toList, "MEDIUMTEXT".toList, "LONGTEXT".toList, "ENUM".toList, "SET(".toList, "SET (".toList].any
    fun head => head.isPrefixOf ((trim typeSql).map Char.toUpper)

/-- What a `MODIFY COLUMN` to a type says of the column's kept attributes. -/
def restated (typeSql : List Char) : Option KeptAttributes → List Char
  | none => []
  | some kept =>
    let attributes := [if holdsText typeSql then kept.character else [], kept.rest]
    (attributes.filter fun text => !text.isEmpty).flatMap fun text => ' ' :: text

structure AlterTableBuilder where
  name : List Char
  databaseType : DatabaseType
  operations : List AlterOperation
  /-- what `MODIFY COLUMN` would drop from a column whose type changes, by column -/
  keptAttributes : HashMap (List Char) KeptAttributes
  /-- single-column indexes over dropped columns, as (column, index) -/
  sqliteColumnIndexes : List (List Char × List Char)
  sqliteIndexSchema : Option (List Char)

namespace AlterTableBuilder

def new (name : List Char) (databaseType : DatabaseType) : AlterTableBuilder where
  name := name
  databaseType := databaseType
  operations := []
  keptAttributes := ∅
  sqliteColumnIndexes := []
  sqliteIndexSchema := none

def push (alter : AlterTableBuilder) (operation : AlterOperation) : AlterTableBuilder :=
  { alter with operations := alter.operations ++ [operation] }

/-- The state of the loop of `keepColumnAttributes`: by the name a column has at this point, the
name the table stores it under, or none for one it does not store. -/
structure Keeping where
  storedNames : HashMap (List Char) (Option (List Char))
  kept : HashMap (List Char) KeptAttributes

def keepStep (createTable : List Char) (s : Keeping) : AlterOperation → Keeping
  | .renameColumn source target =>
    let stored := (s.storedNames.lookup source).getD (some source)
    { s with storedNames := (s.storedNames.erase source).insert target stored }
  | .addColumn column => { s with storedNames := s.storedNames.insert column.name none }
  | .dropColumn name => { s with storedNames := s.storedNames.insert name none }
  | .changeColumnType name _ =>
    match ((s.storedNames.lookup name).getD (some name)).bind (mysqlColumnAttributes createTable) with
    | some attributes => { s with kept := s.kept.insert name attributes }
    | none => s

def keepColumnAttributes (alter : AlterTableBuilder) (createTable : List Char) : AlterTableBuilder :=
  { alter with
    keptAttributes := (alter.operations.foldl (keepStep createTable) ⟨∅, alter.keptAttributes⟩).kept }

/-- The name under which the table stores the column that has a name after the `earlier`
operations, the last of them first; none for a column they add. -/
def originalName : List Char → List AlterOperation → Option (List Char)
  | original, [] => some original
  | original, .renameColumn source target :: earlier =>
    originalName (if target = original then source else original) earlier
  | original, .addColumn column :: earlier => if column.name = original then none else originalName original earlier
  | original, .dropColumn _ :: earlier => originalName original earlier
  | original, .changeColumnType _ _ :: earlier => originalName original earlier

/-- The columns whose single-column indexes must be inspected before dropping. -/
def sqliteDroppedColumns (alter : AlterTableBuilder) : List (List Char) :=
  if alter.databaseType ≠ .sqlite then []
  else
    alter.operations.zipIdx.filterMap fun (operation, position) =>
      match operation with
      | .dropColumn name => originalName name (alter.operations.take position).reverse
      | _ => none

def sqliteColumnIndex (alter : AlterTableBuilder) (column : List Char) : List Char := indexName alter.name [column] true

def sqliteIndexReference (alter : AlterTableBuilder) (name : List Char) : List Char :=
  let name := quoteIdent alter.databaseType name
  match alter.sqliteIndexSchema with
  | some schema => quoteIdent alter.databaseType schema ++ '.' :: name
  | none => name

def dropSqliteColumnIndexes (alter : AlterTableBuilder) (schema : List Char) (names : List (List Char × List Char)) :
    AlterTableBuilder :=
  { alter with sqliteIndexSchema := some schema, sqliteColumnIndexes := names }

/-- The column an operation adds when it is a unique one added on SQLite, which refuses
`ADD COLUMN .. UNIQUE`. -/
def sqliteUniqueAddition (alter : AlterTableBuilder) : AlterOperation → Option ColumnDefinition
  | .addColumn column =>
    if alter.databaseType = .sqlite ∧ column.unique ∧ ¬column.primaryKey then some column else none
  | _ => none

/-- `MODIFY COLUMN` with what is kept of the column. -/
def modifyColumn (db : DatabaseType) (table name : List Char) (columnType : Ddl.ColumnType) (kept : Option KeptAttributes) :
    List Char :=
  "ALTER TABLE ".toList ++ table ++ " MODIFY COLUMN ".toList ++ quoteIdent db name ++ ' ' :: columnType.toSql db ++
    restated (columnType.toSql db) kept

def buildOperation (alter : AlterTableBuilder) (operation : AlterOperation) : Except Error (List Char) :=
  let db := alter.databaseType
  let table := quoteIdent db alter.name
  match operation with
  | .addColumn column =>
    match alter.sqliteUniqueAddition operation with
    | some column => .ok (Ddl.addColumn db table { column with unique := false })
    | none => .ok (Ddl.addColumn db table column)
  | .dropColumn name => .ok ("ALTER TABLE ".toList ++ table ++ " DROP COLUMN ".toList ++ quoteIdent db name)
  | .renameColumn source target =>
    .ok ("ALTER TABLE ".toList ++ table ++ " RENAME COLUMN ".toList ++ quoteIdent db source ++ " TO ".toList ++
      quoteIdent db target)
  | .changeColumnType name columnType =>
    match db with
    | .postgres =>
      .ok ("ALTER TABLE ".toList ++ table ++ " ALTER COLUMN ".toList ++ quoteIdent db name ++ " TYPE ".toList ++
        columnType.toSql db)
    | .mySql | .mariaDb => .ok (modifyColumn db table name columnType (alter.keptAttributes.lookup name))
    | .sqlite =>
      .error (.backendNotSupported ("SQLite cannot change the type of column '" ++ String.ofList name ++
        "' on table '" ++ String.ofList alter.name ++ "'. Rebuild the table instead, in a migration whose " ++
        "`foreign_keys_off()` is true: create a new table with the target definition, copy the rows across, " ++
        "drop the old table and rename the new one.") "SQLite")

/-- The indexes SQLite has to drop before an operation, as it refuses to drop a column an index
covers. -/
def droppedIndexes (alter : AlterTableBuilder) (indexes : List (List Char × List Char)) :
    AlterOperation → List (List Char × List Char)
  | .dropColumn name => if alter.databaseType = .sqlite then indexes.filter fun index => index.1 = name else []
  | _ => []

/-- The indexes over the columns after an operation. -/
def indexesAfter (alter : AlterTableBuilder) (indexes : List (List Char × List Char)) :
    AlterOperation → List (List Char × List Char)
  | .dropColumn name =>
    if alter.databaseType = .sqlite then indexes.filter fun index => index.1 ≠ name else indexes
  | .addColumn column =>
    match alter.sqliteUniqueAddition (.addColumn column) with
    | some column => indexes ++ [(column.name, alter.sqliteColumnIndex column.name)]
    | none => indexes
  | .renameColumn source target => indexes.map fun index => if index.1 = source then (target, index.2) else index
  | .changeColumnType _ _ => indexes

def createUniqueIndex (alter : AlterTableBuilder) (column : ColumnDefinition) : List Char :=
  "CREATE UNIQUE INDEX ".toList ++ alter.sqliteIndexReference (alter.sqliteColumnIndex column.name) ++
    " ON ".toList ++ quoteIdent alter.databaseType alter.name ++ " (".toList ++
    quoteIdent alter.databaseType column.name ++ [')']

/-- The statements of the operations, with the SQLite indexes over their columns as
(column, index). -/
def buildFrom (alter : AlterTableBuilder) :
    List (List Char × List Char) → List AlterOperation → Except Error (List (List Char))
  | _, [] => .ok []
  | indexes, operation :: rest => do
    let statement ← alter.buildOperation operation
    let statements ← alter.buildFrom (alter.indexesAfter indexes operation) rest
    return ((alter.droppedIndexes indexes operation).map fun index =>
      "DROP INDEX ".toList ++ alter.sqliteIndexReference index.2) ++ [statement] ++
        (alter.sqliteUniqueAddition operation).toList.map alter.createUniqueIndex ++ statements

def build (alter : AlterTableBuilder) : Except Error (List (List Char)) :=
  alter.buildFrom alter.sqliteColumnIndexes alter.operations

end AlterTableBuilder

/-- Where a column of the table comes from: the table as stored, or the alteration. -/
inductive ColumnOrigin where
  | stored (name : List Char)
  | added

/-- The columns of a table by their current names, each statement taking effect before the
next. A name stands for all spellings that the database takes for it, which have one `key`. -/
abbrev TableColumns := List Char → Option ColumnOrigin

namespace TableColumns

section

variable (key : List Char → List Char)

def ofTable (names : List (List Char)) : TableColumns := fun name =>
  (names.find? fun stored => key stored = name).map .stored

/-- An operation on the table, none when the table refuses it. -/
def apply (t : TableColumns) : AlterOperation → Option TableColumns
  | .addColumn column =>
    if (t (key column.name)).isNone then some (Function.update t (key column.name) (some .added)) else none
  | .dropColumn name => if (t (key name)).isSome then some (Function.update t (key name) none) else none
  | .renameColumn source target =>
    if (t (key source)).isSome ∧ (key target = key source ∨ (t (key target)).isNone) then
      some (Function.update (Function.update t (key source) none) (key target) (t (key source)))
    else none
  | .changeColumnType name _ => if (t (key name)).isSome then some t else none

def run : TableColumns → List AlterOperation → Option TableColumns
  | t, [] => some t
  | t, operation :: rest => (t.apply key operation).bind fun t => run t rest

end

/-- The attributes that the table stores of the column `name`, none for a column added since. -/
def attributes (createTable : List Char) (t : TableColumns) (name : List Char) : Option KeptAttributes :=
  match t name with
  | some (.stored stored) => mysqlColumnAttributes createTable stored
  | _ => none

end TableColumns

/-- The stored name that following the `earlier` operations leads to, the last of them first,
with names taken as they are spelled; none for a column added or dropped under the name. -/
def followed : List AlterOperation → List Char → Option (List Char)
  | [], name => some name
  | .renameColumn source target :: earlier, name =>
    if name = target then followed earlier source else if name = source then some name else followed earlier name
  | .addColumn column :: earlier, name => if name = column.name then none else followed earlier name
  | .dropColumn dropped :: earlier, name => if name = dropped then none else followed earlier name
  | .changeColumnType _ _ :: earlier, name => followed earlier name

/-- The attributes found by the last type change under `name` that finds some, of those that
come after the `earlier` operations. -/
def lastFound (createTable : List Char) : List AlterOperation → List AlterOperation → List Char → Option KeptAttributes
  | _, [], _ => none
  | earlier, .changeColumnType changed columnType :: rest, name =>
    (lastFound createTable (.changeColumnType changed columnType :: earlier) rest name).or
      (if changed = name then (followed earlier name).bind (mysqlColumnAttributes createTable) else none)
  | earlier, operation :: rest, name => lastFound createTable (operation :: earlier) rest name

end TideOrm
