import TideOrm.Lib.Interleave
import TideOrm.Spec.BatchInsert
import TideOrm.Spec.Ddl

/-! Schema sync (`sync.rs`, `sync/schema.rs`): the registry of model schemas, and what applying them asks of a database.
Each probe of the catalog and each statement is one step. -/

namespace TideOrm

open Lib Ddl

structure ColumnDef where
  name : List Char
  colType : List Char
  nullable : Bool
  primaryKey : Bool
  autoIncrement : Bool
  default : Option (List Char)
deriving DecidableEq

structure IndexDefinition where
  name : List Char
  columns : List (List Char)
  unique : Bool
deriving DecidableEq

structure ModelSchema where
  tableName : List Char
  schemaName : List Char
  columns : List ColumnDef
  primaryKeys : List (List Char)
  indexes : List IndexDefinition
deriving DecidableEq

namespace SyncRegistry

/-- Append each of `added` whose name none of `known` has. -/
def pushMissingByName {T : Type} (name : T → List Char) (known added : List T) : List T :=
  added.foldl (fun known item => if known.any fun existing => name existing == name item then known else known ++ [item]) known

/-- Another model of one table adds what the table lacks. -/
def merge (registered schema : ModelSchema) : ModelSchema :=
  { registered with
    columns := pushMissingByName ColumnDef.name registered.columns schema.columns
    indexes := pushMissingByName IndexDefinition.name registered.indexes schema.indexes }

/-- The registry after one more schema, which a table of the same name in another schema is not one of. -/
def registerSchema (schema : ModelSchema) : List ModelSchema → List ModelSchema
  | [] => [schema]
  | registered :: schemas =>
    if registered.tableName == schema.tableName && registered.schemaName == schema.schemaName then merge registered schema :: schemas
    else registered :: registerSchema schema schemas

def registerAll (registered : List ModelSchema) : List ModelSchema :=
  registered.foldl (fun schemas schema => registerSchema schema schemas) []

end SyncRegistry

/-- A table in a database. -/
structure LiveTable (V : Type) where
  schema : List Char
  name : List Char
  columns : List ColumnDefinition
  primaryKey : List (List Char)
  rows : List (List V)
  /-- the tables its foreign keys reach, through other tables too, each with its schema -/
  dependsOn : List (List Char × List Char)
deriving DecidableEq

structure LiveIndex where
  schema : List Char
  table : List Char
  index : IndexDefinition
deriving DecidableEq

structure SqlCatalog (V : Type) where
  tables : List (LiveTable V)
  indexes : List LiveIndex
deriving DecidableEq

/-- A statement of sync, on the table that it names with its schema, if it names that. -/
inductive SyncStatement where
  | dropTable (schema : Option (List Char)) (table : List Char)
  | createTable (schema : Option (List Char)) (table : List Char) (columns : List ColumnDefinition) (primaryKey : List (List Char))
  | addColumn (schema : Option (List Char)) (table : List Char) (column : ColumnDefinition)
  | createIndex (schema : Option (List Char)) (table : List Char) (index : IndexDefinition) (ifNotExists : Bool)

/-- A database, as sync meets it. -/
structure SqlServer (V : Type) where
  backend : BatchInsert.Backend
  /-- the schema of a table named without one -/
  currentSchema : List Char
  /-- MySQL's `lower_case_table_names` -/
  foldsTableNames : Bool
  rustTypeToColumnType : List Char → Option Ddl.ColumnType
  /-- the value the rows of a table get in a column added to it -/
  fill : ColumnDefinition → V
  /-- the rows left in a table when one it depends on is dropped -/
  cascade : LiveTable V → List (List V)
  /-- the error of a probe, when it gets no answer -/
  unanswered : SqlCatalog V → Option Error
  /-- statements refused for what the model of a catalog does not hold -/
  refuses : SyncStatement → SqlCatalog V → Bool
  error : SyncStatement → SqlCatalog V → Error

def DEFAULT_SCHEMA : List Char := "public".toList

/-- The database that MySQL has to name for `schema`, if any. -/
def mysqlDatabase (schema : List Char) : Option (List Char) :=
  if !schema.isEmpty && schema != DEFAULT_SCHEMA then some schema else none

def sqliteCanAddWithDefault (default : List Char) : Bool :=
  let default := trim default
  !(default.head? == some '(' || isCurrentTimestamp default || eqIgnoreAsciiCase default "CURRENT_DATE".toList ||
    eqIgnoreAsciiCase default "CURRENT_TIME".toList)

/-- The model's declared key columns, or else the columns flagged as keys. -/
def primaryKeyColumns (model : ModelSchema) : List (List Char) :=
  if !model.primaryKeys.isEmpty then model.primaryKeys
  else (model.columns.filter ColumnDef.primaryKey).map ColumnDef.name

/-- The model columns that the table lacks, and the live columns the model no longer declares. -/
def diffColumns (model : ModelSchema) (existing : List (List Char)) : List ColumnDef × List (List Char) :=
  (model.columns.filter fun column => !existing.any fun name => eqIgnoreAsciiCase name column.name,
    existing.filter fun name => !model.columns.any fun column => eqIgnoreAsciiCase column.name name)

namespace SqlServer

variable {V : Type} (server : SqlServer V)

/-- Names of tables that statements take for the same. -/
def sameTable (a b : List Char) : Bool :=
  match server.backend with
  | .postgres => a == b
  | .mySql => if server.foldsTableNames then eqIgnoreAsciiCase a b else a == b
  | .sqlite => eqIgnoreAsciiCase a b

def sameIndex (a b : List Char) : Bool :=
  match server.backend with
  | .postgres => a == b
  | .mySql | .sqlite => eqIgnoreAsciiCase a b

def resolve (schema : Option (List Char)) : List Char := schema.getD server.currentSchema

def isNamed (schema table : List Char) (live : LiveTable V) : Bool := live.schema == schema && server.sameTable live.name table

/-- The name of an index is one for all tables of its schema, and on MySQL for one table. -/
def isIndexNamed (schema table name : List Char) (live : LiveIndex) : Bool :=
  live.schema == schema && server.sameIndex live.index.name name && (server.backend != .mySql || server.sameTable live.table table)

def addTo (schema table : List Char) (column : ColumnDefinition) (live : LiveTable V) : LiveTable V :=
  if server.isNamed schema table live then
    { live with columns := live.columns ++ [column], rows := live.rows.map fun row => row ++ [server.fill column] }
  else live

/-- The columns of a table, too, differ in more than case but on PostgreSQL. -/
def hasColumn (column : List Char) (live : LiveTable V) : Bool := live.columns.any fun existing => server.sameIndex existing.name column

def dependsOn (schema table : List Char) (live : LiveTable V) : Bool :=
  live.dependsOn.any fun on => on.1 == schema && server.sameTable on.2 table

/-- Another table, after one is dropped. -/
def afterDrop (schema table : List Char) (live : LiveTable V) : LiveTable V :=
  if server.dependsOn schema table live then { live with rows := server.cascade live } else live

/-- The catalog after a statement that takes effect. -/
def apply (statement : SyncStatement) (c : SqlCatalog V) : Option (SqlCatalog V) :=
  match statement with
  | .dropTable schema table => some
    { tables := (c.tables.filter fun live => !server.isNamed (server.resolve schema) table live).map
        (server.afterDrop (server.resolve schema) table)
      indexes := c.indexes.filter fun live => !(live.schema == server.resolve schema && server.sameTable live.table table) }
  | .createTable schema table columns primaryKey => some
    { c with tables := c.tables ++ [⟨server.resolve schema, table, columns, primaryKey, [], []⟩] }
  | .addColumn schema table column =>
    if c.tables.any (server.isNamed (server.resolve schema) table) &&
        !c.tables.any fun live => server.isNamed (server.resolve schema) table live && server.hasColumn column.name live then
      some { c with tables := c.tables.map (server.addTo (server.resolve schema) table column) }
    else none
  | .createIndex schema table index _ =>
    if c.indexes.any (server.isIndexNamed (server.resolve schema) table index.name) then none
    else (c.tables.find? (server.isNamed (server.resolve schema) table)).map fun live =>
      { c with indexes := c.indexes ++ [⟨live.schema, live.name, index⟩] }

/-- `IF EXISTS` and `IF NOT EXISTS` leave nothing to do. MySQL has none for an index. -/
def isDone (statement : SyncStatement) (c : SqlCatalog V) : Bool :=
  match statement with
  | .dropTable schema table => !c.tables.any (server.isNamed (server.resolve schema) table)
  | .createTable schema table _ _ => c.tables.any (server.isNamed (server.resolve schema) table)
  | .addColumn .. => false
  | .createIndex schema table index ifNotExists =>
    ifNotExists && server.backend != .mySql && c.tables.any (server.isNamed (server.resolve schema) table) &&
      c.indexes.any (server.isIndexNamed (server.resolve schema) table index.name)

def execute (statement : SyncStatement) (c : SqlCatalog V) : Except Error Unit × SqlCatalog V :=
  if server.isDone statement c then (.ok (), c)
  else if server.refuses statement c then (.error (server.error statement c), c)
  else
    match server.apply statement c with
    | some after => (.ok (), after)
    | none => (.error (server.error statement c), c)

abbrev Step (V α : Type) := Call Error (SqlCatalog V) α

def executeDdl (statement : SyncStatement) : Step V Unit := Call.attempt (server.execute statement)

def probe {α : Type} (read : SqlCatalog V → α) : Step V α :=
  Call.attempt fun c => ((server.unanswered c).elim (.ok (read c)) .error, c)

/-- The schema a model's DDL has to be qualified with, if any. -/
def qualifyingSchema (model : ModelSchema) : Option (List Char) :=
  match server.backend with
  | .postgres => if !model.schemaName.isEmpty then some model.schemaName else none
  | .mySql => mysqlDatabase model.schemaName
  | .sqlite => none

/-- The schema that the probes of the catalog look in. -/
def probedSchema (model : ModelSchema) : List Char :=
  match server.backend with
  | .postgres => model.schemaName
  | .mySql => (mysqlDatabase model.schemaName).getD server.currentSchema
  | .sqlite => server.currentSchema

/-- SQLite compares the name as it was written when the table was made. -/
def checkTableExists (model : ModelSchema) : Step V Bool :=
  server.probe fun c => c.tables.any fun live => live.schema == server.probedSchema model &&
    if server.backend = .sqlite then live.name == model.tableName else server.sameTable live.name model.tableName

def fetchExistingColumns (model : ModelSchema) : Step V (List (List Char)) :=
  server.probe fun c => ((c.tables.find? (server.isNamed (server.probedSchema model) model.tableName)).elim [] fun live =>
    live.columns.map ColumnDefinition.name)

def mysqlIndexExists (model : ModelSchema) (index : List Char) : Step V Bool :=
  server.probe fun c => c.indexes.any (server.isIndexNamed (server.probedSchema model) model.tableName index)

/-- `TEXT` for a type that the table of types does not know. -/
def columnType (column : ColumnDef) : Ddl.ColumnType := (server.rustTypeToColumnType column.colType).getD .text

/-- The type sync creates a column with. MySQL makes no key and no index of a `TEXT` column. -/
def keyedColumnType (model : ModelSchema) (column : ColumnDef) : Ddl.ColumnType :=
  let keyed := (primaryKeyColumns model).contains column.name || model.indexes.any fun index => index.columns.contains column.name
  if server.backend = .mySql ∧ keyed ∧ server.columnType column = .text then .string else server.columnType column

def columnDefinition (column : ColumnDef) (columnType : Ddl.ColumnType) (singleKey : Bool) : ColumnDefinition :=
  { ColumnDefinition.new column.name columnType with
    nullable := column.nullable
    default := column.default
    primaryKey := singleKey
    autoIncrement := column.autoIncrement && columnType.canAutoIncrement }

/-- The columns of the `CREATE TABLE` that a model asks for. -/
def createColumns (model : ModelSchema) : List ColumnDefinition :=
  let primaryKey := primaryKeyColumns model
  model.columns.map fun column =>
    columnDefinition column (server.keyedColumnType model column) (primaryKey.length == 1 && primaryKey.contains column.name)

def buildCreateTable (model : ModelSchema) : SyncStatement :=
  .createTable (server.qualifyingSchema model) model.tableName (server.createColumns model) (primaryKeyColumns model)

/-- The column that a table is given for one it lacks: existing rows have nothing to fill a `NOT NULL` one with. -/
def missingColumn (model : ModelSchema) (column : ColumnDef) : ColumnDefinition :=
  let added := { ColumnDefinition.new column.name (server.keyedColumnType model column) with default := column.default }
  if server.backend = .sqlite ∧ column.default.any fun default => !sqliteCanAddWithDefault default then
    { added with default := none }
  else if !column.nullable ∧ !column.autoIncrement ∧ column.default.isSome then { added with nullable := false }
  else added

def addMissingColumn (model : ModelSchema) (column : ColumnDef) : Step V Unit :=
  server.executeDdl (.addColumn (server.qualifyingSchema model) model.tableName (server.missingColumn model column))

/-- The columns the table has and the model does not are only reported. -/
def reconcileExistingTable (model : ModelSchema) : Step V Unit := do
  let existing ← server.fetchExistingColumns model
  if existing.isEmpty then
    throw (.query s!"Unable to inspect columns of existing table '{String.ofList model.tableName}'; refusing to report a successful sync")
  else (diffColumns model existing).1.forM (server.addMissingColumn model)

/-- The table an index name is taken by. On MySQL each table has its own names. -/
def indexOwner (model : ModelSchema) (index : List Char) : Step V (Option (List Char)) :=
  if server.backend = .mySql then pure none
  else server.probe fun c =>
    (c.indexes.find? (server.isIndexNamed (server.resolve (server.qualifyingSchema model)) model.tableName index)).map LiveIndex.table

def checkIndexOwner (model : ModelSchema) (index : List Char) : Step V Unit := do
  match ← server.indexOwner model index with
  | some owner =>
    if server.sameTable owner model.tableName then pure ()
    else throw (.configuration s!"Index '{String.ofList index}' belongs to table '{String.ofList owner}', not '{String.ofList model.tableName}'; choose a distinct index name")
  | none => pure ()

/-- MySQL has no `CREATE INDEX IF NOT EXISTS`, so its catalog is asked. -/
def skipsIndex (model : ModelSchema) (index : List Char) : Step V Bool :=
  if server.backend = .mySql then server.mysqlIndexExists model index else pure false

/-- A refused index is an error on a table just made, and is left out on another. -/
def createIndex (model : ModelSchema) (newTable : Bool) (index : IndexDefinition) : Step V Unit :=
  tryCatch (server.executeDdl (.createIndex (server.qualifyingSchema model) model.tableName index !newTable)) fun error =>
    if newTable then throw error else pure ()

def syncIndex (model : ModelSchema) (newTable : Bool) (index : IndexDefinition) : Step V Unit := do
  server.checkIndexOwner model index.name
  let skips ← server.skipsIndex model index.name
  if skips then pure () else server.createIndex model newTable index

def syncIndexes (model : ModelSchema) (newTable : Bool) : Step V Unit := model.indexes.forM (server.syncIndex model newTable)

def dropExisting (model : ModelSchema) (drops : Bool) : Step V Unit :=
  if drops then server.executeDdl (.dropTable (server.qualifyingSchema model) model.tableName) else pure ()

def ensureTable (model : ModelSchema) (created : Bool) : Step V Unit :=
  if created then server.executeDdl (server.buildCreateTable model) else server.reconcileExistingTable model

def syncModelSchema (forceSync : Bool) (model : ModelSchema) : Step V Unit := do
  let tableExists ← server.checkTableExists model
  server.dropExisting model (forceSync && tableExists)
  server.ensureTable model (!tableExists || forceSync)
  server.syncIndexes model (!tableExists || forceSync)

def syncModelSchemas (forceSync : Bool) (models : List ModelSchema) : Step V Unit := models.forM (server.syncModelSchema forceSync)

/-- Nothing is registered; `available` are the tables of the compiled models. -/
def noModels (available : List (List Char)) : Error :=
  let tables := if available.isEmpty then "(none; include your model modules with mod)".toList else [',', ' '].intercalate available
  .query s!"No models registered for schema sync; call auto_models() or models::<YourModel>(). Available compiled model tables: {String.ofList tables}"

/-- `sync_database_with_options` with the models of the registry. -/
def syncDatabase (available : List (List Char)) (forceSync : Bool) (models : List ModelSchema) : Step V Unit :=
  if models.isEmpty then throw (noModels available) else server.syncModelSchemas forceSync models

end SqlServer

/-- A process that syncs, again and again, each time what it chose by what came of it before. -/
inductive SyncClient where
  | idle (told : Except Error Unit)
  | syncs (available : List (List Char)) (forceSync : Bool) (models : List ModelSchema) (next : Except Error Unit → SyncClient)

def SyncClient.program {V : Type} (server : SqlServer V) : SyncClient → Program (SqlCatalog V) (Except Error Unit)
  | .idle told => pure told
  | .syncs available forceSync models next =>
    (server.syncDatabase available forceSync models).run >>= fun result => (next result).program server

end TideOrm
