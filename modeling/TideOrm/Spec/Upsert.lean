import TideOrm.Lib.Traverse
import TideOrm.Spec.BatchInsert
import TideOrm.Spec.Error
import TideOrm.Spec.ModelMeta

/-! `insert_or_update()` and `on_conflict(..).insert()` (`model/upsert.rs`), with the statements they make of a table. -/

namespace TideOrm

open Lib

/-- A unique index, with what is no whole column among its parts left out. -/
structure UniqueIndex (V : Type) where
  parts : List (Option (List Char))
  collides : (List Char → V) → (List Char → V) → Bool
  collides_symm : ∀ row other, collides row other = collides other row

/-- A model that is upserted, and its table. -/
structure UpsertModel (V : Type) extends ModelMeta where
  primaryKeyNames : List (List Char)
  primaryKeyAutoIncrement : Bool
  encryptedColumn : List Char → Except Error Bool
  /-- the Rust types of the integer fields -/
  driverLimitedFields : List (List Char)
  /-- the error that names the fields a driver cannot keep -/
  unstorable : BatchInsert.Backend → Error
  /-- a value that is no float or decimal beyond what SQLite reads back -/
  sqliteStorable : V → Bool
  null : V
  /-- what a column compares of a value, as its collation does -/
  collationKey : List Char → V → V
  collationKey_null : ∀ column v, collationKey column v = null ↔ v = null
  indexes : List (UniqueIndex V)
  /-- what a row is refused for by itself, as `NOT NULL` and `CHECK` do -/
  malformed : (List Char → V) → Bool
  /-- what the constraints that are left refuse beside the other rows -/
  refuses : List (List Char → V) → (List Char → V) → Bool
  /-- `try_from_entity_model` of a stored row -/
  readBack : (List Char → V) → Except Error Unit
  /-- moving PostgreSQL's sequence past the key of a row -/
  advanceKeySequence : (List Char → V) → Except Error Unit
  /-- the error of a statement the database refuses -/
  refusal : Error
  /-- an index of whole columns takes NULL for equal to nothing -/
  collides_whole : ∀ index ∈ indexes, ∀ columns : List (List Char), index.parts = columns.map some → ∀ row other,
    (index.collides row other = true ↔
      ∀ column ∈ columns, collationKey column (row column) = collationKey column (other column) ∧ row column ≠ null)
  parts_nodup : ∀ index ∈ indexes, index.parts.Nodup
  primaryKey_index : ∃ index ∈ indexes, index.parts = primaryKeyNames.map some
  primaryKey_notNull : ∀ row, (∃ key ∈ primaryKeyNames, row key = null) → malformed row = true

/-- A model value that is upserted. -/
structure UpsertValue (V : Type) where
  validate : Except Error Unit
  isNew : Bool
  toEntityModel : List Char → V
  /-- the columns an insert sets -/
  tryIntoActiveModel : Except Error (List Char → Option V)

structure OnConflictBuilder where
  conflictColumns : List (List Char)
  updateColumns : Option (List (List Char))
  excludeColumns : Option (List (List Char))

/-- What an upsert is to do once its column lists are checked. -/
structure UpsertPlan (V : Type) where
  conflictColumns : List (List Char)
  updateColumns : List (List Char)
  active : List Char → Option V
  /-- the key is new, and all there is to conflict on -/
  insertOnly : Bool

namespace UpsertModel

variable {V : Type} (model : UpsertModel V) (managedCreatedAt : List (List Char))

def columnNamedOr (error : Error) (name : List Char) : Except Error (List Char) :=
  match model.canonicalColumnName name with
  | some column => .ok column
  | none => .error error

/-- The columns an upsert overwrites on a conflict: those named, or all but those excluded, the key, the conflict columns and a
managed `created_at`. -/
def updateColumnNames (updateColumns excludeColumns : Option (List (List Char))) (conflictCols : List (List Char)) :
    Except Error (List (List Char)) :=
  match updateColumns with
  | some columns => columns.mapM fun column =>
    model.columnNamedOr (.query s!"unknown update column '{String.ofList column}' for {String.ofList model.tableName}") column
  | none => do
    let exclude ← (excludeColumns.getD []).mapM fun name =>
      model.columnNamedOr (.query s!"unknown column '{String.ofList name}' in update_all_except() for {String.ofList model.tableName}") name
    return model.columnNames.filter fun column => !exclude.contains column && !managedCreatedAt.contains column &&
      !model.primaryKeyNames.contains column && !conflictCols.contains column

def refuseEncrypted (column : List Char) : Except Error Unit := do
  if ← model.encryptedColumn column then
    throw (.query s!"encrypted field '{String.ofList column}' cannot be used as an insert_or_update conflict column for {String.ofList model.tableName}; encrypted fields use randomized ciphertext, so use a plaintext unique key instead")

def requireConflict (conflictCols : List (List Char)) : Except Error Unit :=
  if conflictCols.isEmpty then .error (.query "upsert requires at least one conflict column") else .ok ()

def resolve (role column : List Char) : Except Error (List Char) :=
  model.columnNamedOr (.query s!"unknown {String.ofList role} column '{String.ofList column}' for {String.ofList model.tableName}") column

/-- An auto-increment key is written if it is to conflict, and otherwise left to the database. -/
def keyedActive (includePk : Bool) (lookup : List Char → V) (active : List Char → Option V) : List Char → Option V := fun column =>
  if model.primaryKeyAutoIncrement && model.primaryKeyNames.contains column then if includePk then some (lookup column) else none
  else active column

/-- `__upsert` up to its statements. -/
def plan (builder : OnConflictBuilder) (value : UpsertValue V) : Except Error (UpsertPlan V) := do
  value.validate
  builder.conflictColumns.forM model.refuseEncrypted
  let conflictCols := builder.conflictColumns.map model.columnNamed
  requireConflict conflictCols
  let keyIsNew := model.primaryKeyAutoIncrement && value.isNew
  let includePk := !keyIsNew && (conflictCols.any model.primaryKeyNames.contains || !model.primaryKeyAutoIncrement)
  let conflictColumns ← conflictCols.mapM (model.resolve "conflict".toList)
  let active := model.keyedActive includePk value.toEntityModel (← value.tryIntoActiveModel)
  let updateCols ← model.updateColumnNames managedCreatedAt builder.updateColumns builder.excludeColumns conflictCols
  let updateColumns ← updateCols.mapM (model.resolve "update".toList)
  return ⟨conflictColumns, updateColumns, active, keyIsNew && conflictCols.all model.primaryKeyNames.contains⟩

def driverLimits (backend : BatchInsert.Backend) (rustType : List Char) : Bool :=
  match backend with
  | .postgres => ["i8".toList, "u8".toList, "u16".toList, "u64".toList].contains rustType
  | .sqlite => rustType == "u64".toList
  | .mySql => false

def checkFieldsStorable (backend : BatchInsert.Backend) : Except Error Unit :=
  if model.driverLimitedFields.any (driverLimits backend) then .error (model.unstorable backend) else .ok ()

def ensureActiveValuesStorable (backend : BatchInsert.Backend) (active : List Char → Option V) : Except Error Unit :=
  if backend = .sqlite then
    model.columnNames.forM fun column =>
      if (active column).any fun v => !model.sqliteStorable v then
        .error (.query s!"SQLite value for {String.ofList column} must be finite and within its readable model range")
      else .ok ()
  else .ok ()

/-- `writable_connection`: every value that is written is one the driver can read back. -/
def ensureStorable (backend : BatchInsert.Backend) (active : List Char → Option V) : Except Error Unit := do
  model.checkFieldsStorable backend
  model.ensureActiveValuesStorable backend active

abbrev Rows (V : Type) := List (List Char → V)

/-- The row would break an index or another constraint beside the other rows. -/
def breaks (rows : Rows V) (row : List Char → V) : Bool :=
  model.malformed row || (rows.any fun other => model.indexes.any fun index => index.collides row other) || model.refuses rows row

/-- The row an insert would write. The database gives `numbers` to the columns left to it: a sequence, once drawn from, has
moved on, whether the row it was drawn for was written or not. -/
def proposed (numbers : List Char → V) (active : List Char → Option V) : List Char → V := fun column =>
  (active column).getD (numbers column)

/-- `INSERT` -/
def insertStatement (numbers : List Char → V) (active : List Char → Option V) (rows : Rows V) : Except Error (List Char → V) × Rows V :=
  let row := proposed numbers active
  if model.breaks rows row then (.error model.refusal, rows) else (.ok row, rows ++ [row])

/-- `UPDATE` of the row that `found` tells from the others. -/
def updateStatement (found : (List Char → V) → Bool) (updated : List Char → V) (rows : Rows V) :
    Except Error (List Char → V) × Rows V :=
  if model.breaks (rows.filter fun row => !found row) updated then (.error model.refusal, rows)
  else (.ok updated, rows.map fun row => if found row then updated else row)

/-- A key is written that the database would otherwise number. -/
def holdsAutoIncrementKey (active : List Char → Option V) : Bool :=
  model.primaryKeyAutoIncrement && model.primaryKeyNames.any fun key => (active key).isSome

/-- The row of a write is read back, and a sequence moved past a key that the write held. -/
def handBack (backend : BatchInsert.Backend) (explicitKey : Bool) (row : List Char → V) : Except Error Unit := do
  model.readBack row
  if backend = .postgres ∧ explicitKey = true then model.advanceKeySequence row

/-- What was written stays, should the row not be handed back. -/
def storedRow (backend : BatchInsert.Backend) (explicitKey : Bool) (written : Except Error (List Char → V) × Rows V) :
    Except Error (List Char → V) × Rows V :=
  match written with
  | (.error error, rows) => (.error error, rows)
  | (.ok row, rows) =>
    match model.handBack backend explicitKey row with
    | .error error => (.error error, rows)
    | .ok () => (.ok row, rows)

def insertRow (backend : BatchInsert.Backend) (numbers : List Char → V) (active : List Char → Option V) (rows : Rows V) :
    Except Error (List Char → V) × Rows V :=
  match model.ensureStorable backend active with
  | .error error => (.error error, rows)
  | .ok () => model.storedRow backend (model.holdsAutoIncrementKey active) (model.insertStatement numbers active rows)

/-- The index that `ON CONFLICT (columns)` names: one of just these columns. -/
def isArbiter (columns : List (List Char)) (index : UniqueIndex V) : Bool :=
  (index.parts.all fun part => part.any columns.contains) && columns.all fun column => index.parts.contains (some column)

/-- `INSERT .. ON CONFLICT (columns) DO UPDATE SET .. RETURNING`, which spares a row no constraint but the index it names. Without
columns to overwrite, the conflict columns are set to themselves. -/
def insertOnConflict (numbers : List Char → V) (conflictColumns updateColumns : List (List Char)) (active : List Char → Option V)
    (rows : Rows V) : Except Error (List Char → V) × Rows V :=
  let arbiters := model.indexes.filter (isArbiter conflictColumns)
  let row := proposed numbers active
  let conflicts := fun other => arbiters.any fun index => index.collides row other
  if arbiters.isEmpty || model.malformed row then (.error model.refusal, rows)
  else
    match rows.find? conflicts with
    | none => model.insertStatement numbers active rows
    | some stored =>
      if updateColumns.isEmpty then (.ok stored, rows)
      else model.updateStatement conflicts (fun column => if updateColumns.contains column then row column else stored column) rows

/-- The conflict columns are no complete unique index of the table. -/
def conflictTargetRefused (target : List (List Char)) : Error :=
  let names := [',', ' '].intercalate (target.mergeSort fun a b => decide (a ≤ b))
  .query s!"upsert conflict columns ({String.ofList names}) must match a complete unique index on {String.ofList model.tableName}"

/-- MySQL's emulation must have the same full unique-key target as ON CONFLICT. -/
def validateMysqlConflictTarget (columns : List (List Char)) : Except Error Unit :=
  let target := columns.dedup
  if target.length == columns.length && model.indexes.any fun index =>
      index.parts.length == target.length && index.parts.all fun part => part.any target.contains then .ok ()
  else .error (model.conflictTargetRefused target)

variable [DecidableEq V]

/-- The row compares equal to `values` in each of the columns. -/
def matchesOn (columns : List (List Char)) (values row : List Char → V) : Bool :=
  columns.all fun column => decide (model.collationKey column (row column) = model.collationKey column (values column))

/-- The stored row that the conflict columns name. NULL names none. -/
def existing (columns : List (List Char)) (lookup : List Char → V) (rows : Rows V) : Option (List Char → V) :=
  if columns.any fun column => decide (lookup column = model.null) then none else rows.find? (model.matchesOn columns lookup)

/-- A transaction that fails leaves the rows as it found them. -/
def transaction (body : Rows V → Except Error (List Char → V) × Rows V) (rows : Rows V) : Except Error (List Char → V) × Rows V :=
  match body rows with
  | (.ok row, after) => (.ok row, after)
  | (.error error, _) => (.error error, rows)

/-- What MySQL's upsert does in its transaction: it locks the row that the conflict columns name and updates it, or inserts. The
key of the locked row is read before the update. -/
def upsertMysql (numbers lookup : List Char → V) (active : List Char → Option V) (conflictColumns updateColumns : List (List Char))
    (rows : Rows V) : Except Error (List Char → V) × Rows V :=
  match model.validateMysqlConflictTarget conflictColumns with
  | .error error => (.error error, rows)
  | .ok () =>
    match model.existing conflictColumns lookup rows with
    | none => model.insertRow .mySql numbers active rows
    | some row =>
      if updateColumns.isEmpty then model.storedRow .mySql false (.ok row, rows)
      else
        let changes := fun column => if updateColumns.contains column then active column else none
        match do model.readBack row; model.ensureStorable .mySql changes with
        | .error error => (.error error, rows)
        | .ok () => model.storedRow .mySql false (model.updateStatement (model.matchesOn model.primaryKeyNames row)
            (fun column => (changes column).getD (row column)) rows)

/-- `__upsert` on the rows of the table. -/
def upsert (backend : BatchInsert.Backend) (numbers : List Char → V) (builder : OnConflictBuilder) (value : UpsertValue V)
    (rows : Rows V) : Except Error (List Char → V) × Rows V :=
  match model.plan managedCreatedAt builder value with
  | .error error => (.error error, rows)
  | .ok plan =>
    if plan.insertOnly then model.insertRow backend numbers plan.active rows
    else
      match model.ensureStorable backend plan.active with
      | .error error => (.error error, rows)
      | .ok () =>
        if backend = .mySql then
          if plan.updateColumns.any model.primaryKeyNames.contains then
            (.error (.query "MySQL upsert update_columns() cannot update a primary key; omit primary-key columns from the update list"), rows)
          else transaction (model.upsertMysql numbers value.toEntityModel plan.active plan.conflictColumns plan.updateColumns) rows
        else
          model.storedRow backend (model.holdsAutoIncrementKey plan.active)
            (model.insertOnConflict numbers plan.conflictColumns plan.updateColumns plan.active rows)

end UpsertModel

end TideOrm
