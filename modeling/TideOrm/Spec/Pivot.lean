import TideOrm.Lib.Interleave
import TideOrm.Spec.Filters
import TideOrm.Spec.Placeholders

/-! Many-to-many relations reached through a pivot table (`relations/many_to_many.rs`). A statement is one
step on the pivot's rows, but for PostgreSQL's insert, which looks for the pair before it writes. A transaction is
one step, as on SQLite, which has one writer at a time. -/

namespace TideOrm

open Lib

/-- A row of a pivot table. -/
structure PivotRow (K : Type) where
  column : String → K
  deletedAt : Option ℕ

/-- The two columns of a pivot table that a relation links rows by. -/
structure PivotKeys where
  foreignKey : String
  relatedKey : String
  ne : foreignKey ≠ relatedKey

/-- The same columns, as the relation of the other side has them. -/
def PivotKeys.inverse (keys : PivotKeys) : PivotKeys := ⟨keys.relatedKey, keys.foreignKey, keys.ne.symm⟩

/-- The error of a constraint or of a trigger, for the rows a statement finds and those it would leave. A statement that
changes no row passes. -/
abbrev Faults (K : Type) := { fault : List (PivotRow K) → List (PivotRow K) → Option Error // ∀ rows, fault rows rows = none }

/-- The `Pivot` model, and its table in the database. -/
structure Pivot (K : Type) where
  tableName : String
  softDelete : Bool
  dbType : DatabaseType
  /-- what a unique key refuses beside the rows there are -/
  refuses : List (PivotRow K) → PivotRow K → Bool
  faults : Faults K
  columnDefault : String → K
  null : K
  /-- the value a JSON key is bound as, by column -/
  bind : String → Json → K
  bind_null : ∀ column key, bind column key = null ↔ key.isNull = true
  /-- a JSON value as text -/
  display : Json → String
  display_inj : ∀ column key other, display key = display other → bind column key = bind column other

structure HasManyThrough extends PivotKeys where
  localKey : String
  relatedLocalKey : String
  pivotTable : String
  key : Option Json

/-- What a relation holds besides its keys (`relations/state.rs`), where a connection is reachable. -/
structure RelationState (R : Type) where
  cached : Option R
  loaded : Bool
  /-- an attached entity manager keeps the rows -/
  entityManager : Bool

namespace RelationState

variable {R : Type} (state : RelationState R)

def prefersDatabase : Bool := !state.entityManager

/-- What `load` serves instead of querying. -/
def served (canQuery : Bool) : Option (Option R) := if state.loaded && !canQuery then some state.cached else none

end RelationState

namespace PivotRow

variable {K : Type} [DecidableEq K]

def isPair (keys : PivotKeys) (parent related : K) (row : PivotRow K) : Bool :=
  decide (row.column keys.foreignKey = parent) && decide (row.column keys.relatedKey = related)

def isTrashed (row : PivotRow K) : Bool := row.deletedAt.isSome

end PivotRow

namespace Pivot

variable {K : Type} [DecidableEq K] (pivot : Pivot K) (keys : PivotKeys)

/-- A trashed row no longer links its pair. -/
def isLive (row : PivotRow K) : Bool := !(pivot.softDelete && row.isTrashed)

abbrev Statement (α : Type) := Call Error (List (PivotRow K)) α

/-- A statement that writes, which may be refused. -/
def write {α : Type} (f : List (PivotRow K) → α × List (PivotRow K)) : Statement (K := K) α :=
  Call.attempt fun rows =>
    match pivot.faults.1 rows (f rows).2 with
    | none => (.ok (f rows).1, (f rows).2)
    | some e => (.error e, rows)

/-- `UPDATE .. SET deleted_at = NULL` on the pair's trashed rows. -/
def restorePair (parent related : K) : Statement (K := K) ℕ :=
  pivot.write fun rows =>
    (rows.countP fun row => row.isPair keys parent related && row.isTrashed,
      rows.map fun row => if row.isPair keys parent related then { row with deletedAt := none } else row)

def pairExists (withTrashed : Bool) (parent related : K) : Statement (K := K) Bool :=
  Call.atomically fun rows => (rows.any fun row => row.isPair keys parent related && (withTrashed || pivot.isLive row), rows)

/-- `delete()` on the pair: its live rows are trashed, where the pivot has soft delete. -/
def deletePair (now : ℕ) (parent related : K) : Statement (K := K) ℕ :=
  pivot.write fun rows =>
    (rows.countP fun row => row.isPair keys parent related && pivot.isLive row,
      if pivot.softDelete then
        rows.map fun row => if row.isPair keys parent related && pivot.isLive row then { row with deletedAt := some now } else row
      else rows.filter fun row => !row.isPair keys parent related)

/-- `force_delete()` on the owner's rows, trashed ones included. -/
def forceDeleteOwner (parent : K) : Statement (K := K) ℕ :=
  pivot.write fun rows =>
    (rows.countP fun row => decide (row.column keys.foreignKey = parent),
      rows.filter fun row => !decide (row.column keys.foreignKey = parent))

/-- The row an insert writes: the two keys, and the defaults of the other columns. -/
def newRow (parent related : K) : PivotRow K :=
  ⟨Function.update (Function.update pivot.columnDefault keys.relatedKey related) keys.foreignKey parent, none⟩

/-- The row written, unless a unique key refuses it. -/
def insertRow (parent related : K) (rows : List (PivotRow K)) : ℕ × List (PivotRow K) :=
  if pivot.refuses rows (pivot.newRow keys parent related) then (0, rows)
  else (1, rows ++ [pivot.newRow keys parent related])

/-- The statement of `build_pivot_insert`, and the rows it reports. MySQL and MariaDB insert unconditionally and count a
duplicate too; the others insert what is missing. -/
def pivotInsert (parent related : K) : Statement (K := K) ℕ :=
  match pivot.dbType with
  | .mySql | .mariaDb => pivot.write fun rows => (1, (pivot.insertRow keys parent related rows).2)
  | .sqlite => pivot.write fun rows =>
    if rows.any (PivotRow.isPair keys parent related) then (0, rows) else pivot.insertRow keys parent related rows
  | .postgres => do
    -- other statements may run between the look and the write
    let found ← Call.atomically fun rows => (rows.any (PivotRow.isPair keys parent related), rows)
    if found then return 0
    pivot.write (pivot.insertRow keys parent related)

def isMysqlFamily : Bool := pivot.dbType == .mySql || pivot.dbType == .mariaDb

/-- Another unique key took the row, and the pair is not linked. -/
def refusal (parentPk relatedId : Json) : Error :=
  let table := pivot.tableName
  .query s!"no {table} row links {pivot.display parentPk} with {pivot.display relatedId}: another unique key of {table} refused it"

def insertPivotPair (parentPk relatedId : Json) : Statement (K := K) Unit := do
  let parent := pivot.bind keys.foreignKey parentPk
  let related := pivot.bind keys.relatedKey relatedId
  let written ← pivot.pivotInsert keys parent related
  let unconfirmed := written == 0 || pivot.isMysqlFamily
  if unconfirmed then
    if !(← pivot.pairExists keys false parent related) then
      throw (pivot.refusal parentPk relatedId)

/-- `attach` where no row of the pair is in the trash: MySQL looks first, with an insert that does not. -/
def attachMissing (parentPk relatedId : Json) : Statement (K := K) Unit := do
  if pivot.isMysqlFamily then
    if ← pivot.pairExists keys true (pivot.bind keys.foreignKey parentPk) (pivot.bind keys.relatedKey relatedId) then return
  pivot.insertPivotPair keys parentPk relatedId

/-- `attach` for keys that can be linked. -/
def attachPair (parentPk relatedId : Json) : Statement (K := K) Unit := do
  if pivot.softDelete then
    if 0 < (← pivot.restorePair keys (pivot.bind keys.foreignKey parentPk) (pivot.bind keys.relatedKey relatedId)) then return
  pivot.attachMissing keys parentPk relatedId

/-- The transaction of `sync`. -/
def replacePairs (parentPk : Json) (wanted : List Json) : Statement (K := K) Unit :=
  Call.transaction do
    let _ ← pivot.forceDeleteOwner keys (pivot.bind keys.foreignKey parentPk)
    wanted.forM fun id => pivot.insertPivotPair keys parentPk id

end Pivot

def ensureRelationConfigured (relationName : String) (requiredValues : List String) : Except Error Unit :=
  if requiredValues.any String.isEmpty then
    .error (.query s!"{relationName} relation is not configured; use {relationName}::new(...) or a macro-generated relation field")
  else .ok ()

def requireScalarRelationKey (value : Json) (context : String) : Except Error Json :=
  match value with
  | .array _ | .object _ =>
    .error (.query s!"{context} only supports scalar relation keys; composite primary keys require an explicit single-column relation key or a custom query")
  | _ => .ok value

/-- `key`, which a write links rows by; a NULL one links none. -/
def linkableKey (key : Json) (context : String) : Except Error Json :=
  if key.isNull then .error (.query s!"{context}: the relation key is NULL, so no row can be linked to it") else .ok key

def requiredKey (key : Option Json) (what context : String) : Except Error Json :=
  match key with
  | none => .error (.query s!"{what} not set for relation")
  | some key => requireScalarRelationKey key context

namespace HasManyThrough

variable {K : Type} [DecidableEq K] (relation : HasManyThrough) (pivot : Pivot K)

def ensureConfigured : Except Error Unit := do
  ensureRelationConfigured "HasManyThrough"
    [relation.foreignKey, relation.relatedKey, relation.localKey, relation.relatedLocalKey, relation.pivotTable]
  if relation.pivotTable ≠ pivot.tableName then
    throw (.query s!"HasManyThrough pivot table '{relation.pivotTable}' is not the table of its pivot model, '{pivot.tableName}'; the relation reads and writes its pivot rows through that model, so name its table")

def parentKey (context : String) : Except Error Json := do
  relation.ensureConfigured pivot
  requiredKey relation.key "Parent primary key" context

def attach (relatedId : Json) : Pivot.Statement (K := K) Unit := do
  let pk ← liftExcept (do linkableKey (← relation.parentKey pivot "HasManyThrough::attach") "HasManyThrough::attach")
  let relatedId ← liftExcept (do
    linkableKey (← requireScalarRelationKey relatedId "HasManyThrough::attach") "HasManyThrough::attach related key")
  pivot.attachPair relation.toPivotKeys pk relatedId

def detach (now : ℕ) (relatedId : Json) : Pivot.Statement (K := K) ℕ := do
  let pk ← liftExcept (do linkableKey (← relation.parentKey pivot "HasManyThrough::detach") "HasManyThrough::detach")
  pivot.deletePair relation.toPivotKeys now (pivot.bind relation.foreignKey pk) (pivot.bind relation.relatedKey relatedId)

/-- The ids to link, each text once, or the error of the first that cannot be linked. -/
def wantedKeys (seen : List String) : List Json → Except Error (List Json)
  | [] => .ok []
  | id :: ids => do
    let _ ← linkableKey (← requireScalarRelationKey id "HasManyThrough::sync") "HasManyThrough::sync related key"
    if seen.contains (pivot.display id) then wantedKeys seen ids
    else return id :: (← wantedKeys (pivot.display id :: seen) ids)

def sync (relatedIds : List Json) : Pivot.Statement (K := K) Unit := do
  let pk ← liftExcept (do linkableKey (← relation.parentKey pivot "HasManyThrough::sync") "HasManyThrough::sync")
  let wanted ← liftExcept (wantedKeys pivot [] relatedIds)
  pivot.replacePairs relation.toPivotKeys pk wanted

/-- The related rows that `load` reads and `count` counts: those in the scope of their model whose key one of the owner's
live pivot rows holds. -/
def loadQuery {R : Type} (related : List R) (inScope : R → Bool) (keyOf : R → K) (context : String) (rows : List (PivotRow K)) :
    Except Error (List R) := do
  let pk ← relation.parentKey pivot context
  let links := if pk.isNull then [] else
    rows.filter fun row => decide (row.column relation.foreignKey = pivot.bind relation.foreignKey pk) && pivot.isLive row
  return related.filter fun row =>
    inScope row && decide (keyOf row ≠ pivot.null) && links.any fun link => decide (link.column relation.relatedKey = keyOf row)

/-- Whether `load` would read the database. -/
def canQuery {R : Type} (state : RelationState R) : Bool :=
  (relation.ensureConfigured pivot).isOk && relation.key.isSome && state.prefersDatabase

def load {R : Type} (state : RelationState (List R)) (related : List R) (inScope : R → Bool) (keyOf : R → K)
    (rows : List (PivotRow K)) : Except Error (List R) :=
  match state.served (relation.canQuery pivot state) with
  | some cached => .ok (cached.getD [])
  | none => relation.loadQuery pivot related inScope keyOf "HasManyThrough::load" rows

def count {R : Type} (related : List R) (inScope : R → Bool) (keyOf : R → K) (rows : List (PivotRow K)) : Except Error ℕ :=
  (relation.loadQuery pivot related inScope keyOf "HasManyThrough::count" rows).map List.length

/-- The relation reads the columns, from either side. -/
def Over (keys : PivotKeys) : Prop := relation.toPivotKeys = keys ∨ relation.toPivotKeys = keys.inverse

end HasManyThrough

/-- A change made through a relation. -/
inductive PivotCall where
  | attach (relatedId : Json)
  | detach (now : ℕ) (relatedId : Json)
  | sync (relatedIds : List Json)

/-- The rows a call reports, if any. -/
def PivotCall.run {K : Type} [DecidableEq K] (relation : HasManyThrough) (pivot : Pivot K) :
    PivotCall → Pivot.Statement (K := K) (Option ℕ)
  | .attach relatedId => do
    relation.attach pivot relatedId
    return none
  | .detach now relatedId => return some (← relation.detach pivot now relatedId)
  | .sync relatedIds => do
    relation.sync pivot relatedIds
    return none

def PivotCall.isSync : PivotCall → Bool
  | .sync _ => true
  | _ => false

/-- A call through a relation over the columns, and what the database refuses meanwhile. -/
structure PivotUse (K : Type) (keys : PivotKeys) where
  relation : HasManyThrough
  isOver : relation.Over keys
  faults : Faults K
  call : PivotCall

namespace PivotUse

variable {K : Type} [DecidableEq K] {keys : PivotKeys} (use : PivotUse K keys) (pivot : Pivot K)

def pivotThen : Pivot K := { pivot with faults := use.faults }

def run : Pivot.Statement (K := K) (Option ℕ) := use.call.run use.relation (use.pivotThen pivot)

end PivotUse

/-- A client of the pivot table: it makes one call after another outside any transaction, each chosen by what it was told
before. It syncs on SQLite only: elsewhere the statements of others run between those of a transaction. -/
inductive PivotClient (K : Type) (dbType : DatabaseType) (keys : PivotKeys) where
  | idle (told : Except Error (Option ℕ))
  | calls (use : PivotUse K keys) (serial : use.call.isSync = true → dbType = .sqlite)
    (next : Except Error (Option ℕ) → PivotClient K dbType keys)

def PivotClient.program {K : Type} [DecidableEq K] {keys : PivotKeys} {dbType : DatabaseType} (pivot : Pivot K) :
    PivotClient K dbType keys → Program (List (PivotRow K)) (Except Error (Option ℕ))
  | .idle told => pure told
  | .calls use _ next => (use.run pivot).run >>= fun result => (next result).program pivot

end TideOrm
