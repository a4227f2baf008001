import TideOrm.Lib.HashMap
import TideOrm.Spec.Error
import TideOrm.Spec.FlushOrder

/-! The managed entries of an entity manager (`entity_manager/managed.rs`, `mod.rs`,
`state.rs`): the handles it gives out, the map it finds them in by key, and what a
flush records to undo itself. A flush of an entry is several steps, since its
statements are awaited and the holder may act meanwhile. One entity type is
modelled: the map's keys carry the type, so types never meet. -/

namespace TideOrm

open Lib

/-- An entity: its fields, and what its relation wrappers cache. -/
@[ext] structure Row (Field Val Rel : Type) where
  fields : Field → Val
  relations : Rel

/-- What the manager reads of an entity type. -/
structure EntityModel (Field Val Rel : Type) where
  tableName : String
  fieldNames : List Field
  complete : ∀ field, field ∈ fieldNames
  /-- `tide_pk_key` -/
  pkKey : Row Field Val Rel → String
  /-- `tide_pk_is_new` -/
  pkIsNew : Row Field Val Rel → Bool
  /-- equality of two entities' `to_entity_model`, which a NaN column fails -/
  columnsEq : Row Field Val Rel → Row Field Val Rel → Bool

section

variable {Field Val Rel : Type} [DecidableEq Field] [DecidableEq Val] [DecidableEq Rel]

@[ext] structure ManagedEntry (Field Val Rel : Type) where
  current : Row Field Val Rel
  snapshot : Option (Row Field Val Rel)
  state : EntityState
  persistedKey : Option String
  identityKey : Option String

/-- The fields a merge gave the stored value, which differed from what the entry
held. -/
structure FieldChanges (Field Val Rel : Type) where
  fields : List Field
  before : Row Field Val Rel
  after : Row Field Val Rel

/-- What one flush of an entry changed, each part as it was before and after. -/
structure FlushUndo (Field Val Rel : Type) where
  fields : Option (FieldChanges Field Val Rel)
  snapshot : Option (Row Field Val Rel) × Option (Row Field Val Rel)
  persistedKey : Option String × Option String
  identityKey : Option String × Option String
  state : EntityState × EntityState

namespace Row

def copyField (target source : Row Field Val Rel) (field : Field) : Row Field Val Rel :=
  { target with fields := Function.update target.fields field (source.fields field) }

def patch (row : Row Field Val Rel) (changes : List (Field × Val)) : Row Field Val Rel :=
  { row with
    fields := changes.foldl (fun fields change => Function.update fields change.1 change.2) row.fields }

end Row

/-- Put back each field still holding the stored value. -/
def FieldChanges.undo (changes : FieldChanges Field Val Rel) (target : Row Field Val Rel) :
    Row Field Val Rel :=
  changes.fields.foldl (fun target field =>
    if target.fields field = changes.after.fields field then target.copyField changes.before field
    else target) target

/-- Give `target` each field of `holder` merged with `saved`: a field `holder` still
holds as in `base` takes the stored value. Also returns the fields that took a
different one. -/
def mergeFields (model : EntityModel Field Val Rel) (target holder base saved : Row Field Val Rel) :
    Row Field Val Rel × List Field :=
  model.fieldNames.foldl (fun (target, changed) field =>
    let held := holder.fields field
    if held = base.fields field then
      (target.copyField saved field, if held = saved.fields field then changed else changed ++ [field])
    else (target.copyField holder field, changed)) (target, [])

namespace ManagedEntry

def overwriteMerged (e : ManagedEntry Field Val Rel) (entity : Row Field Val Rel) :
    ManagedEntry Field Val Rel :=
  { e with current := entity, state := if e.persistedKey.isSome then .managed else .new }

def markRemoved (e : ManagedEntry Field Val Rel) : ManagedEntry Field Val Rel := { e with state := .removed }

/-- The holder sets some fields. -/
def edit (e : ManagedEntry Field Val Rel) (changes : List (Field × Val)) : ManagedEntry Field Val Rel :=
  { e with current := e.current.patch changes }

/-- The holder replaces what the relations cache. -/
def editRelations (e : ManagedEntry Field Val Rel) (relations : Rel) : ManagedEntry Field Val Rel :=
  { e with current := { e.current with relations } }

/-- The entry's own part of `evict`. -/
def evicted (e : ManagedEntry Field Val Rel) : ManagedEntry Field Val Rel :=
  { e with identityKey := none, state := .detached }

/-- The entry moved onto the stored row: its edits stay, over that row. -/
def rebased (model : EntityModel Field Val Rel) (e : ManagedEntry Field Val Rel)
    (loaded saved : Row Field Val Rel) : ManagedEntry Field Val Rel × FieldChanges Field Val Rel :=
  let merged := mergeFields model e.current e.current loaded saved
  ({ e with current := merged.1, snapshot := some saved }, ⟨merged.2, e.current, saved⟩)

def unrebased (e : ManagedEntry Field Val Rel) (changes : FieldChanges Field Val Rel)
    (loaded : Row Field Val Rel) : ManagedEntry Field Val Rel :=
  { e with current := changes.undo e.current, snapshot := some loaded }

/-- What a flush that wrote the row makes of the entry. A removal or a detachment
that arrived meanwhile stays. -/
def written (model : EntityModel Field Val Rel) (e : ManagedEntry Field Val Rel)
    (read saved : Row Field Val Rel) : ManagedEntry Field Val Rel × FlushUndo Field Val Rel :=
  let merged := mergeFields model saved e.current read saved
  let nextKey := some (model.pkKey saved)
  let identityKey := if e.state = .detached then e.identityKey else nextKey
  let state := if e.state = .detached ∨ e.state = .removed then e.state else .managed
  (⟨merged.1, some saved, state, nextKey, identityKey⟩,
    { fields := some ⟨merged.2, read, saved⟩
      snapshot := (e.snapshot, some saved)
      persistedKey := (e.persistedKey, nextKey)
      identityKey := (e.identityKey, identityKey)
      state := (e.state, state) })

/-- What a flush that deleted the row changed. -/
def removalUndo (e : ManagedEntry Field Val Rel) : FlushUndo Field Val Rel where
  fields := none
  snapshot := (e.snapshot, none)
  persistedKey := (e.persistedKey, none)
  identityKey := (e.identityKey, none)
  state := (e.state, .detached)

/-- The fields and relations of an undone flush. -/
def undoneCurrent (fields : Option (FieldChanges Field Val Rel)) (current : Row Field Val Rel) :
    Row Field Val Rel :=
  match fields with
  | none => current
  | some changes =>
    changes.undo (if current.relations = changes.after.relations then
      { current with relations := changes.before.relations } else current)

/-- The entry's own part of `undo_flush`: each part that still holds what the flush
left goes back. -/
def undone (model : EntityModel Field Val Rel) (e : ManagedEntry Field Val Rel)
    (undo : FlushUndo Field Val Rel) : ManagedEntry Field Val Rel :=
  { current := undoneCurrent undo.fields e.current
    snapshot :=
      match e.snapshot, undo.snapshot.2 with
      | none, none => undo.snapshot.1
      | some row, some after => if model.columnsEq row after then undo.snapshot.1 else e.snapshot
      | _, _ => e.snapshot
    persistedKey := if e.persistedKey = undo.persistedKey.2 then undo.persistedKey.1 else e.persistedKey
    identityKey := if e.identityKey = undo.identityKey.2 then undo.identityKey.1 else e.identityKey
    state := if e.state = undo.state.2 then undo.state.1 else e.state }

end ManagedEntry

inductive UndoStep (Field Val Rel : Type) where
  | flush (address : ℕ) (undo : FlushUndo Field Val Rel)
  | rebase (address : ℕ) (changes : FieldChanges Field Val Rel) (loaded : Row Field Val Rel)
  /-- a lookup whose transaction did not commit detaches the entry it attached -/
  | attach (key : String) (address : ℕ)

/-- The flush of one entry that is awaiting its statements. -/
inductive InFlight (Field Val Rel : Type) where
  | write (address : ℕ) (read : Row Field Val Rel) (previousKey : Option String)
  | removal (address : ℕ)

structure Manager (Field Val Rel : Type) where
  entry : ℕ → ManagedEntry Field Val Rel
  /-- the address of the next entry -/
  next : ℕ
  managedEntries : List ℕ
  managedIdentityMap : HashMap String ℕ
  inFlight : Option (InFlight Field Val Rel)
  /-- the undo steps of the open transaction, the newest first -/
  undo : List (UndoStep Field Val Rel)

namespace Manager

/-- A manager without entries; `blank` stands at the addresses not in use. -/
def new (blank : Row Field Val Rel) : Manager Field Val Rel where
  entry := fun _ => ⟨blank, none, .detached, none, none⟩
  next := 0
  managedEntries := []
  managedIdentityMap := ∅
  inFlight := none
  undo := []

def setEntry (m : Manager Field Val Rel) (a : ℕ) (e : ManagedEntry Field Val Rel) : Manager Field Val Rel :=
  { m with entry := Function.update m.entry a e }

/-- `undo_on_rollback` -/
def pushUndo (m : Manager Field Val Rel) (step : UndoStep Field Val Rel) : Manager Field Val Rel :=
  { m with undo := step :: m.undo }

def getManagedByKey (m : Manager Field Val Rel) (key : String) : Option ℕ := m.managedIdentityMap.lookup key

def putManagedEntry (m : Manager Field Val Rel) (key : String) (a : ℕ) : Manager Field Val Rel :=
  { m with managedIdentityMap := m.managedIdentityMap.insert key a }

def removeManagedEntry (m : Manager Field Val Rel) (key : String) : Manager Field Val Rel :=
  { m with managedIdentityMap := m.managedIdentityMap.erase key }

def unfile (m : Manager Field Val Rel) (key : Option String) : Manager Field Val Rel :=
  match key with
  | some key => m.removeManagedEntry key
  | none => m

def refile (m : Manager Field Val Rel) (key : Option String) (a : ℕ) : Manager Field Val Rel :=
  match key with
  | some key => m.putManagedEntry key a
  | none => m

/-- File the entry under `after` in place of `before`. -/
def moveManagedEntry (m : Manager Field Val Rel) (a : ℕ) (before after : Option String) :
    Manager Field Val Rel :=
  (if before = after then m else m.unfile before).refile after a

def removeManagedOpsEntry (m : Manager Field Val Rel) (a : ℕ) : Manager Field Val Rel :=
  { m with managedEntries := m.managedEntries.filter fun b => decide (b ≠ a) }

def reregisterManagedEntry (m : Manager Field Val Rel) (a : ℕ) : Manager Field Val Rel :=
  if a ∈ m.managedEntries then m else { m with managedEntries := m.managedEntries ++ [a] }

/-- Manage `entity` in a new entry, filed under `identityKey` when it has one. -/
def fileManaged (m : Manager Field Val Rel) (entity : Row Field Val Rel)
    (snapshot : Option (Row Field Val Rel)) (state : EntityState) (persistedKey identityKey : Option String) :
    Manager Field Val Rel :=
  let a := m.next
  let filed := m.setEntry a ⟨entity, snapshot, state, persistedKey, identityKey.or persistedKey⟩
  { filed with next := a + 1, managedEntries := m.managedEntries ++ [a] }.refile identityKey a

def persist (model : EntityModel Field Val Rel) (m : Manager Field Val Rel) (entity : Row Field Val Rel) :
    Manager Field Val Rel :=
  let key := if model.pkIsNew entity then none else some (model.pkKey entity)
  match key.bind m.getManagedByKey with
  | some a => m.setEntry a ((m.entry a).overwriteMerged entity)
  | none => m.fileManaged entity none .new none key

/-- `tracked` is the copy of the row the identity map holds. -/
def merge (model : EntityModel Field Val Rel) (m : Manager Field Val Rel) (entity : Row Field Val Rel)
    (tracked : Option (Row Field Val Rel)) : Manager Field Val Rel :=
  if model.pkIsNew entity then m.persist model entity
  else
    let key := model.pkKey entity
    match m.getManagedByKey key with
    | some a => m.setEntry a ((m.entry a).overwriteMerged entity)
    | none => m.fileManaged entity tracked .managed (some key) (some key)

/-- The end of `find_managed`; `recorded` when the row was read in a transaction. -/
def attachPersistedManaged (model : EntityModel Field Val Rel) (m : Manager Field Val Rel)
    (entity : Row Field Val Rel) (recorded : Bool) : Manager Field Val Rel :=
  let key := model.pkKey entity
  match m.getManagedByKey key with
  | some _ => m
  | none =>
    let filed := m.fileManaged entity (some entity) .managed (some key) (some key)
    if recorded then filed.pushUndo (.attach key m.next) else filed

/-- Take the entry out of the managed map, under the key it was filed as, and
detach it. -/
def evict (m : Manager Field Val Rel) (a : ℕ) : Manager Field Val Rel :=
  (m.unfile (m.entry a).identityKey).setEntry a (m.entry a).evicted

def detach (m : Manager Field Val Rel) (a : ℕ) : Manager Field Val Rel :=
  (m.evict a).removeManagedOpsEntry a

def clear (m : Manager Field Val Rel) : Manager Field Val Rel :=
  { m.managedEntries.foldl evict m with managedIdentityMap := ∅, managedEntries := [] }

/-- Move the entry onto `saved`, the row as another path of this context stored it;
an entry never loaded has nothing to rebase. -/
def rebase (model : EntityModel Field Val Rel) (m : Manager Field Val Rel) (a : ℕ)
    (saved : Row Field Val Rel) : Manager Field Val Rel :=
  match (m.entry a).snapshot with
  | none => m
  | some loaded =>
    let rebased := (m.entry a).rebased model loaded saved
    (m.setEntry a rebased.1).pushUndo (.rebase a rebased.2 loaded)

/-- The end of `save_in_scope`: a managed handle to the saved row moves onto it. -/
def stored (model : EntityModel Field Val Rel) (m : Manager Field Val Rel) (saved : Row Field Val Rel) :
    Manager Field Val Rel :=
  match m.getManagedByKey (model.pkKey saved) with
  | some a => m.rebase model a saved
  | none => m

/-- The checks a flush of an entry makes before its statements. -/
def flushBegin (model : EntityModel Field Val Rel) (m : Manager Field Val Rel) (a : ℕ) :
    Except Error (Manager Field Val Rel) :=
  let e := m.entry a
  let table := model.tableName
  match e.state with
  | .detached => .ok m
  | .removed =>
    match e.persistedKey with
    | none => .ok { m with inFlight := some (.removal a) }
    | some key =>
      let deleteKey := model.pkKey (e.snapshot.getD e.current)
      if deleteKey = key then .ok { m with inFlight := some (.removal a) }
      else .error (.query s!"the primary key of a managed {table} row changed from {key} to {deleteKey}; refusing to delete a different row")
  | .new | .managed =>
    let key := model.pkKey e.current
    match e.persistedKey with
    | none => .ok { m with inFlight := some (.write a e.current e.identityKey) }
    | some persisted =>
      if key = persisted then .ok { m with inFlight := some (.write a e.current e.identityKey) }
      else .error (.query s!"the primary key of a managed {table} row changed from {persisted} to {key}; a managed entity keeps its key, so detach it and persist a new one")

/-- The end of `flush_write`, once the row is `saved`. -/
def flushWrite (model : EntityModel Field Val Rel) (m : Manager Field Val Rel) (a : ℕ)
    (read : Row Field Val Rel) (previousKey : Option String) (saved : Row Field Val Rel) :
    Except Error (Manager Field Val Rel) :=
  let e := m.entry a
  let table := model.tableName
  if e.current.relations ≠ read.relations then
    .error (.query s!"a relation of a managed {table} row was edited while the flush wrote it; the flush was rolled back and the edit kept, so flush again")
  else
    let written := e.written model read saved
    let nextKey := some (model.pkKey saved)
    let m := { m with inFlight := none }
    let m := if e.state = .detached then m else m.moveManagedEntry a previousKey nextKey
    .ok ((m.setEntry a written.1).pushUndo (.flush a written.2))

/-- The end of `flush_removal`, once the row is deleted. -/
def flushRemoval (m : Manager Field Val Rel) (a : ℕ) : Manager Field Val Rel :=
  let undo := (m.entry a).removalUndo
  let m := { m with inFlight := none }.evict a
  (m.setEntry a { m.entry a with snapshot := none, persistedKey := none }).pushUndo (.flush a undo)

def undoFlush (model : EntityModel Field Val Rel) (m : Manager Field Val Rel) (a : ℕ)
    (undo : FlushUndo Field Val Rel) : Manager Field Val Rel :=
  let e := m.entry a
  let refiled :=
    if e.identityKey = undo.identityKey.2 ∧ undo.identityKey.1 ≠ undo.identityKey.2 then
      m.moveManagedEntry a undo.identityKey.2 undo.identityKey.1
    else m
  let m := refiled.setEntry a (e.undone model undo)
  if e.state = undo.state.2 ∧ undo.state.1 ≠ undo.state.2 ∧ undo.state.2 = .detached then
    m.reregisterManagedEntry a
  else m

def runUndo (model : EntityModel Field Val Rel) (m : Manager Field Val Rel) :
    UndoStep Field Val Rel → Manager Field Val Rel
  | .flush a undo => m.undoFlush model a undo
  | .rebase a changes loaded => m.setEntry a ((m.entry a).unrebased changes loaded)
  | .attach key a => if m.getManagedByKey key = some a then m.detach a else m

/-- Run the newest undo step. -/
def undoLast (model : EntityModel Field Val Rel) (m : Manager Field Val Rel) : Manager Field Val Rel :=
  match m.undo with
  | [] => m
  | step :: rest => { m.runUndo model step with undo := rest }

/-- Every undo step, the newest first. -/
def rollback (model : EntityModel Field Val Rel) (m : Manager Field Val Rel) : Manager Field Val Rel :=
  { m.undo.foldl (runUndo model) m with undo := [] }

end Manager

/-- One step of a client of the manager, or of a flush. -/
inductive ManagerOp (Field Val Rel : Type) where
  | persist (entity : Row Field Val Rel)
  | merge (entity : Row Field Val Rel) (tracked : Option (Row Field Val Rel))
  | attach (entity : Row Field Val Rel) (recorded : Bool)
  | edit (address : ℕ) (changes : List (Field × Val))
  | editRelations (address : ℕ) (relations : Rel)
  | remove (address : ℕ)
  | detach (address : ℕ)
  | clear
  | flushBegin (address : ℕ)
  | stored (saved : Row Field Val Rel)
  | flushWritten (saved : Row Field Val Rel)
  | flushDeleted
  /-- the flush fails, or is cancelled, before the entry is done -/
  | flushAbandoned
  /-- the flush completes and drops its detached entries -/
  | flushEnd
  | undoLast
  | commit

namespace Manager

/-- One step. A flush step only happens while that flush is awaiting it, an undo
step and a commit only once none is; an error leaves the manager as it is. Only an
entry that exists is flushed. -/
def step (model : EntityModel Field Val Rel) (m : Manager Field Val Rel) :
    ManagerOp Field Val Rel → Manager Field Val Rel
  | .persist entity => m.persist model entity
  | .merge entity tracked => m.merge model entity tracked
  | .attach entity recorded => m.attachPersistedManaged model entity recorded
  | .edit a changes => m.setEntry a ((m.entry a).edit changes)
  | .editRelations a relations => m.setEntry a ((m.entry a).editRelations relations)
  | .remove a => m.setEntry a (m.entry a).markRemoved
  | .detach a => m.detach a
  | .clear => m.clear
  | .flushBegin a =>
    if m.inFlight.isSome ∨ m.next ≤ a then m else (m.flushBegin model a).toOption.getD m
  | .stored saved => m.stored model saved
  | .flushWritten saved =>
    match m.inFlight with
    | some (.write a read previousKey) => (m.flushWrite model a read previousKey saved).toOption.getD m
    | _ => m
  | .flushDeleted =>
    match m.inFlight with
    | some (.removal a) => m.flushRemoval a
    | _ => m
  | .flushAbandoned => { m with inFlight := none }
  | .flushEnd =>
    { m with managedEntries := m.managedEntries.filter fun a => decide ((m.entry a).state ≠ .detached) }
  | .undoLast => if m.inFlight.isSome then m else m.undoLast model
  | .commit => if m.inFlight.isSome then m else { m with undo := [] }

def run (model : EntityModel Field Val Rel) (m : Manager Field Val Rel) (ops : List (ManagerOp Field Val Rel)) :
    Manager Field Val Rel :=
  ops.foldl (step model) m

end Manager

end

end TideOrm
