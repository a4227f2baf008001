import TideOrm.Lib.HashMap

/-! The identity map of an entity manager (`entity_manager/state.rs`, `mod.rs`), and how a
unit of work that does not commit puts it back (`save.rs`). Two things cover a key: the
log of what `put` and `remove` replaced, and the undo step of a `register`. -/

namespace TideOrm

open Lib

/-- What the map reads of its entities. The key carries the entity's type, so a key's
instance is always of the type it is looked up as. -/
structure IdentityMeta (Key Entity : Type) where
  /-- `identity_key::<T>(tide_pk_key())` -/
  identityKey : Entity → Key
  pkIsNew : Entity → Bool
  attachDatabase : Entity → Entity
  unloadRelations : Entity → Entity

/-- An `Arc`: two are the same when their pointers are. -/
structure Shared (Entity : Type) where
  pointer : ℕ
  entity : Entity
deriving DecidableEq

inductive IdentityUndo (Key : Type) where
  /-- `rollback_identity_map`, the first step of a unit of work -/
  | identityMap
  | registered (key : Key) (pointer : ℕ)

structure IdentityContext (Key Entity : Type) where
  identityMap : HashMap Key (Shared Entity)
  identityGeneration : ℕ
  /-- the pointer of the next `Arc` -/
  next : ℕ
  /-- the unit's log: what a key of a generation held before its first `put` or `remove` -/
  rollbackLog : HashMap (Key × ℕ) (Option (Shared Entity))
  /-- the undo steps of the unit's transaction, the newest first -/
  undo : List (IdentityUndo Key)

inductive IdentityOp (Key Entity : Type) where
  | register (entity : Entity)
  | put (entity : Entity)
  | remove (key : Key)
  | clear

namespace IdentityContext

variable {Key Entity : Type} [DecidableEq Key]

/-- The start of `in_unit_of_work`. -/
def inUnitOfWork (c : IdentityContext Key Entity) : IdentityContext Key Entity :=
  { c with rollbackLog := ∅, undo := [.identityMap] }

def recordIdentityMapRollback (c : IdentityContext Key Entity) (key : Key) : IdentityContext Key Entity :=
  let logKey := (key, c.identityGeneration)
  if (c.rollbackLog.lookup logKey).isSome then c
  else { c with rollbackLog := c.rollbackLog.insert logKey (c.identityMap.lookup key) }

/-- File `entity`, unless the map already holds its row, and return the instance held. -/
def register (info : IdentityMeta Key Entity) (c : IdentityContext Key Entity) (entity : Entity) :
    IdentityContext Key Entity × Entity :=
  let entity := info.attachDatabase entity
  if info.pkIsNew entity then (c, entity)
  else
    let key := info.identityKey entity
    match c.identityMap.lookup key with
    | some existing => (c, existing.entity)
    | none =>
      let stored : Shared Entity := ⟨c.next, entity⟩
      ({ c with
          identityMap := c.identityMap.insert key stored
          next := c.next + 1
          undo := .registered key stored.pointer :: c.undo }, entity)

def put (info : IdentityMeta Key Entity) (c : IdentityContext Key Entity) (entity : Entity) :
    IdentityContext Key Entity :=
  let entity := info.attachDatabase entity
  if info.pkIsNew entity then c
  else
    let key := info.identityKey entity
    let stored := info.attachDatabase (info.unloadRelations entity)
    let c := c.recordIdentityMapRollback key
    { c with identityMap := c.identityMap.insert key ⟨c.next, stored⟩, next := c.next + 1 }

/-- `remove_by_entity_manager_key` -/
def remove (c : IdentityContext Key Entity) (key : Key) : IdentityContext Key Entity :=
  let c := c.recordIdentityMapRollback key
  { c with identityMap := c.identityMap.erase key }

def clear (c : IdentityContext Key Entity) : IdentityContext Key Entity :=
  { c with identityGeneration := c.identityGeneration + 1, identityMap := ∅ }

def step (info : IdentityMeta Key Entity) (c : IdentityContext Key Entity) :
    IdentityOp Key Entity → IdentityContext Key Entity
  | .register entity => (c.register info entity).1
  | .put entity => c.put info entity
  | .remove key => c.remove key
  | .clear => c.clear

def run (info : IdentityMeta Key Entity) (c : IdentityContext Key Entity)
    (ops : List (IdentityOp Key Entity)) : IdentityContext Key Entity :=
  ops.foldl (step info) c

/-- `IdentityMapRollbackEntry::restore` -/
def restore (generation : ℕ) (map : HashMap Key (Shared Entity))
    (entry : (_ : Key × ℕ) × Option (Shared Entity)) : HashMap Key (Shared Entity) :=
  if generation ≠ entry.1.2 then map
  else
    match entry.2 with
    | some entity => map.insert entry.1.1 entity
    | none => map.erase entry.1.1

def rollbackIdentityMap (c : IdentityContext Key Entity) : IdentityContext Key Entity :=
  { c with
    identityMap := c.rollbackLog.entries.foldl (restore c.identityGeneration) c.identityMap
    rollbackLog := ∅ }

def runUndo (c : IdentityContext Key Entity) : IdentityUndo Key → IdentityContext Key Entity
  | .identityMap => c.rollbackIdentityMap
  | .registered key pointer =>
    if (c.identityMap.lookup key).any (fun current => decide (current.pointer = pointer)) then
      { c with identityMap := c.identityMap.erase key }
    else c

/-- The unit does not commit: its undo steps run, the newest first. -/
def rollback (c : IdentityContext Key Entity) : IdentityContext Key Entity :=
  { c.undo.foldl runUndo c with undo := [] }

end IdentityContext

end TideOrm
