import TideOrm.Lib.HashMap

/-! The baselines dirty tracking compares models with (`model/dirty_tracking.rs`): a
bounded store of each row's values by the pool they were read from, and the undo steps
that put a baseline back when the transaction that replaced it rolls back. Values are
compared with `==` only. -/

namespace TideOrm

open Lib

/-- A baseline's model type and primary key. -/
abbrev RowKey := ℕ × String

/-- The pool a baseline's row was read from. -/
abbrev Origin := Option ℕ

structure SnapshotEntry (V : Type) where
  sequence : ℕ
  /-- `none` when the pool's baseline was forgotten while another pool still held a
  different one -/
  values : Option V
deriving DecidableEq

structure SnapshotStore (V : Type) where
  entries : HashMap RowKey (HashMap Origin (SnapshotEntry V))
  order : HashMap ℕ (RowKey × Origin)
  nextSequence : ℕ
  capacity : ℕ

/-- Sequences are 64-bit and wrap. -/
def sequenceLimit : ℕ := 2 ^ 64

namespace SnapshotStore

variable {V : Type} [DecidableEq V]

def new (capacity : ℕ) : SnapshotStore V where
  entries := ∅
  order := ∅
  nextSequence := 0
  capacity := max capacity 1

variable (s : SnapshotStore V)

def baseline (row : RowKey) (origin : Origin) : Option (SnapshotEntry V) :=
  (s.entries.lookup row).bind fun baselines => baselines.lookup origin

/-- The baseline of `row`, when it is the same in every pool the row was read from. -/
def get (row : RowKey) : Option V :=
  match s.entries.lookup row with
  | none => none
  | some baselines =>
    match baselines.entries.map fun e => e.2.values with
    | some first :: others => if others.all (fun other => other == some first) then some first else none
    | _ => none

/-- File an entry under its row and pool, in the place of the one there. -/
def file (row : RowKey) (origin : Origin) (entry : SnapshotEntry V) : SnapshotStore V :=
  let order := s.order.insert entry.sequence (row, origin)
  let baselines := (s.entries.lookup row).getD ∅
  { s with
    entries := s.entries.insert row (baselines.insert origin entry)
    order := match baselines.lookup origin with
      | some previous => order.erase previous.sequence
      | none => order }

/-- While there are more baselines than the capacity, the row of the oldest leaves with
every pool's baseline of it. -/
def evict : ℕ → SnapshotStore V → SnapshotStore V
  | 0, s => s
  | fuel + 1, s =>
    if s.capacity < s.order.len then
      match s.order.popFirst with
      | none => s
      | some (⟨row, _⟩, order) =>
        let baselines := (s.entries.lookup row).getD ∅
        evict fuel { s with
          entries := s.entries.erase row
          order := baselines.entries.foldl (fun order e => order.erase e.2.sequence) order }
    else s

def put (row : RowKey) (origin : Origin) (entry : SnapshotEntry V) : SnapshotStore V :=
  let filed := s.file row origin entry
  evict filed.order.len filed

/-- Store one pool's baseline of `row` and return its sequence. -/
def insert (row : RowKey) (origin : Origin) (values : Option V) : SnapshotStore V × ℕ :=
  let sequence := s.nextSequence
  let s := { s with nextSequence := (s.nextSequence + 1) % sequenceLimit }
  (s.put row origin { sequence, values }, sequence)

/-- Remove one pool's baseline of `row`. -/
def take (row : RowKey) (origin : Origin) : SnapshotStore V × Option (SnapshotEntry V) :=
  match s.entries.lookup row with
  | none => (s, none)
  | some baselines =>
    match baselines.lookup origin with
    | none => (s, none)
    | some entry =>
      let left : HashMap Origin (SnapshotEntry V) := baselines.erase origin
      ({ s with
          entries := if left.len = 0 then s.entries.erase row else s.entries.insert row left
          order := s.order.erase entry.sequence }, some entry)

/-- Set one pool's baseline of `row` to `values`, or forget it for `none`. Returns the entry
it replaces, and the sequence of the entry left in its place, if any. -/
def replace (row : RowKey) (origin : Origin) (values : Option V) :
    SnapshotStore V × Option (SnapshotEntry V) × Option ℕ :=
  let (taken, previous) := s.take row origin
  let disagrees := previous.any fun previous =>
    (taken.entries.lookup row).any fun others =>
      others.entries.any fun other => previous.values.isNone || other.2.values != previous.values
  if values.isSome || disagrees then
    let (inserted, sequence) := taken.insert row origin values
    (inserted, previous, some sequence)
  else (taken, previous, none)

/-- Undo a `replace` that left `standing` behind, unless the pool's baseline of `row`
changed again since. -/
def restore (row : RowKey) (origin : Origin) (standing : Option ℕ) (previous : Option (SnapshotEntry V)) :
    SnapshotStore V :=
  if (s.baseline row origin).map SnapshotEntry.sequence ≠ standing then s
  else
    let taken := (s.take row origin).1
    match previous with
    | some previous => taken.put row origin previous
    | none => taken

def clear : SnapshotStore V := { s with entries := ∅, order := ∅ }

end SnapshotStore

/-- The operations of a store. An entry that is put back, or restored, is one that was taken
out before, named by its place among those. -/
inductive SnapshotOp (V : Type) where
  | insert (row : RowKey) (origin : Origin) (values : Option V)
  | put (row : RowKey) (origin : Origin) (entry : ℕ)
  | take (row : RowKey) (origin : Origin)
  | replace (row : RowKey) (origin : Origin) (values : Option V)
  | restore (row : RowKey) (origin : Origin) (standing : Option ℕ) (previous : Option ℕ)
  | clear

/-- A store and the entries taken out of it. -/
structure SnapshotRun (V : Type) where
  store : SnapshotStore V
  taken : List (SnapshotEntry V)

namespace SnapshotRun

variable {V : Type} [DecidableEq V]

def new (capacity : ℕ) : SnapshotRun V := ⟨.new capacity, []⟩

def step (r : SnapshotRun V) : SnapshotOp V → SnapshotRun V
  | .insert row origin values => { r with store := (r.store.insert row origin values).1 }
  | .put row origin entry =>
    match r.taken[entry]? with
    | none => r
    | some e => ⟨r.store.put row origin e, r.taken.eraseIdx entry⟩
  | .take row origin => ⟨(r.store.take row origin).1, r.taken ++ (r.store.take row origin).2.toList⟩
  | .replace row origin values =>
    ⟨(r.store.replace row origin values).1, r.taken ++ (r.store.replace row origin values).2.1.toList⟩
  | .restore row origin standing none => { r with store := r.store.restore row origin standing none }
  | .restore row origin standing (some previous) =>
    match r.taken[previous]? with
    | none => r
    | some e => ⟨r.store.restore row origin standing (some e), r.taken.eraseIdx previous⟩
  | .clear => { r with store := r.store.clear }

def run (r : SnapshotRun V) (ops : List (SnapshotOp V)) : SnapshotRun V := ops.foldl step r

end SnapshotRun

/-- What a pool does with the baseline of one row. -/
inductive PoolOp (V : Type) where
  | remember (origin : Origin) (values : V)
  | forget (origin : Origin)

namespace PoolOp

variable {V : Type} [DecidableEq V]

def origin : PoolOp V → Origin
  | .remember origin _ => origin
  | .forget origin => origin

def values : PoolOp V → Option V
  | .remember _ values => some values
  | .forget _ => none

def apply (row : RowKey) (s : SnapshotStore V) (op : PoolOp V) : SnapshotStore V :=
  (s.replace row op.origin op.values).1

/-- The values each pool remembered last. -/
def noteLast (last : Origin → Option V) : PoolOp V → Origin → Option V
  | .remember origin values => Function.update last origin (some values)
  | .forget _ => last

def run (row : RowKey) (s : SnapshotStore V) (ops : List (PoolOp V)) : SnapshotStore V := ops.foldl (apply row) s

def lastRemembered (ops : List (PoolOp V)) : Origin → Option V := ops.foldl noteLast fun _ => none

end PoolOp

/-- A pool's baseline of a row was changed: `standing` is the sequence of the entry left in
the place of `previous`. -/
structure BaselineChange (V : Type) where
  row : RowKey
  origin : Origin
  standing : Option ℕ
  previous : Option (SnapshotEntry V)

/-- What a transaction that rolls back undoes. -/
inductive BaselineUndo (V : Type) where
  | baseline (change : BaselineChange V)
  | invalidated (changes : List (BaselineChange V))

def BaselineUndo.changes {V : Type} : BaselineUndo V → List (BaselineChange V)
  | .baseline change => [change]
  | .invalidated changes => changes

/-- The baselines of the process, and the undo steps recorded so far: `none` for one that
was run or dropped. -/
structure Tracking (V : Type) where
  store : SnapshotStore V
  steps : List (Option (BaselineUndo V))
  /-- how many baselines have been given a sequence -/
  issued : ℕ

/-- Steps are named by their place among those recorded. A transaction that rolls back runs
its steps, one that commits drops them, as does a change outside of transactions. -/
inductive TrackingOp (V : Type) where
  | setBaseline (row : RowKey) (origin : Origin) (values : Option V)
  | invalidateModel (modelType : ℕ)
  | clearAll
  | undo (step : ℕ)
  | drop (step : ℕ)

namespace SnapshotStore

variable {V : Type}

/-- The rows and pools of a model type's baselines. -/
def keysOf (s : SnapshotStore V) (modelType : ℕ) : List (RowKey × Origin) :=
  (s.entries.entries.filter fun row => row.1.1 == modelType).flatMap fun row => row.2.entries.map fun e => (row.1, e.1)

/-- Put a tombstone in the place of each baseline. -/
def invalidate : SnapshotStore V → List (RowKey × Origin) → SnapshotStore V × List (BaselineChange V)
  | s, [] => (s, [])
  | s, (row, origin) :: keys =>
    let (taken, previous) := s.take row origin
    let (inserted, standing) := taken.insert row origin none
    let (s, undo) := inserted.invalidate keys
    (s, ⟨row, origin, some standing, previous⟩ :: undo)

def undoChange (s : SnapshotStore V) (c : BaselineChange V) : SnapshotStore V :=
  s.restore c.row c.origin c.standing c.previous

/-- A tombstone that still stands is forgotten. -/
def dropTombstone (s : SnapshotStore V) (c : BaselineChange V) : SnapshotStore V :=
  if (s.baseline c.row c.origin).any fun entry => some entry.sequence == c.standing then (s.take c.row c.origin).1 else s

def dropStep (s : SnapshotStore V) : BaselineUndo V → SnapshotStore V
  | .baseline _ => s
  | .invalidated changes => changes.foldl dropTombstone s

end SnapshotStore

namespace Tracking

variable {V : Type} [DecidableEq V]

def new (capacity : ℕ) : Tracking V := ⟨.new capacity, [], 0⟩

def pending (t : Tracking V) (step : ℕ) : Option (BaselineUndo V) := t.steps[step]?.join

def step (t : Tracking V) : TrackingOp V → Tracking V
  | .setBaseline row origin values =>
    let (store, previous, standing) := t.store.replace row origin values
    ⟨store, t.steps ++ [some (.baseline ⟨row, origin, standing, previous⟩)], t.issued + standing.toList.length⟩
  | .invalidateModel modelType =>
    let (store, changes) := t.store.invalidate (t.store.keysOf modelType)
    ⟨store, t.steps ++ [some (.invalidated changes)], t.issued + changes.length⟩
  | .clearAll => { t with store := t.store.clear }
  | .undo i =>
    match t.pending i with
    | none => t
    | some step => { t with store := step.changes.foldl SnapshotStore.undoChange t.store, steps := t.steps.set i none }
  | .drop i =>
    match t.pending i with
    | none => t
    | some step => { t with store := t.store.dropStep step, steps := t.steps.set i none }

def run (t : Tracking V) (ops : List (TrackingOp V)) : Tracking V := ops.foldl step t

end Tracking

end TideOrm
