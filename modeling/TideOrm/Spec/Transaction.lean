import TideOrm.Spec.QueryCache

/-! The records of the transactions open on one connection (`query_cache/pending.rs`,
`database/transaction.rs`): a transaction and the savepoints nested in it, each with the
undo steps it runs unless it commits and the invalidations it replays when it does. One
savepoint is open in a transaction at a time, so the open records are a stack. Work is
noted in the record of the connection it is done on, which another future can use while
a savepoint is open in it. A log of what happened is kept beside them. -/

namespace TideOrm

open Lib

/-- Why an open transaction can no longer run statements or commit. -/
inductive Abort where
  | deadlock
  | sqliteRollback
  | savepoint
  | cancelled
  | leaked
deriving DecidableEq

/-- A cancelled savepoint is rolled back with the transaction it was open in, which
leaves the ones around that one as they were. -/
def Abort.endsTheConnectionTransaction : Abort → Bool
  | .cancelled => false
  | _ => true

inductive Invalidation where
  | table (name : String)
  | database (name : String)
  | all
deriving DecidableEq

/-- The operation of the global cache that an invalidation is. -/
def Invalidation.apply (cache : QueryCache) : Invalidation → QueryCache
  | .table name => cache.invalidateModel name
  | .database name => cache.invalidateDatabase name
  | .all => cache.clear

structure PendingInvalidations where
  /-- which transaction this is the record of -/
  tx : ℕ
  tables : List String
  databases : List String
  all : Bool
  /-- the oldest first -/
  undo : List ℕ
  statementFailed : Bool
  aborted : Option Abort
  depth : ℕ
  /-- how many cancelled savepoints the record holds -/
  deferred : ℕ

namespace PendingInvalidations

def new (tx : ℕ) (enclosing : Option PendingInvalidations) : PendingInvalidations where
  tx := tx
  tables := []
  databases := []
  all := false
  undo := []
  statementFailed := false
  aborted := none
  depth := (enclosing.elim 0 fun record => record.depth) + 1
  deferred := 0

/-- What each invalidation notes in a record. -/
def note (r : PendingInvalidations) : Invalidation → PendingInvalidations
  | .table name => { r with tables := r.tables.insert (toAsciiLowercase name) }
  | .database name => { r with databases := r.databases.insert name }
  | .all => { r with all := true }

/-- Mark the transaction aborted, keeping the first reason. -/
def abort (r : PendingInvalidations) (reason : Abort) : PendingInvalidations :=
  { r with aborted := r.aborted.or (some reason) }

def clearSqliteRollback (r : PendingInvalidations) : PendingInvalidations :=
  if r.aborted = some .sqliteRollback then { r with aborted := none } else r

def noteFailedStatement (r : PendingInvalidations) (deadlocked : Bool) : PendingInvalidations :=
  let r := { r with statementFailed := true }
  if deadlocked then r.abort .deadlock else r

/-- `savepoints` cancelled savepoints are dropped if the connection is free, and else
held by the enclosing transaction, which cannot go on. -/
def deferOrDrop (r : PendingInvalidations) (savepoints : ℕ) (free : Bool) : PendingInvalidations :=
  if free then r else { r.abort .cancelled with deferred := r.deferred + savepoints }

/-- What a commit invalidates again. -/
def replayed (r : PendingInvalidations) : List Invalidation :=
  if r.all then [.all] else r.databases.map .database ++ r.tables.map .table

/-- What dropping the record tells the enclosing one. -/
def dropInto (r enclosing : PendingInvalidations) (free : Bool) : PendingInvalidations :=
  let enclosing :=
    match r.aborted with
    | some reason => if reason.endsTheConnectionTransaction then enclosing.abort reason else enclosing
    | none => enclosing
  if r.deferred = 0 then enclosing else enclosing.deferOrDrop r.deferred free

end PendingInvalidations

inductive TxEvent where
  /-- an undo step was registered, in the innermost of the transactions `within`, with
  the transactions `inside` open in that one -/
  | registered (step : ℕ) (inside within : List ℕ)
  | ran (step : ℕ)
  | recorded (invalidation : Invalidation) (within : List ℕ)
  | applied (invalidation : Invalidation)
  | committed (tx : ℕ)
  | dropped (tx : ℕ)
deriving DecidableEq

structure Connection where
  /-- the records of the open transactions, the innermost first -/
  records : List PendingInvalidations
  cache : QueryCache
  nextTx : ℕ
  nextStep : ℕ
  /-- the oldest event first -/
  log : List TxEvent

/-- How a transaction scope ends. -/
inductive Ending where
  /-- the closure succeeded; the answers of the check a failed statement asks for, and
  of `COMMIT` -/
  | success (canCommit commits : Bool)
  /-- the closure failed -/
  | failure
  /-- the future is dropped before it ends, with the connection `free` or held -/
  | cancelled (free : Bool)
  /-- the future is dropped while it ends: while it commits, or rolls back -/
  | cancelledEnding (committing : Bool)

/-- What happens on the connection. The work of an open transaction is done on that of
the `i`-th record from the innermost, and outside all of them where there is no such
record. -/
inductive TxOp where
  | beginScope
  /-- a savepoint fails, or is cancelled, while it starts -/
  | beginFails
  /-- `undo_on_rollback` -/
  | undo (i : ℕ)
  | invalidate (i : ℕ) (invalidation : Invalidation)
  /-- a statement fails; it may have deadlocked, or made SQLite roll back -/
  | failStatement (i : ℕ) (deadlocked sqlite rolledBack : Bool)
  | endScope (ending : Ending)
  /-- another client uses the cache -/
  | cache (now : Instant) (op : CacheOp)

namespace Connection

def new (cache : QueryCache) : Connection where
  records := []
  cache := cache
  nextTx := 0
  nextStep := 0
  log := []

/-- The transactions open now, the innermost first. -/
def openTxs (c : Connection) : List ℕ := c.records.map PendingInvalidations.tx

/-- Change the `i`-th open record from the innermost, if any (`pending::record` under
`ConnectionRef::recording`). -/
def record (c : Connection) (i : ℕ) (note : PendingInvalidations → PendingInvalidations) : Connection :=
  { c with records := c.records.modify i note }

/-- Invalidate in the cache, and note it in the `i`-th open record. -/
def invalidate (i : ℕ) (c : Connection) (invalidation : Invalidation) : Connection :=
  let noted := c.record i fun r => r.note invalidation
  { noted with cache := invalidation.apply c.cache, log := c.log ++ [.applied invalidation] }

/-- `replay_invalidations`, with the enclosing record the innermost one. -/
def replayInvalidations (c : Connection) (r : PendingInvalidations) : Connection :=
  r.replayed.foldl (invalidate 0) c

/-- `replay`: the transaction has committed. -/
def replay (c : Connection) (r : PendingInvalidations) : Connection :=
  let handed := c.record 0 fun enclosing => { enclosing with undo := enclosing.undo ++ r.undo }
  replayInvalidations { handed with log := c.log ++ [.committed r.tx] } r

/-- The record is dropped before a `replay`: its undo steps run, the newest first. -/
def drop (c : Connection) (r : PendingInvalidations) (free : Bool) : Connection :=
  let told := c.record 0 fun enclosing => r.dropInto enclosing free
  { told with log := c.log ++ .dropped r.tx :: r.undo.reverse.map .ran }

/-- `TransactionScope::begin`: a transaction, or a savepoint in the innermost one
unless that was aborted. -/
def beginScope (c : Connection) : Connection :=
  match c.records with
  | [] => { c with records := [.new c.nextTx none], nextTx := c.nextTx + 1 }
  | innermost :: _ =>
    if innermost.aborted.isSome then c
    else { c with records := .new c.nextTx (some innermost) :: c.records, nextTx := c.nextTx + 1 }

/-- `TransactionScope::end`, or its drop, for the innermost transaction. -/
def endScope (c : Connection) (ending : Ending) : Connection :=
  match c.records with
  | [] => c
  | r :: rest =>
    let outer := { c with records := rest }
    -- `end` first drops the savepoints the record holds
    let ended := { r with deferred := 0 }
    match ending with
    | .success canCommit commits =>
      if r.aborted.isSome then outer.drop ended true
      else if r.statementFailed && !canCommit then outer.drop ended true
      else if commits then outer.replay ended
      -- a commit that fails may still have committed
      else (outer.replayInvalidations ended).drop ended true
    | .failure => outer.drop ended true
    | .cancelled free => (outer.record 0 fun enclosing => enclosing.deferOrDrop 1 free).drop r free
    | .cancelledEnding committing =>
      let unknown := if committing && r.aborted.isNone then outer.replayInvalidations ended else outer
      (unknown.record 0 fun enclosing => enclosing.abort .savepoint).drop ended true

def failStatement (deadlocked sqlite rolledBack : Bool) (r : PendingInvalidations) : PendingInvalidations :=
  let r := r.noteFailedStatement deadlocked
  if sqlite then
    let r := r.abort .sqliteRollback
    if rolledBack then r else r.clearSqliteRollback
  else r

def step (c : Connection) : TxOp → Connection
  | .beginScope => c.beginScope
  | .beginFails => c.record 0 fun r => r.abort .savepoint
  | .undo i =>
    if i < c.records.length then
      let pushed := c.record i fun r => { r with undo := r.undo ++ [c.nextStep] }
      let event := .registered c.nextStep (c.openTxs.take i) (c.openTxs.drop i)
      { pushed with nextStep := c.nextStep + 1, log := c.log ++ [event] }
    -- outside a transaction nothing can roll back, and the step is dropped unrun
    else c
  | .invalidate i invalidation =>
    invalidate i { c with log := c.log ++ [.recorded invalidation (c.openTxs.drop i)] } invalidation
  | .failStatement i deadlocked sqlite rolledBack => c.record i (failStatement deadlocked sqlite rolledBack)
  | .endScope ending => c.endScope ending
  | .cache now op => { c with cache := op.apply now c.cache }

def run (c : Connection) (ops : List TxOp) : Connection := ops.foldl step c

end Connection

end TideOrm
