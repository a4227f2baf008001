import TideOrm.Spec.Error
import TideOrm.Spec.Transaction

/-! The statements and savepoints of open transactions (`internal/executor.rs`,
`database/transaction.rs`), and which of them the records let through. Whatever runs on a
connection holds its gate meanwhile. A record lives while its scope, a handle that
outlived the scope, a statement or the record of a savepoint in it holds it, and tells
the record around it of its abort when it is dropped. What else a record holds, and hands
on, is in `Spec.Transaction`. -/

namespace TideOrm

/-- What happened to a transaction aborted this way. -/
def Abort.reason : Abort → String
  | .deadlock => "a statement inside it deadlocked, and the database rolled the whole transaction back"
  | .sqliteRollback => "a failed statement made SQLite roll the whole transaction back"
  | .savepoint =>
    "a nested transaction failed or was cancelled while it started, or was cancelled while it ended, which ends the enclosing transaction"
  | .cancelled =>
    "a nested transaction was cancelled while another statement of its connection was running, so it could not be rolled back"
  | .leaked =>
    "a nested transaction's handle leaked outside its scope, so its savepoint stays open until that handle drops"

def Abort.commitError (abort : Abort) : String :=
  s!"the transaction cannot commit: {abort.reason}; further TideORM statements on this transaction are blocked"

def Abort.statementError (abort : Abort) : String :=
  s!"the statement was not run: {abort.reason}; further TideORM statements on this transaction are blocked, so retry the whole transaction"

def transactionAborted : String := "tideorm: transaction aborted: "

/-- Whether a statement may run on the transaction of the record. -/
def ensureTransactionActive (r : PendingInvalidations) : Except String Unit :=
  match r.aborted with
  | some abort => .error (transactionAborted ++ abort.statementError)
  | none => .ok ()

/-- What holds a connection. -/
inductive Held where
  | statement (tx : ℕ)
  /-- SQLite is asked whether the statement that failed ended the transaction -/
  | checking (tx : ℕ)
  /-- a savepoint starts in the transaction -/
  | starting (tx : ℕ)
deriving DecidableEq

def Held.tx : Held → ℕ
  | .statement tx => tx
  | .checking tx => tx
  | .starting tx => tx

/-- A record that something still holds. -/
structure LiveRecord where
  record : PendingInvalidations
  enclosing : Option ℕ
  /-- the connection, named by its outermost transaction -/
  gate : ℕ
  /-- a savepoint is open or starting in the transaction -/
  slot : Bool
  /-- the transaction's scope has ended or was dropped -/
  ended : Bool

inductive SessionEvent where
  | admitted (tx : ℕ)
  | refused (tx : ℕ) (error : String)
  | committed (tx : ℕ)
  /-- the scope ended with an error -/
  | failed (tx : ℕ)
  /-- the record was dropped without a commit -/
  | dropped (tx : ℕ)
deriving DecidableEq

structure Session where
  records : ℕ → Option LiveRecord
  gates : ℕ → Option Held
  next : ℕ
  /-- the oldest event first -/
  log : List SessionEvent

inductive StatementEnd where
  | succeeded
  | failed (deadlocked sqlite : Bool)
  /-- its future is dropped -/
  | cancelled

inductive ScopeEnd where
  /-- the closure succeeded; the answers of the check a failed statement asks for, and of
  `COMMIT` -/
  | success (canCommit commits : Bool)
  | failure
  /-- a clone of the handle outlived the closure -/
  | leaked
  /-- the future is dropped while the scope commits or rolls back -/
  | cancelledEnding
deriving DecidableEq

inductive SessionOp where
  | beginTransaction
  | statement (tx : ℕ)
  | endStatement (tx : ℕ) (result : StatementEnd)
  /-- the answer of SQLite's check: `active` when it kept the transaction open -/
  | checked (tx : ℕ) (active : Bool)
  | startSavepoint (tx : ℕ)
  | savepointStarted (tx : ℕ)
  /-- a savepoint fails, or its future is dropped, while it starts -/
  | savepointFails (tx : ℕ)
  /-- `kept` when a handle still holds the record -/
  | endScope (tx : ℕ) (ending : ScopeEnd) (kept : Bool)
  /-- the scope's future is dropped before it ends -/
  | cancelScope (tx : ℕ) (kept : Bool)
  /-- the last handle that outlived the scope is dropped -/
  | release (tx : ℕ)

namespace Session

def new : Session where
  records := fun _ => none
  gates := fun _ => none
  next := 0
  log := []

variable (s : Session)

def modify (tx : ℕ) (f : LiveRecord → LiveRecord) : Session :=
  { s with records := Function.update s.records tx ((s.records tx).map f) }

/-- Note something in the record of the enclosing transaction, if there is one. -/
def tell (enclosing : Option ℕ) (note : PendingInvalidations → PendingInvalidations) : Session :=
  match enclosing with
  | none => s
  | some tx => s.modify tx fun live => { live with record := note live.record }

def setGate (gate : ℕ) (held : Option Held) : Session :=
  { s with gates := Function.update s.gates gate held }

def emit (event : SessionEvent) : Session := { s with log := s.log ++ [event] }

def free (live : LiveRecord) : Bool := (s.gates live.gate).isNone

/-- Whether a savepoint's record or what runs on the connection holds the record. -/
def inUse (tx : ℕ) (live : LiveRecord) : Bool :=
  (s.gates live.gate).any (fun held => held.tx == tx) ||
    (List.range s.next).any fun other => (s.records other).any fun child => child.enclosing == some tx

/-- Nothing holds the record any longer. -/
def dropRecord (tx : ℕ) (live : LiveRecord) : Session :=
  let told := s.tell live.enclosing fun enclosing => live.record.dropInto enclosing (s.free live)
  { told with records := Function.update told.records tx none, log := s.log ++ [.dropped tx] }

/-- The savepoint that held the enclosing transaction's slot is gone. -/
def freeSlot (enclosing : Option ℕ) : Session :=
  match enclosing with
  | none => s
  | some tx => s.modify tx fun live => { live with slot := false }

/-- The scope lets go of its record, `live`, and of the enclosing transaction's slot. -/
def letGo (tx : ℕ) (live : LiveRecord) (kept : Bool) : Session :=
  let released := s.freeSlot live.enclosing
  if kept || s.inUse tx live then released.modify tx fun _ => { live with ended := true }
  else released.dropRecord tx live

def beginTransaction : Session :=
  { s with
    records := Function.update s.records s.next
      (some { record := .new s.next none, enclosing := none, gate := s.next, slot := false, ended := false })
    next := s.next + 1 }

/-- A statement, or a savepoint, that the record lets through holds the connection. -/
def letThrough (tx : ℕ) (live : LiveRecord) (held : Held) : Session :=
  match ensureTransactionActive live.record with
  | .ok () => (s.setGate live.gate (some held)).emit (.admitted tx)
  | .error error => s.emit (.refused tx error)

def endStatement (tx : ℕ) (live : LiveRecord) : StatementEnd → Session
  | .succeeded => s.setGate live.gate none
  | .cancelled => s.setGate live.gate none
  | .failed deadlocked sqlite =>
    let noted := s.modify tx fun live => { live with record := live.record.noteFailedStatement deadlocked }
    if sqlite then
      (noted.modify tx fun live => { live with record := live.record.abort .sqliteRollback }).setGate
        live.gate (some (.checking tx))
    else noted.setGate live.gate none

def savepointStarted (tx : ℕ) (live : LiveRecord) : Session :=
  let started := s.setGate live.gate none
  { started with
    records := Function.update s.records s.next
      (some { record := .new s.next (some live.record), enclosing := some tx, gate := live.gate,
              slot := false, ended := false })
    next := s.next + 1 }

def endScope (tx : ℕ) (live : LiveRecord) (ending : ScopeEnd) (kept : Bool) : Session :=
  -- `end` first drops the savepoints the record holds
  let live := { live with record := { live.record with deferred := 0 } }
  let fails := (s.emit (.failed tx)).letGo tx live kept
  match ending with
  | .success canCommit commits =>
    if live.record.aborted.isSome then fails
    else if live.record.statementFailed && !canCommit then fails
    else if commits then
      -- the record is taken out and replayed, so nothing is told when it is dropped
      let released := s.freeSlot live.enclosing
      { released with records := Function.update released.records tx none, log := s.log ++ [.committed tx] }
    else fails
  | .failure => fails
  | .leaked => ((s.emit (.failed tx)).tell live.enclosing fun enclosing => enclosing.abort .leaked).letGo tx live true
  | .cancelledEnding =>
    ((s.emit (.failed tx)).tell live.enclosing fun enclosing => enclosing.abort .savepoint).letGo tx live kept

def cancelScope (tx : ℕ) (live : LiveRecord) (kept : Bool) : Session :=
  (s.tell live.enclosing fun enclosing => enclosing.deferOrDrop 1 (s.free live)).letGo tx live kept

/-- A step that cannot be made yet waits: it leaves everything as it is. -/
def step (op : SessionOp) : Session :=
  match op with
  | .beginTransaction => s.beginTransaction
  | .statement tx =>
    match s.records tx with
    | none => s
    | some live => if s.free live then s.letThrough tx live (.statement tx) else s
  | .endStatement tx result =>
    match s.records tx with
    | none => s
    | some live => if s.gates live.gate = some (.statement tx) then s.endStatement tx live result else s
  | .checked tx active =>
    match s.records tx with
    | none => s
    | some live =>
      if s.gates live.gate = some (.checking tx) then
        let asked := s.setGate live.gate none
        if active then asked.modify tx fun live => { live with record := live.record.clearSqliteRollback }
        else asked
      else s
  | .startSavepoint tx =>
    match s.records tx with
    | none => s
    | some live =>
      if s.free live && !live.slot then
        let tried := s.letThrough tx live (.starting tx)
        tried.modify tx fun live => { live with slot := (ensureTransactionActive live.record).isOk }
      else s
  | .savepointStarted tx =>
    match s.records tx with
    | none => s
    | some live => if s.gates live.gate = some (.starting tx) then s.savepointStarted tx live else s
  | .savepointFails tx =>
    match s.records tx with
    | none => s
    | some live =>
      if s.gates live.gate = some (.starting tx) then
        (s.setGate live.gate none).modify tx fun live =>
          { live with record := live.record.abort .savepoint, slot := false }
      else s
  | .endScope tx ending kept =>
    match s.records tx with
    | none => s
    | some live =>
      -- a savepoint still open in the transaction holds a clone of its handle
      if s.free live && !live.ended && (!live.slot || ending = .leaked) then s.endScope tx live ending kept else s
  | .cancelScope tx kept =>
    match s.records tx with
    | none => s
    | some live => if !live.ended then s.cancelScope tx live kept else s
  | .release tx =>
    match s.records tx with
    | none => s
    | some live => if live.ended && !s.inUse tx live then s.dropRecord tx live else s

def run (ops : List SessionOp) : Session := ops.foldl step s

end Session

end TideOrm
