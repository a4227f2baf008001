import TideOrm.Lib.HashMap
import Mathlib.Logic.Function.Basic

/-! Which connection a statement runs on (`database/state.rs`, `database/core.rs`, `internal/per_poll.rs`): the identities of pools,
kept by the addresses of their allocations, and the scopes that a future brings to whichever thread polls it. -/

namespace TideOrm

open Lib

/-- A `Weak` to a pool, which keeps the allocation at its address reserved, and an identity. -/
structure TrackedPool where
  pool : ℕ
  id : ℕ

structure ConnectionIdentities where
  lastId : ℕ
  /-- by the address of the connection -/
  assigned : HashMap ℕ TrackedPool
  aliases : HashMap ℕ TrackedPool

/-- The pools of a process, which are told apart by the order they were opened in. -/
structure PoolRegistry where
  /-- the pool that strong handles keep at an address -/
  pools : HashMap ℕ ℕ
  identities : ConnectionIdentities
  opened : ℕ
  /-- the pool that a pool has its identity from, the pool itself if it shares none -/
  original : ℕ → ℕ
  /-- the pools whose identity was asked for, with the answer -/
  answers : List (ℕ × ℕ)

/-- What a process does with its pools. -/
inductive PoolStep where
  /-- a pool is allocated at the address -/
  | opens (address : ℕ)
  /-- `sharing_identity_of`: a pool is allocated that reaches the database of the one at `original` -/
  | shares (address original : ℕ)
  /-- the last strong handle goes -/
  | drops (address : ℕ)
  /-- `connection_identity` -/
  | identifies (address : ℕ)

namespace ConnectionIdentities

/-- Drop what is tracked of pools that are gone. -/
def retained (tracked : HashMap ℕ TrackedPool) (pools : HashMap ℕ ℕ) : HashMap ℕ TrackedPool :=
  tracked.retain fun address entry => pools.lookup address == some entry.pool

/-- The identity of the pool at the address, assigning one if it has none yet. -/
def identify (s : ConnectionIdentities) (pools : HashMap ℕ ℕ) (address pool : ℕ) : ℕ × ConnectionIdentities :=
  match (s.assigned.lookup address).or (s.aliases.lookup address) with
  | some entry => (entry.id, s)
  | none => (s.lastId + 1,
    { lastId := s.lastId + 1
      assigned := (retained s.assigned pools).insert address ⟨pool, s.lastId + 1⟩
      aliases := retained s.aliases pools })

/-- `alias_connection_identity` -/
def aliasIdentity (s : ConnectionIdentities) (pools : HashMap ℕ ℕ) (address pool originalAddress originalPool : ℕ) : ℕ × ConnectionIdentities :=
  let identified := s.identify pools originalAddress originalPool
  (identified.1, { identified.2 with aliases := (retained identified.2.aliases pools).insert address ⟨pool, identified.1⟩ })

end ConnectionIdentities

namespace PoolRegistry

def new : PoolRegistry where
  pools := ∅
  identities := ⟨0, ∅, ∅⟩
  opened := 0
  original := id
  answers := []

/-- Nothing holds an allocation at the address, neither a handle nor a `Weak`. -/
def free (r : PoolRegistry) (address : ℕ) : Bool :=
  (r.pools.lookup address).isNone && (r.identities.assigned.lookup address).isNone && (r.identities.aliases.lookup address).isNone

def step (r : PoolRegistry) : PoolStep → PoolRegistry
  | .opens address => if r.free address then { r with pools := r.pools.insert address r.opened, opened := r.opened + 1 } else r
  | .shares address original =>
    match r.pools.lookup original with
    | some pool =>
      if r.free address then
        let pools := r.pools.insert address r.opened
        let shared := r.identities.aliasIdentity pools address r.opened original pool
        { pools := pools
          identities := shared.2
          opened := r.opened + 1
          original := Function.update r.original r.opened (r.original pool)
          answers := r.answers ++ [(pool, shared.1)] }
      else r
    | none => r
  | .drops address => { r with pools := r.pools.erase address }
  | .identifies address =>
    match r.pools.lookup address with
    | some pool =>
      let identified := r.identities.identify r.pools address pool
      { r with identities := identified.2, answers := r.answers ++ [(pool, identified.1)] }
    | none => r

def run (steps : List PoolStep) : PoolRegistry := steps.foldl step new

/-- The pool that `with_loading_connection` finds for a transaction begun under the identity. -/
def loadingPool (r : PoolRegistry) (origin : ℕ) : Option ℕ :=
  r.identities.assigned.entries.findSome? fun entry =>
    if entry.2.id = origin ∧ r.pools.lookup entry.1 = some entry.2.pool then some entry.2.pool else none

end PoolRegistry

/-- The connection a statement runs on: a pool, or a transaction begun on the pool of the identity `origin`. -/
inductive ConnectionRef where
  | database (pool : ℕ)
  | transaction (tx : ℕ) (origin : Option ℕ)
deriving DecidableEq

def ConnectionRef.isTransaction : ConnectionRef → Bool
  | .database _ => false
  | .transaction _ _ => true

/-- A `Database`. -/
inductive DatabaseHandle where
  | global
  | handle (connection : ConnectionRef)
deriving DecidableEq

/-- `Scope`, but for the scopes that enclose it. -/
structure ConnectionScope where
  connection : ConnectionRef
  origin : Option ℕ
deriving DecidableEq

/-- What a future does with the database between its awaits. -/
inductive Routine where
  | done
  | panics
  /-- something is awaited, and answers a number -/
  | awaits (rest : ℕ → Routine)
  /-- a statement through a handle, or through `__current_connection` -/
  | statement (through : Option DatabaseHandle) (rest : Option ConnectionRef → Routine)
  /-- `Database::transaction`; what comes next is told whether the closure ran -/
  | transaction (handle : DatabaseHandle) (body : ConnectionRef → Routine) (rest : Bool → Routine)
  /-- `__in_db_scope` -/
  | inScope (handle : DatabaseHandle) (body : Routine) (rest : Bool → Routine)
  | joins (left right rest : Routine)

/-- A future between its polls. -/
inductive Future where
  | finished
  | waiting (rest : ℕ → Routine)
  /-- a transaction begins on the connection -/
  | beginning (connection : ConnectionRef) (body : ConnectionRef → Routine) (rest : Bool → Routine)
  /-- `with_connection_override` -/
  | within (scope : ConnectionScope) (enclosing : List ConnectionScope) (future : Future) (rest : Bool → Routine)
  | both (left right : Future) (rest : Routine)

/-- What a poll comes to. -/
inductive Polled where
  | ready
  | pending (future : Future)
  | panicked

/-- What is left to poll. -/
def Polled.future : Polled → Future
  | .pending future => future
  | _ => .finished

/-- A connection that was asked for. -/
structure Request where
  /-- the scopes that the asking code is written in, the innermost first -/
  around : List ConnectionScope
  through : Option DatabaseHandle
  /-- the global connection then -/
  global : Option ℕ
  answer : Option ConnectionRef
deriving DecidableEq

/-- What a poll works on. -/
structure PollState where
  /-- `DB_OVERRIDE` of the thread: the innermost scope and those that enclose it -/
  override : List ConnectionScope
  global : Option ℕ
  nextTx : ℕ
  requests : List Request

section Scopes

-- the identity of a pool, which stays the same as long as it lives
variable (identity : ℕ → ℕ)

def ConnectionRef.origin : ConnectionRef → Option ℕ
  | .database pool => some (identity pool)
  | .transaction _ origin => origin

/-- Whether a handle on the pool `own` joins what was opened on `origin`. -/
def joinsOrigin (own origin : Option ℕ) : Bool :=
  match own, origin with
  | some own, some origin => own == origin
  | _, _ => true

/-- The innermost enclosing transaction a handle on the pool `own` joins. -/
def enclosingTransaction (own : Option ℕ) : List ConnectionScope → Option ConnectionRef
  | [] => none
  | scope :: enclosing =>
    if joinsOrigin own scope.origin then (if scope.connection.isTransaction then some scope.connection else none)
    else enclosingTransaction own enclosing

def DatabaseHandle.ownHandle (global : Option ℕ) : DatabaseHandle → Option ConnectionRef
  | .global => global.map .database
  | .handle connection => some connection

/-- `Database::__get_connection` -/
def DatabaseHandle.getConnection (global : Option ℕ) (scopes : List ConnectionScope) (handle : DatabaseHandle) : Option ConnectionRef :=
  let own := handle.ownHandle global
  let ownIdentity :=
    match own with
    | some (.database pool) => some (identity pool)
    | _ => none
  (enclosingTransaction ownIdentity scopes).or own

/-- `__current_connection` -/
def currentConnection (global : Option ℕ) : List ConnectionScope → Option ConnectionRef
  | [] => global.map .database
  | scope :: _ => some scope.connection

def connectionThrough (global : Option ℕ) (scopes : List ConnectionScope) : Option DatabaseHandle → Option ConnectionRef
  | some handle => handle.getConnection identity global scopes
  | none => currentConnection global scopes

namespace PollState

/-- Ask for a connection, where the thread's scopes are looked at and `around` is only noted. -/
def ask (s : PollState) (around : List ConnectionScope) (through : Option DatabaseHandle) : Option ConnectionRef × PollState :=
  let answer := connectionThrough identity s.global s.override through
  (answer, { s with requests := s.requests ++ [⟨around, through, s.global, answer⟩] })

def install (s : PollState) (scopes : List ConnectionScope) : PollState := { s with override := scopes }

end PollState

/-- The future in a scope was polled: what was installed before is again, also when it panicked, and what comes after it goes on when
it is ready. -/
def leaveScope (previous : List ConnectionScope) (scope : ConnectionScope) (enclosing : List ConnectionScope) (rest : Bool → Routine)
    (next : PollState → Polled × PollState) (polled : Polled × PollState) : Polled × PollState :=
  let s := polled.2.install previous
  match polled.1 with
  | .ready => next s
  | .pending future => (.pending (.within scope enclosing future rest), s)
  | .panicked => (.panicked, s)

/-- Two futures are polled one after the other. -/
def joinFutures (rest : Routine) (right : PollState → Polled × PollState) (next : PollState → Polled × PollState)
    (left : Polled × PollState) : Polled × PollState :=
  match left.1 with
  | .panicked => left
  | .ready =>
    let polled := right left.2
    match polled.1 with
    | .panicked => polled
    | .ready => next polled.2
    | .pending future => (.pending (.both .finished future rest), polled.2)
  | .pending waiting =>
    let polled := right left.2
    match polled.1 with
    | .panicked => polled
    | .ready => (.pending (.both waiting .finished rest), polled.2)
    | .pending future => (.pending (.both waiting future rest), polled.2)

/-- The code runs until it awaits something, ends or panics. -/
def Routine.advance : Routine → List ConnectionScope → PollState → Polled × PollState
  | .done, _, s => (.ready, s)
  | .panics, _, s => (.panicked, s)
  | .awaits rest, _, s => (.pending (.waiting rest), s)
  | .statement through rest, around, s =>
    let asked := s.ask identity around through
    (rest asked.1).advance around asked.2
  | .transaction handle body rest, around, s =>
    let asked := s.ask identity around (some handle)
    match asked.1 with
    | none => (rest false).advance around asked.2
    | some connection => (.pending (.beginning connection body rest), asked.2)
  | .inScope handle body rest, around, s =>
    let asked := s.ask identity around (some handle)
    match asked.1 with
    | none => (rest false).advance around asked.2
    | some connection =>
      let scope : ConnectionScope := ⟨connection, connection.origin identity⟩
      leaveScope s.override scope s.override rest (fun s => (rest true).advance around s)
        (body.advance (scope :: around) (asked.2.install (scope :: s.override)))
  | .joins left right rest, around, s =>
    joinFutures rest (fun s => right.advance around s) (fun s => rest.advance around s) (left.advance around s)

/-- `poll`, where what is awaited has the answers. `around` are the scopes that the future is written in. -/
def Future.poll : Future → (List Bool → ℕ) → List ConnectionScope → PollState → Polled × PollState
  | .finished, _, _, s => (.ready, s)
  | .waiting rest, answers, around, s => (rest (answers [])).advance identity around s
  | .beginning connection body rest, answers, around, s =>
    -- `BEGIN` fails
    if answers [] = 0 then (rest false).advance identity around s
    else
      let transaction := ConnectionRef.transaction s.nextTx (connection.origin identity)
      let scope : ConnectionScope := ⟨transaction, connection.origin identity⟩
      leaveScope s.override scope s.override rest (fun s => (rest true).advance identity around s)
        ((body transaction).advance identity (scope :: around) ({ s with nextTx := s.nextTx + 1 }.install (scope :: s.override)))
  | .within scope enclosing future rest, answers, around, s =>
    leaveScope s.override scope enclosing rest (fun s => (rest true).advance identity around s)
      (future.poll answers (scope :: around) (s.install (scope :: enclosing)))
  | .both left right rest, answers, around, s =>
    joinFutures rest (fun s => right.poll (fun path => answers (true :: path)) around s) (fun s => rest.advance identity around s)
      (left.poll (fun path => answers (false :: path)) around s)

/-- Threads that poll tasks. -/
structure Runtime where
  global : Option ℕ
  nextTx : ℕ
  requests : List Request
  /-- `DB_OVERRIDE` by thread -/
  overrides : ℕ → List ConnectionScope
  tasks : ℕ → Future

inductive RuntimeStep where
  | poll (thread task : ℕ) (answers : List Bool → ℕ)
  /-- a task is dropped -/
  | cancel (task : ℕ)
  /-- `set_global` and `reset_global` -/
  | setGlobal (pool : Option ℕ)

namespace Runtime

def new (tasks : ℕ → Routine) : Runtime where
  global := none
  nextTx := 0
  requests := []
  overrides _ := []
  tasks i := .waiting fun _ => tasks i

def step (r : Runtime) : RuntimeStep → Runtime
  | .poll thread task answers =>
    let polled := (r.tasks task).poll identity answers [] ⟨r.overrides thread, r.global, r.nextTx, r.requests⟩
    { r with
      nextTx := polled.2.nextTx
      requests := polled.2.requests
      overrides := Function.update r.overrides thread polled.2.override
      tasks := Function.update r.tasks task polled.1.future }
  | .cancel task => { r with tasks := Function.update r.tasks task .finished }
  | .setGlobal pool => { r with global := pool }

def run (r : Runtime) (steps : List RuntimeStep) : Runtime := steps.foldl (step identity) r

end Runtime

end Scopes

end TideOrm
