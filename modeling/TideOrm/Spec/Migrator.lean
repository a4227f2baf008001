import TideOrm.Lib.Outcome
import TideOrm.Spec.Error
import TideOrm.Spec.Placeholders
import Mathlib.Data.List.Sort

/-! The migrator and its ledger (`migration/migrator.rs`, `migration/ledger.rs`). Each action
on the database may fail; what a migration's statements change is a line of the log of
attempts. -/

namespace TideOrm

open Lib

structure Migration where
  version : String
  name : String
  foreignKeysOff : Bool
deriving DecidableEq

structure MigrationInfo where
  version : String
  name : String
deriving DecidableEq

structure MigrationResult where
  applied : List MigrationInfo := []
  skipped : List MigrationInfo := []
  rolledBack : List MigrationInfo := []
deriving DecidableEq

structure Migrator where
  migrations : List Migration
  table : String

/-- A migration's statements were run: its up, or its down, for the ledger of a table. -/
structure Attempt where
  table : String
  version : String
  apply : Bool
  committed : Bool
deriving DecidableEq

structure MigrationDb where
  backend : DatabaseType
  /-- each table's recorded versions, by their ids -/
  ledgers : String → List String
  log : List Attempt
  /-- how the actions to come end -/
  faults : List (Option Error)

abbrev MigrateM := Command Error MigrationDb

def supportsTransactionalDdl : DatabaseType → Bool
  | .postgres => true
  | .sqlite => true
  | _ => false

/-- An action on the database. -/
def act : MigrateM Unit := fun s =>
  match s.faults with
  | [] => (.ok (), s)
  | none :: faults => (.ok (), { s with faults })
  | some e :: faults => (.error e, { s with faults })

namespace Ledger

variable (table : String)

def ensure : MigrateM Unit := act

/-- Every recorded version, in the order the entries were written. -/
def keys : MigrateM (List String) := do
  act
  return (← get).ledgers table

def record (version : String) : MigrateM Unit := do
  act
  let s ← get
  if version ∈ s.ledgers table then throw (.query "UNIQUE constraint failed")
  else set { s with ledgers := Function.update s.ledgers table (s.ledgers table ++ [version]) }

def remove (version : String) : MigrateM Unit := do
  act
  let s ← get
  set { s with ledgers := Function.update s.ledgers table ((s.ledgers table).filter (· != version)) }

end Ledger

def isSafeIdentifierSegment (segment : String) : Bool :=
  match segment.toList with
  | [] => false
  | first :: rest => (first == '_' || first.isAlpha) && rest.all fun c => c == '_' || c.isAlphanum

/-- The table's name is checked before it reaches any SQL. -/
def checkedLedger (table : String) : MigrateM Unit :=
  if isSafeIdentifierSegment table then pure ()
  else throw (.configuration ("invalid migrations table name '" ++ table ++
    "': expected ASCII letters, numbers, and underscores"))

/-- The state a transaction leaves that does not commit. -/
def MigrationDb.rolledBack (before after : MigrationDb) : MigrationDb :=
  { after with
    ledgers := before.ledgers
    log := before.log ++ (after.log.drop before.log.length).map fun attempt => { attempt with committed := false } }

def transaction (work : MigrateM Unit) : MigrateM Unit := do
  act
  fun before =>
    match work before with
    | (.error e, after) => (.error e, before.rolledBack after)
    | (.ok (), after) =>
      match act after with
      | (.error e, after) => (.error e, before.rolledBack after)
      | (.ok (), after) => (.ok (), after)

/-- A transaction on a connection of its own, which commits once no foreign key points
nowhere. -/
def runWithForeignKeysOff (work : MigrateM Unit) : MigrateM Unit := do
  act
  fun s =>
    let (result, s) := transaction (do act; work; act) s
    match act s with
    | (.error e, s) => (.error e, s)
    | (.ok (), s) => (result, s)

/-- Run `work` in one transaction where the backend's DDL is transactional. -/
def inDdlScope (foreignKeysOff : Bool) (work : MigrateM Unit) : MigrateM Unit := do
  let s ← get
  if !supportsTransactionalDdl s.backend then work
  else if foreignKeysOff && s.backend == .sqlite then runWithForeignKeysOff work
  else transaction work

/-- A migration's own statements. -/
def statements (table version : String) (apply : Bool) : MigrateM Unit := fun s =>
  match act s with
  | (.ok (), s) => (.ok (), { s with log := s.log ++ [⟨table, version, apply, true⟩] })
  | (.error e, s) => (.error e, { s with log := s.log ++ [⟨table, version, apply, false⟩] })

/-- Apply one migration and record it, or revert it and remove its entry. -/
def runMigration (migration : Migration) (table : String) (apply : Bool) : MigrateM Unit :=
  inDdlScope migration.foreignKeysOff do
    statements table migration.version apply
    if apply then Ledger.record table migration.version else Ledger.remove table migration.version

/-- Run `work` holding the migration lock. -/
def withMigrationLock {α : Type} (work : MigrateM α) : MigrateM α := do
  act
  fun s =>
    let (outcome, s) := work s
    let (released, s) := act s
    match outcome, released with
    | .error e, _ => (.error e, s)
    | .ok _, .error e => (.error e, s)
    | .ok result, .ok () => (.ok result, s)

def Migration.info (migration : Migration) : MigrationInfo := ⟨migration.version, migration.name⟩

namespace Migrator

variable (m : Migrator)

/-- The registered migrations in version order. -/
def sorted : List Migration := m.migrations.insertionSort fun a b => a.version ≤ b.version

def registeredVersions : List String := m.migrations.map Migration.version

/-- Recorded versions this migrator still knows how to revert. -/
def appliedVersions : MigrateM (List String) := do
  let recorded ← Ledger.keys m.table
  return recorded.filter fun version => version ∈ m.registeredVersions

/-- The migrations of the list that are not applied are run in turn. -/
def runPending (applied : List String) : List Migration → MigrationResult → MigrateM MigrationResult
  | [], result => return result
  | migration :: rest, result => do
    if migration.version ∈ applied then
      runPending applied rest { result with skipped := result.skipped ++ [migration.info] }
    else
      runMigration migration m.table true
      runPending applied rest { result with applied := result.applied ++ [migration.info] }

def runLocked : MigrateM MigrationResult := do
  checkedLedger m.table
  Ledger.ensure
  let applied ← m.appliedVersions
  m.runPending applied m.sorted {}

def run : MigrateM MigrationResult := do
  act
  withMigrationLock m.runLocked

/-- Every entry is read, registered or not: one that cannot be reverted stops the rollback. -/
def rollbackLocked : MigrateM MigrationResult := do
  checkedLedger m.table
  Ledger.ensure
  let applied ← Ledger.keys m.table
  match applied.getLast? with
  | none => return {}
  | some lastVersion =>
    match m.migrations.find? fun migration => migration.version == lastVersion with
    | none => throw (.query ("Cannot roll back migration " ++ lastVersion ++ ": it is recorded but not registered"))
    | some migration =>
      runMigration migration m.table false
      return { rolledBack := [migration.info] }

def rollback : MigrateM MigrationResult := do
  act
  withMigrationLock m.rollbackLocked

def rollbackStepsLocked : ℕ → MigrationResult → MigrateM MigrationResult
  | 0, result => return result
  | steps + 1, result => do
    let stepResult ← m.rollbackLocked
    if stepResult.rolledBack.isEmpty then return result
    else rollbackStepsLocked steps { result with rolledBack := result.rolledBack ++ stepResult.rolledBack }

def rollbackSteps (steps : ℕ) : MigrateM MigrationResult :=
  if steps = 0 then return {}
  else do
    act
    withMigrationLock (m.rollbackStepsLocked steps {})

def resetLocked : MigrateM MigrationResult := do
  checkedLedger m.table
  Ledger.ensure
  let recorded ← Ledger.keys m.table
  let unknown := recorded.filter fun version => version ∉ m.registeredVersions
  if unknown.isEmpty then m.rollbackStepsLocked recorded.length {}
  else throw (.query ("Cannot reset migrations: recorded versions are not registered: " ++ ", ".intercalate unknown))

def reset : MigrateM MigrationResult := do
  act
  withMigrationLock m.resetLocked

def refresh : MigrateM MigrationResult := do
  act
  withMigrationLock do
    let resetResult ← m.resetLocked
    let runResult ← m.runLocked
    return { applied := runResult.applied, skipped := runResult.skipped, rolledBack := resetResult.rolledBack }

end Migrator

/-- Apply, or revert, one migration given as SQL statements; `false` when the ledger shows
that another run already did it. -/
def runSqlMigration (table version : String) (apply : Bool) : MigrateM Bool := do
  checkedLedger table
  withMigrationLock do
    Ledger.ensure
    let recorded := version ∈ (← Ledger.keys table)
    if decide recorded = apply then return false
    else
      inDdlScope false do
        statements table version apply
        if apply then Ledger.record table version else Ledger.remove table version
      return true

inductive MigrationCall where
  | run (m : Migrator)
  | rollback (m : Migrator)
  | rollbackSteps (m : Migrator) (steps : ℕ)
  | reset (m : Migrator)
  | refresh (m : Migrator)
  | runSqlMigration (table version : String) (apply : Bool)

namespace MigrationDb

def new (backend : DatabaseType) : MigrationDb := ⟨backend, fun _ => [], [], []⟩

/-- The state after one call whose actions end as `faults` says. -/
def step (s : MigrationDb) (call : MigrationCall × List (Option Error)) : MigrationDb :=
  let s := { s with faults := call.2 }
  match call.1 with
  | .run m => (m.run s).2
  | .rollback m => (m.rollback s).2
  | .rollbackSteps m steps => (m.rollbackSteps steps s).2
  | .reset m => (m.reset s).2
  | .refresh m => (m.refresh s).2
  | .runSqlMigration table version apply => (TideOrm.runSqlMigration table version apply s).2

def run (s : MigrationDb) (calls : List (MigrationCall × List (Option Error))) : MigrationDb := calls.foldl step s

end MigrationDb

/-- The migrator a call is made on registers no version twice. -/
def MigrationCall.Distinct : MigrationCall → Prop
  | .run m | .rollback m | .rollbackSteps m _ | .reset m | .refresh m => m.registeredVersions.Nodup
  | .runSqlMigration .. => True

/-- The versions whose up is committed and was not reverted by a committed down since, in the
order of application. -/
def liveVersions (table : String) : List Attempt → List String
  | [] => []
  | attempt :: later =>
    if attempt.table == table && attempt.apply && attempt.committed &&
        !later.any fun revert => revert.table == table && !revert.apply && revert.committed &&
          revert.version == attempt.version
    then attempt.version :: liveVersions table later
    else liveVersions table later

/-- Nothing is changed, or the version applied last is reverted and nothing else is. -/
def RevertsLast (table : String) (s s' : MigrationDb) : Prop :=
  (s'.ledgers = s.ledgers ∧ s'.log.filter Attempt.committed = s.log.filter Attempt.committed) ∨
    ∃ rest version, s.ledgers table = rest ++ [version] ∧ s'.ledgers = Function.update s.ledgers table rest ∧
      s'.log.filter Attempt.committed = s.log.filter Attempt.committed ++ [⟨table, version, false, true⟩]

end TideOrm
