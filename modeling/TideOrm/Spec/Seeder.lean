import TideOrm.Spec.Migrator
import TideOrm.Spec.Topology

/-! The seeder (`seeding.rs`). Its ledger is a table of the migrator's database, and a seed's run is an
attempt in the log. -/

namespace TideOrm

open Lib

structure Seed where
  name : String
  priority : ℕ
  dependsOn : List String
deriving DecidableEq

structure SeedInfo where
  name : String
deriving DecidableEq

structure SeedResult where
  executed : List SeedInfo := []
  skipped : List SeedInfo := []
  rolledBack : List SeedInfo := []
deriving DecidableEq

/-- `Ledger::seeds` -/
def seedTable : String := "_seeds"

/-- Run `seed`, recording it in the ledger when `record` is set, as one transaction. -/
def Seed.apply (seed : Seed) (record : Bool) : MigrateM Unit :=
  transaction do
    statements seedTable seed.name true
    if record then Ledger.record seedTable seed.name else pure ()

/-- Run `work` holding the seed lock. Inside a caller's transaction, `held` when an operation before took
the lock, it stays held; SQLite then reserves the writer first. -/
def withSeedLock {α : Type} (enclosing : Option Bool) (work : MigrateM α) : MigrateM α :=
  match enclosing with
  | none => withMigrationLock work
  | some held => do
    if held then pure () else act
    let s ← get
    if s.backend = .sqlite then
      Ledger.ensure
      act
    work

structure Seeder where
  seeds : List Seed

namespace Seeder

variable (m : Seeder)

/-- The index that a map built from the names holds: a later seed of a name replaces an earlier one. -/
def indexByName (name : String) : Option ℕ :=
  ((m.seeds.zipIdx.filter fun entry => entry.1.name = name).getLast?).map Prod.snd

/-- Each registered dependency of a seed, before the seed. -/
def edges : List (ℕ × ℕ) :=
  m.seeds.zipIdx.flatMap fun (seed, index) =>
    (seed.dependsOn.filterMap m.indexByName).map fun dependency => (dependency, index)

def priority (index : ℕ) : ℕ := (m.seeds[index]?.map Seed.priority).getD 0

def key (index : ℕ) : ℕ ×ₗ ℕ := toLex (m.priority index, index)

/-- The order of all registered seeds, and those on or behind a cycle. -/
def order : List ℕ × List ℕ := topologicalOrder m.seeds.length m.edges m.key

def seedsAt (indices : List ℕ) : List Seed := indices.filterMap fun index => m.seeds[index]?

def sortSeedsByPriorityAndDeps : Except Error (List Seed) :=
  let (sorted, cycle) := m.order
  if cycle.isEmpty then .ok (m.seedsAt sorted)
  else
    let names := (m.seedsAt (cycle.insertionSort fun a b => m.priority a ≤ m.priority b)).map Seed.name
    .error (.configuration ("Circular seed dependency detected involving: " ++ ", ".intercalate names))

/-- The seeds of the list are run in turn, but for those that `executed` holds. -/
def runSeeds (executed : List String) : List Seed → SeedResult → MigrateM SeedResult
  | [], result => return result
  | seed :: rest, result => do
    if seed.name ∈ executed then
      runSeeds executed rest { result with skipped := result.skipped ++ [⟨seed.name⟩] }
    else
      match seed.dependsOn.find? fun dependency => dependency ∉ executed ∧ ⟨dependency⟩ ∉ result.executed with
      | some dependency =>
        throw (.configuration ("Seed '" ++ seed.name ++ "' depends on '" ++ dependency ++ "' which has not been executed"))
      | none =>
        seed.apply true
        runSeeds executed rest { result with executed := result.executed ++ [⟨seed.name⟩] }

def runLocked : MigrateM SeedResult := do
  Ledger.ensure
  let executed ← Ledger.keys seedTable
  match m.sortSeedsByPriorityAndDeps with
  | .error error => throw error
  | .ok seeds => runSeeds executed seeds {}

def run (enclosing : Option Bool) : MigrateM SeedResult := do
  act
  withSeedLock enclosing m.runLocked

section Turns

/-- Seed `b` depends on the registered seed `a`. -/
def Depends (a b : ℕ) : Prop := ∃ seed dependent, m.seeds[a]? = some seed ∧ m.seeds[b]? = some dependent ∧
  seed.name ∈ dependent.dependsOn

/-- A registered seed is not recorded, and all its dependencies are. -/
def Ready (recorded : List String) (index : ℕ) : Prop := ∃ seed, m.seeds[index]? = some seed ∧
  seed.name ∉ recorded ∧ ∀ dependency ∈ seed.dependsOn, dependency ∈ recorded

/-- Ready, and the lowest by priority and registration among the ready seeds. -/
def Lowest (recorded : List String) (index : ℕ) : Prop :=
  m.Ready recorded index ∧ ∀ other, m.Ready recorded other → m.key index ≤ m.key other

/-- A registered dependency of the seed is recorded, and has not had its turn. -/
def Held (recorded : List String) (later : List ℕ) (index : ℕ) : Prop :=
  ∃ dependency ∈ later, m.Depends dependency index ∧ ∃ seed, m.seeds[dependency]? = some seed ∧ seed.name ∈ recorded

/-- Each attempt runs a ready seed in its turn, which is the lowest of those that no recorded seed holds
back; `recorded` is the ledger before the first of the attempts. -/
inductive Turns (order : List ℕ) (recorded : List String) : List Attempt → Prop where
  | nil : Turns order recorded []
  | snoc {attempts : List Attempt} {before later : List ℕ} {index : ℕ} {seed : Seed} {committed : Bool}
      (h : Turns order recorded attempts) (horder : order = before ++ index :: later)
      (hseed : m.seeds[index]? = some seed)
      (hready : m.Ready (recorded ++ (attempts.filter Attempt.committed).map Attempt.version) index)
      (hlowest : ∀ other, m.Ready (recorded ++ (attempts.filter Attempt.committed).map Attempt.version) other →
        m.key index ≤ m.key other ∨
          m.Held (recorded ++ (attempts.filter Attempt.committed).map Attempt.version) later other) :
      Turns order recorded (attempts ++ [⟨seedTable, seed.name, true, committed⟩])

/-- All registered seeds, in the order in which always the lowest goes next of those whose registered
dependencies have gone before. -/
structure IsOrder (order : List ℕ) : Prop where
  perm : order.Perm (List.range m.seeds.length)
  dependencies : ∀ before index later, order = before ++ index :: later → ∀ a, m.Depends a index → a ∈ before
  lowest : ∀ before index later, order = before ++ index :: later → ∀ other < m.seeds.length, other ∉ before →
    (∀ a, m.Depends a other → a ∈ before) → m.key index ≤ m.key other

end Turns

end Seeder

end TideOrm
