import TideOrm.Lib.Thinning
import TideOrm.Spec.CacheStore

/-! The statements the query builder executed (`cache/prepared_statements.rs`), kept by the hash of
their SQL. A registration and a timing take the lock once each, and what they read before it
may have changed by then. -/

namespace TideOrm

open Lib

structure PreparedStatement where
  sql : String
  preparedAt : Instant
  lastUsed : Instant
  executionCount : ℕ
  totalExecutionTimeUs : ℕ
deriving DecidableEq

namespace PreparedStatement

def new (now : Instant) (sql : String) : PreparedStatement := ⟨sql, now, now, 0, 0⟩

def recordExecution (stmt : PreparedStatement) (now : Instant) (executionTimeUs : ℕ) : PreparedStatement :=
  { stmt with
    lastUsed := now
    totalExecutionTimeUs := stmt.totalExecutionTimeUs + executionTimeUs
    executionCount := stmt.executionCount + 1 }

end PreparedStatement

structure PreparedStatementConfig where
  enabled : Bool
  maxStatements : ℕ
  maxAge : Duration

def PreparedStatementConfig.default : PreparedStatementConfig := ⟨false, 500, 3600 * 1000000000⟩

structure PreparedStatementStats where
  hits : UInt64
  misses : UInt64
  cachedCount : ℕ
  totalExecutions : UInt64
  evictions : UInt64

structure CachedStatementInfo where
  hash : UInt64
  sqlPreview : String
  executionCount : ℕ
  avgExecutionTimeUs : ℕ
  ageSecs : ℕ
deriving DecidableEq

/-- What a registration reads off the clock: to tell a slot's age, for the slot it uses or makes, and
for the execution it records. -/
structure ClockReadings where
  aged : Instant
  used : Instant
  recorded : Instant

structure PreparedStatementCache where
  config : PreparedStatementConfig
  /-- mirror of `config.enabled`, read without the lock -/
  enabled : Bool
  statements : HashMap UInt64 PreparedStatement
  hits : UInt64
  misses : UInt64
  totalExecutions : UInt64
  evictions : UInt64

def PREVIEW_CHARS : ℕ := 100

def sqlPreview (sql : String) : String :=
  if PREVIEW_CHARS < sql.length then String.ofList (sql.toList.take PREVIEW_CHARS) ++ "..." else sql

namespace PreparedStatementCache

def withConfig (config : PreparedStatementConfig) : PreparedStatementCache := ⟨config, config.enabled, ∅, 0, 0, 0, 0⟩

def new : PreparedStatementCache := withConfig .default

def applyConfig (c : PreparedStatementCache) (config : PreparedStatementConfig) : PreparedStatementCache :=
  { c with config := config, enabled := config.enabled }

def setEnabled (c : PreparedStatementCache) (enabled : Bool) : PreparedStatementCache :=
  { c with config := { c.config with enabled := enabled }, enabled := enabled }

def enable (c : PreparedStatementCache) : PreparedStatementCache := c.setEnabled true

def disable (c : PreparedStatementCache) : PreparedStatementCache := c.setEnabled false

def setMaxStatements (c : PreparedStatementCache) (max : ℕ) : PreparedStatementCache :=
  { c with config := { c.config with maxStatements := max } }

def setMaxAge (c : PreparedStatementCache) (age : Duration) : PreparedStatementCache :=
  { c with config := { c.config with maxAge := age } }

variable (order : IterationOrder UInt64 PreparedStatement) (hashSql : String → UInt64)

/-- Whether the slot of `sql` holds that statement and is young enough. -/
def isHit (c : PreparedStatementCache) (config : PreparedStatementConfig) (now : Instant) (sql : String) : Bool :=
  (c.statements.lookup (hashSql sql)).any fun stmt => stmt.sql == sql && decide (now - stmt.preparedAt < config.maxAge)

/-- A hit refreshes its slot. -/
def useSlot (c : PreparedStatementCache) (now : Instant) (sql : String) : PreparedStatementCache :=
  { c with
    statements := match c.statements.lookup (hashSql sql) with
      | some stmt => c.statements.insert (hashSql sql) { stmt with lastUsed := now }
      | none => c.statements
    hits := c.hits + 1 }

/-- A miss empties its slot and, unless nothing is to be kept, makes room for the statement. -/
def fillSlot (c : PreparedStatementCache) (config : PreparedStatementConfig) (now : Instant) (sql : String) :
    PreparedStatementCache :=
  let statements := c.statements.erase (hashSql sql)
  if 0 < config.maxStatements then
    let (statements, evictions) := thin order PreparedStatement.lastUsed config.maxStatements statements 0
    { c with
      statements := statements.insert (hashSql sql) (.new now sql)
      misses := c.misses + 1
      evictions := c.evictions + .ofNat evictions }
  else { c with statements := statements, misses := c.misses + 1 }

/-- The time of an execution goes to whatever is in the slot. -/
def timeSlot (c : PreparedStatementCache) (now : Instant) (sql : String) (executionTimeUs : ℕ) : PreparedStatementCache :=
  { c with
    statements := match c.statements.lookup (hashSql sql) with
      | some stmt => c.statements.insert (hashSql sql) (stmt.recordExecution now executionTimeUs)
      | none => c.statements
    totalExecutions := c.totalExecutions + 1 }

/-- `register` under the lock, by the configuration it read. -/
def registerLocked (c : PreparedStatementCache) (config : PreparedStatementConfig) (clock : ClockReadings) (sql : String)
    (executionTimeUs : Option ℕ) : Bool × PreparedStatementCache :=
  let hit := c.isHit hashSql config clock.aged sql
  let c := if hit then c.useSlot hashSql clock.used sql else c.fillSlot order hashSql config clock.used sql
  (hit, match executionTimeUs with
    | some duration => c.timeSlot hashSql clock.recorded sql duration
    | none => c)

def register (c : PreparedStatementCache) (clock : ClockReadings) (sql : String) (executionTimeUs : Option ℕ) :
    Bool × PreparedStatementCache :=
  if !c.enabled then (false, c) else c.registerLocked order hashSql c.config clock sql executionTimeUs

def getOrPrepare (c : PreparedStatementCache) (clock : ClockReadings) (sql : String) :
    (String × Bool) × PreparedStatementCache :=
  let (hit, c) := c.register order hashSql clock sql none
  ((sql, hit), c)

def observeExecution (c : PreparedStatementCache) (clock : ClockReadings) (sql : String) (executionTimeUs : ℕ) :
    PreparedStatementCache :=
  if !c.enabled then c else (c.register order hashSql clock sql (some executionTimeUs)).2

/-- `record_execution` under the lock, which it leaves before it counts the execution. -/
def recordLocked (c : PreparedStatementCache) (now : Instant) (sql : String) (executionTimeUs : ℕ) : PreparedStatementCache :=
  match (c.statements.lookup (hashSql sql)).filter fun stmt => stmt.sql == sql with
  | some stmt => { c with statements := c.statements.insert (hashSql sql) (stmt.recordExecution now executionTimeUs) }
  | none => c

def countExecution (c : PreparedStatementCache) : PreparedStatementCache :=
  { c with totalExecutions := c.totalExecutions + 1 }

def recordExecution (c : PreparedStatementCache) (now : Instant) (sql : String) (executionTimeUs : ℕ) :
    PreparedStatementCache :=
  if !c.enabled then c else (c.recordLocked hashSql now sql executionTimeUs).countExecution

def invalidate (c : PreparedStatementCache) (sql : String) : Bool × PreparedStatementCache :=
  if (c.statements.lookup (hashSql sql)).all fun stmt => stmt.sql != sql then (false, c)
  else (true, { c with statements := c.statements.erase (hashSql sql) })

def clear (c : PreparedStatementCache) : PreparedStatementCache := { c with statements := ∅ }

def len (c : PreparedStatementCache) : ℕ := c.statements.len

def isEmpty (c : PreparedStatementCache) : Bool := decide (c.len = 0)

def stats (c : PreparedStatementCache) : PreparedStatementStats := ⟨c.hits, c.misses, c.len, c.totalExecutions, c.evictions⟩

def resetStats (c : PreparedStatementCache) : PreparedStatementCache :=
  { c with hits := 0, misses := 0, totalExecutions := 0, evictions := 0 }

/-- The average is cut to 64 bits. -/
def cachedStatementsInfo (c : PreparedStatementCache) (now : Instant) : List CachedStatementInfo :=
  (order.entries c.statements).map fun slot =>
    { hash := slot.1
      sqlPreview := sqlPreview slot.2.sql
      executionCount := slot.2.executionCount
      avgExecutionTimeUs := slot.2.totalExecutionTimeUs / max slot.2.executionCount 1 % UInt64.size
      ageSecs := (now - slot.2.preparedAt) / 1000000000 }

end PreparedStatementCache

/-- One thing that happens to the cache. The configuration of a registration is what its call read
before, so calls may run at once. -/
inductive StatementEvent where
  | registered (config : PreparedStatementConfig) (clock : ClockReadings) (sql : String) (executionTimeUs : Option ℕ)
  | recorded (now : Instant) (sql : String) (executionTimeUs : ℕ)
  | counted
  | invalidated (sql : String)
  | cleared
  | statsReset
  | configApplied (config : PreparedStatementConfig)
  | enabledSet (enabled : Bool)
  | maxStatementsSet (max : ℕ)
  | maxAgeSet (age : Duration)

namespace PreparedStatementCache

variable (order : IterationOrder UInt64 PreparedStatement) (hashSql : String → UInt64)

def step (c : PreparedStatementCache) : StatementEvent → PreparedStatementCache
  | .registered config clock sql executionTimeUs => (c.registerLocked order hashSql config clock sql executionTimeUs).2
  | .recorded now sql executionTimeUs => c.recordLocked hashSql now sql executionTimeUs
  | .counted => c.countExecution
  | .invalidated sql => (c.invalidate hashSql sql).2
  | .cleared => c.clear
  | .statsReset => c.resetStats
  | .configApplied config => c.applyConfig config
  | .enabledSet enabled => c.setEnabled enabled
  | .maxStatementsSet max => c.setMaxStatements max
  | .maxAgeSet age => c.setMaxAge age

/-- A run: the events in the order they took effect. -/
def run (c : PreparedStatementCache) (events : List StatementEvent) : PreparedStatementCache :=
  events.foldl (step order hashSql) c

end PreparedStatementCache

end TideOrm
