import TideOrm.Spec.PreparedStatements
import Mathlib.Algebra.Order.BigOperators.Group.List
import Mathlib.Data.Finset.Card
import Mathlib.Data.List.Induction

/-! What the prepared statement cache holds after any run: each slot is of one statement, with the
executions of that statement since its registration and no others, and the slots that go first are
those of the statements that were not used for longest. -/

namespace TideOrm

open Lib

namespace StatementEvent

/-- The execution times of `sql` that an event brings. -/
def timings (sql : String) : StatementEvent → List ℕ
  | .registered _ _ text (some duration) => if text = sql then [duration] else []
  | .recorded _ text duration => if text = sql then [duration] else []
  | _ => []

/-- When an event uses `sql`, last reading of the clock. -/
def uses (sql : String) : StatementEvent → List Instant
  | .registered _ clock text timed => if text = sql then [if timed.isSome then clock.recorded else clock.used] else []
  | .recorded now text _ => if text = sql then [now] else []
  | _ => []

/-- Whether an event empties the slot of `sql`: by itself or by a statement of the same hash. -/
def empties (hashSql : String → UInt64) (sql : String) : StatementEvent → Bool
  | .registered _ _ text _ => text != sql && hashSql text == hashSql sql
  | .invalidated text => text == sql
  | .cleared => true
  | _ => false

def isRegistration : StatementEvent → Bool
  | .registered .. => true
  | _ => false

/-- The events that count an execution. -/
def counts : StatementEvent → Bool
  | .registered _ _ _ timed => timed.isSome
  | .counted => true
  | _ => false

/-- The events that record an execution, where its statement has a slot. -/
def records : StatementEvent → Bool
  | .registered _ _ _ timed => timed.isSome
  | .recorded .. => true
  | _ => false

end StatementEvent

namespace PreparedStatement

/-- A statement after an execution, if one is timed. -/
def timed (now : Instant) (stmt : PreparedStatement) : Option ℕ → PreparedStatement
  | some duration => stmt.recordExecution now duration
  | none => stmt

end PreparedStatement

open StatementEvent

namespace PreparedStatementCache

variable {order : IterationOrder UInt64 PreparedStatement} {hashSql : String → UInt64} {c : PreparedStatementCache}
  {config : PreparedStatementConfig} {clock : ClockReadings} {now : Instant} {sql : String} {timed : Option ℕ} {key : UInt64}
  {stmt : PreparedStatement} {events : List StatementEvent}

theorem lookup_useSlot (key : UInt64) : (c.useSlot hashSql now sql).statements.lookup key =
    if key = hashSql sql then (c.statements.lookup key).map fun stmt => { stmt with lastUsed := now }
    else c.statements.lookup key := by
  rw [useSlot]
  split_ifs with hkey
  · subst hkey
    cases hlook : c.statements.lookup (hashSql sql) with
    | none => exact hlook
    | some stmt => exact AList.lookup_insert _
  · cases hlook : c.statements.lookup (hashSql sql) with
    | none => rfl
    | some stmt => exact AList.lookup_insert_ne hkey

theorem lookup_timeSlot (duration : ℕ) (key : UInt64) : (c.timeSlot hashSql now sql duration).statements.lookup key =
    if key = hashSql sql then (c.statements.lookup key).map fun stmt => stmt.recordExecution now duration
    else c.statements.lookup key := by
  rw [timeSlot]
  split_ifs with hkey
  · subst hkey
    cases hlook : c.statements.lookup (hashSql sql) with
    | none => exact hlook
    | some stmt => exact AList.lookup_insert _
  · cases hlook : c.statements.lookup (hashSql sql) with
    | none => rfl
    | some stmt => exact AList.lookup_insert_ne hkey

theorem lookup_fillSlot : (c.fillSlot order hashSql config now sql).statements.lookup (hashSql sql) =
    if 0 < config.maxStatements then some (.new now sql) else none := by
  rw [fillSlot]
  split_ifs
  · exact AList.lookup_insert _
  · exact AList.lookup_erase ..

/-- The other slots that a miss leaves were there before. -/
theorem lookup_fillSlot_ne (hkey : key ≠ hashSql sql) (h : (c.fillSlot order hashSql config now sql).statements.lookup key = some stmt) :
    c.statements.lookup key = some stmt := by
  rw [fillSlot] at h
  split_ifs at h
  · have hthin := (thin_thinned order PreparedStatement.lastUsed config.maxStatements
      (c.statements.erase (hashSql sql)) 0).kept key stmt ((AList.lookup_insert_ne hkey).symm.trans h)
    rwa [AList.lookup_erase_cases, if_neg hkey] at hthin
  · exact (AList.lookup_erase_ne hkey).symm.trans h

/-- The slot of the statement that is registered, on a hit and on a miss. -/
theorem lookup_registerLocked : (c.registerLocked order hashSql config clock sql timed).2.statements.lookup (hashSql sql) =
    if c.isHit hashSql config clock.aged sql then
      (c.statements.lookup (hashSql sql)).map fun stmt => { stmt with lastUsed := clock.used }.timed clock.recorded timed
    else if 0 < config.maxStatements then some ((PreparedStatement.new clock.used sql).timed clock.recorded timed)
    else none := by
  cases timed with
  | none =>
    rw [registerLocked]
    dsimp only
    split_ifs with hhit hmax
    · rw [lookup_useSlot, if_pos rfl]
      rfl
    · rw [lookup_fillSlot, if_pos hmax]
      rfl
    · rw [lookup_fillSlot, if_neg hmax]
  | some duration =>
    rw [registerLocked]
    dsimp only
    rw [lookup_timeSlot, if_pos rfl]
    split_ifs with hhit hmax
    · rw [lookup_useSlot, if_pos rfl, Option.map_map]
      rfl
    · rw [lookup_fillSlot, if_pos hmax]
      rfl
    · rw [lookup_fillSlot, if_neg hmax]
      rfl

/-- The slots of other statements after a registration are those that a miss keeps. -/
theorem lookup_registerLocked_other (hkey : key ≠ hashSql sql) :
    (c.registerLocked order hashSql config clock sql timed).2.statements.lookup key =
      if c.isHit hashSql config clock.aged sql then c.statements.lookup key
      else (c.fillSlot order hashSql config clock.used sql).statements.lookup key := by
  cases timed with
  | none =>
    rw [registerLocked]
    dsimp only
    split_ifs
    · rw [lookup_useSlot, if_neg hkey]
    · rfl
  | some duration =>
    rw [registerLocked]
    dsimp only
    rw [lookup_timeSlot, if_neg hkey]
    split_ifs
    · rw [lookup_useSlot, if_neg hkey]
    · rfl

/-- The slots that a registration leaves of other statements were there before. -/
theorem lookup_registerLocked_ne (hkey : key ≠ hashSql sql)
    (h : (c.registerLocked order hashSql config clock sql timed).2.statements.lookup key = some stmt) :
    c.statements.lookup key = some stmt := by
  rw [lookup_registerLocked_other hkey] at h
  split_ifs at h
  · exact h
  · exact lookup_fillSlot_ne hkey h

/-- What an event does to a slot that it leaves to its statement. -/
structure Continues (event : StatementEvent) (before stmt : PreparedStatement) : Prop where
  sql : before.sql = stmt.sql
  preparedAt : before.preparedAt = stmt.preparedAt
  executionCount : stmt.executionCount = before.executionCount + (event.timings stmt.sql).length
  totalExecutionTimeUs : stmt.totalExecutionTimeUs = before.totalExecutionTimeUs + (event.timings stmt.sql).sum
  lastUsed : stmt.lastUsed = (event.uses stmt.sql).getLast?.getD before.lastUsed

theorem continues_unused {event : StatementEvent} (htimings : event.timings stmt.sql = []) (huses : event.uses stmt.sql = []) :
    Continues event stmt stmt := by
  refine ⟨rfl, rfl, ?_, ?_, ?_⟩
  · rw [htimings, List.length_nil, Nat.add_zero]
  · rw [htimings, List.sum_nil, Nat.add_zero]
  · rw [huses]
    rfl

theorem continues_registered (config : PreparedStatementConfig) (clock : ClockReadings) (timed : Option ℕ) (stmt : PreparedStatement) :
    Continues (.registered config clock stmt.sql timed) stmt ({ stmt with lastUsed := clock.used }.timed clock.recorded timed) := by
  cases timed with
  | none => exact ⟨rfl, rfl, rfl, rfl, by simp [uses, PreparedStatement.timed]⟩
  | some duration =>
    refine ⟨rfl, rfl, ?_, ?_, ?_⟩
    all_goals simp [timings, uses, PreparedStatement.timed, PreparedStatement.recordExecution]

theorem continues_recorded (stmt : PreparedStatement) (duration : ℕ) :
    Continues (.recorded now stmt.sql duration) stmt (stmt.recordExecution now duration) := by
  refine ⟨rfl, rfl, ?_, ?_, ?_⟩
  all_goals simp [timings, uses, PreparedStatement.recordExecution]

/-- Every slot is where its statement hashes to. -/
def Placed (hashSql : String → UInt64) (c : PreparedStatementCache) : Prop :=
  ∀ key stmt, c.statements.lookup key = some stmt → key = hashSql stmt.sql

/-- A slot after an event was there for its statement before, or the event registered its statement. -/
theorem step_slot (hplaced : Placed hashSql c) {event : StatementEvent}
    (h : (c.step order hashSql event).statements.lookup key = some stmt) :
    (∃ before, c.statements.lookup key = some before ∧ Continues event before stmt ∧ event.empties hashSql stmt.sql = false) ∨
      ∃ config clock timed, event = .registered config clock stmt.sql timed ∧ key = hashSql stmt.sql ∧
        stmt = (PreparedStatement.new clock.used stmt.sql).timed clock.recorded timed := by
  have hsame (hlook : c.statements.lookup key = some stmt) (htimings : event.timings stmt.sql = [])
      (huses : event.uses stmt.sql = []) (hempties : event.empties hashSql stmt.sql = false) :
      ∃ before, c.statements.lookup key = some before ∧ Continues event before stmt ∧ event.empties hashSql stmt.sql = false :=
    ⟨stmt, hlook, continues_unused htimings huses, hempties⟩
  cases event with
  | registered config clock sql timed =>
    by_cases hkey : key = hashSql sql
    · subst hkey
      rw [step, lookup_registerLocked] at h
      split_ifs at h with hhit hmax
      · obtain ⟨before, hbefore, rfl⟩ := Option.map_eq_some_iff.1 h
        have hsql : before.sql = sql := by
          rw [isHit, hbefore, Option.any_some, Bool.and_eq_true, beq_iff_eq] at hhit
          exact hhit.1
        subst hsql
        have hcontinues := continues_registered config clock timed before
        refine Or.inl ⟨before, hbefore, hcontinues, ?_⟩
        rw [← hcontinues.sql, empties, bne_self_eq_false, Bool.false_and]
      · obtain rfl := Option.some_inj.1 h
        have hsql : ((PreparedStatement.new clock.used sql).timed clock.recorded timed).sql = sql := by cases timed <;> rfl
        rw [hsql]
        exact Or.inr ⟨config, clock, timed, rfl, rfl, rfl⟩
    · have hlook := lookup_registerLocked_ne hkey h
      have hhash : hashSql sql ≠ hashSql stmt.sql := fun heq => hkey ((hplaced key stmt hlook).trans heq.symm)
      have hsql : sql ≠ stmt.sql := fun heq => hhash (congrArg hashSql heq)
      refine Or.inl (hsame hlook ?_ ?_ ?_)
      · cases timed with
        | none => rfl
        | some duration => exact if_neg hsql
      · exact if_neg hsql
      · rw [empties, beq_eq_false_iff_ne.2 hhash, Bool.and_false]
  | recorded now sql duration =>
    left
    rw [step, recordLocked] at h
    by_cases hown : (c.statements.lookup (hashSql sql)).any fun stmt => stmt.sql == sql
    · obtain ⟨before, hbefore, hsql⟩ := (Option.any_eq_true _ _).1 hown
      obtain rfl := beq_iff_eq.1 hsql
      rw [hbefore, Option.filter_some, if_pos hsql] at h
      dsimp only at h
      rw [AList.lookup_insert_cases] at h
      split_ifs at h with hkey
      · obtain rfl := Option.some_inj.1 h
        exact ⟨before, hkey ▸ hbefore, continues_recorded before duration, rfl⟩
      · have hne : before.sql ≠ stmt.sql := fun heq => hkey ((hplaced key stmt h).trans (congrArg hashSql heq.symm))
        exact hsame h (if_neg hne) (if_neg hne) rfl
    · have hnone : (c.statements.lookup (hashSql sql)).filter (fun stmt => stmt.sql == sql) = none := by
        refine Option.filter_eq_none_iff.2 fun other hother hsql => hown ?_
        rw [hother]
        exact hsql
      rw [hnone] at h
      have hne : sql ≠ stmt.sql := by
        rintro rfl
        rw [← hplaced key stmt h, h] at hown
        exact hown (beq_self_eq_true stmt.sql)
      exact hsame h (if_neg hne) (if_neg hne) rfl
  | invalidated sql =>
    left
    rw [step, invalidate] at h
    split_ifs at h with hall
    · refine hsame h rfl rfl (beq_eq_false_iff_ne.2 ?_)
      rintro rfl
      rw [← hplaced key stmt h, h] at hall
      exact bne_iff_ne.1 hall rfl
    · dsimp only at h
      rw [AList.lookup_erase_cases] at h
      split_ifs at h with hkey
      refine hsame h rfl rfl (beq_eq_false_iff_ne.2 ?_)
      rintro rfl
      exact hkey (hplaced key stmt h)
  | cleared =>
    rw [step, clear, AList.lookup_empty] at h
    cases h
  | _ => exact Or.inl (hsame h rfl rfl rfl)

/-- The events since the registration of the statement in a slot: they are what the slot has recorded, and none emptied it. -/
structure Since (hashSql : String → UInt64) (stmt : PreparedStatement) (since : List StatementEvent) : Prop where
  registered : ∃ config clock timed rest, since = .registered config clock stmt.sql timed :: rest ∧
    clock.used = stmt.preparedAt ∧ ∀ event ∈ rest, event.empties hashSql stmt.sql = false
  executionCount : stmt.executionCount = (since.flatMap (timings stmt.sql)).length
  totalExecutionTimeUs : stmt.totalExecutionTimeUs = (since.flatMap (timings stmt.sql)).sum
  lastUsed : some stmt.lastUsed = (since.flatMap (uses stmt.sql)).getLast?

theorem since_registered (hashSql : String → UInt64) (config : PreparedStatementConfig) (clock : ClockReadings) (sql : String) (timed : Option ℕ) :
    Since hashSql ((PreparedStatement.new clock.used sql).timed clock.recorded timed) [.registered config clock sql timed] := by
  cases timed with
  | none =>
    refine ⟨⟨config, clock, none, [], rfl, rfl, by simp⟩, ?_, ?_, ?_⟩
    all_goals simp [timings, uses, PreparedStatement.timed, PreparedStatement.new]
  | some duration =>
    refine ⟨⟨config, clock, some duration, [], rfl, rfl, by simp⟩, ?_, ?_, ?_⟩
    all_goals simp [timings, uses, PreparedStatement.timed, PreparedStatement.recordExecution, PreparedStatement.new]

theorem Since.continues {since : List StatementEvent} {before : PreparedStatement} {event : StatementEvent}
    (h : Since hashSql before since) (hcontinues : Continues event before stmt) (hkept : event.empties hashSql stmt.sql = false) :
    Since hashSql stmt (since ++ [event]) := by
  obtain ⟨config, clock, timed, rest, rfl, hclock, hrest⟩ := h.registered
  have hcount := h.executionCount
  have htotal := h.totalExecutionTimeUs
  have hused := h.lastUsed
  rw [hcontinues.sql] at hcount htotal hused hrest
  refine ⟨⟨config, clock, timed, rest ++ [event], by rw [hcontinues.sql]; rfl, hclock.trans hcontinues.preparedAt, ?_⟩, ?_, ?_, ?_⟩
  · intro other hother
    rcases List.mem_append.1 hother with hother | hother
    · exact hrest other hother
    · exact List.mem_singleton.1 hother ▸ hkept
  · rw [hcontinues.executionCount, hcount, hcontinues.sql, List.flatMap_append, List.length_append, List.flatMap_singleton]
  · rw [hcontinues.totalExecutionTimeUs, htotal, hcontinues.sql, List.flatMap_append, List.sum_append, List.flatMap_singleton]
  · rw [hcontinues.lastUsed, hcontinues.sql, List.flatMap_append, List.getLast?_append, List.flatMap_singleton, ← hused]
    cases (event.uses stmt.sql).getLast? <;> rfl

theorem run_concat (c : PreparedStatementCache) (events : List StatementEvent) (event : StatementEvent) :
    c.run order hashSql (events ++ [event]) = (c.run order hashSql events).step order hashSql event := by
  rw [run, List.foldl_append]
  rfl

/-- The calls of the cache are runs, of one event or two where the cache is on. -/
theorem getOrPrepare_run (c : PreparedStatementCache) : (c.getOrPrepare order hashSql clock sql).2 =
    c.run order hashSql (if c.enabled then [.registered c.config clock sql none] else []) := by
  rw [getOrPrepare, register]
  cases c.enabled <;> rfl

theorem observeExecution_run (c : PreparedStatementCache) (duration : ℕ) : c.observeExecution order hashSql clock sql duration =
    c.run order hashSql (if c.enabled then [.registered c.config clock sql (some duration)] else []) := by
  rw [observeExecution, register]
  cases c.enabled <;> rfl

theorem recordExecution_run (c : PreparedStatementCache) (duration : ℕ) : c.recordExecution hashSql now sql duration =
    c.run order hashSql (if c.enabled then [.recorded now sql duration, .counted] else []) := by
  rw [recordExecution]
  cases c.enabled <;> rfl

/-- The invariant of every run from an empty cache. -/
theorem run_since (order : IterationOrder UInt64 PreparedStatement) (hashSql : String → UInt64) (config : PreparedStatementConfig)
    (events : List StatementEvent) : ∀ key stmt, ((withConfig config).run order hashSql events).statements.lookup key = some stmt →
      key = hashSql stmt.sql ∧ ∃ since, since <:+ events ∧ Since hashSql stmt since := by
  induction events using List.reverseRecOn with
  | nil =>
    intro key stmt h
    rw [run, List.foldl_nil, withConfig, AList.lookup_empty] at h
    cases h
  | append_singleton events event ih =>
    intro key stmt h
    rw [run_concat] at h
    rcases step_slot (fun key stmt h => (ih key stmt h).1) h with ⟨before, hbefore, hcontinues, hkept⟩ | ⟨config, clock, timed, rfl, hkey, hstmt⟩
    · obtain ⟨hkey, since, hsuffix, hsince⟩ := ih key before hbefore
      refine ⟨hcontinues.sql ▸ hkey, since ++ [event], ?_, hsince.continues hcontinues hkept⟩
      obtain ⟨front, rfl⟩ := hsuffix
      exact ⟨front, (List.append_assoc ..).symm⟩
    · refine ⟨hkey, [.registered config clock stmt.sql timed], List.suffix_append .., ?_⟩
      have hsince := since_registered hashSql config clock stmt.sql timed
      rwa [← hstmt] at hsince

/-- A slot is of the statement its key is the hash of. It was registered by an event of the run after which nothing
emptied the slot, and holds that statement's executions since, and no other's. -/
theorem slot_records_own_executions (order : IterationOrder UInt64 PreparedStatement) (hashSql : String → UInt64)
    (config : PreparedStatementConfig) (events : List StatementEvent) (key : UInt64) (stmt : PreparedStatement)
    (h : ((withConfig config).run order hashSql events).statements.lookup key = some stmt) :
    key = hashSql stmt.sql ∧ ∃ earlier snapshot clock timed later,
      events = earlier ++ .registered snapshot clock stmt.sql timed :: later ∧ stmt.preparedAt = clock.used ∧
      (∀ event ∈ later, event.empties hashSql stmt.sql = false) ∧
      stmt.executionCount = ((StatementEvent.registered snapshot clock stmt.sql timed :: later).flatMap (timings stmt.sql)).length ∧
      stmt.totalExecutionTimeUs = ((StatementEvent.registered snapshot clock stmt.sql timed :: later).flatMap (timings stmt.sql)).sum := by
  obtain ⟨hkey, since, ⟨earlier, rfl⟩, hsince⟩ := run_since order hashSql config events key stmt h
  obtain ⟨snapshot, clock, timed, later, rfl, hclock, hlater⟩ := hsince.registered
  exact ⟨hkey, earlier, snapshot, clock, timed, later, rfl, hclock.symm, hlater, hsince.executionCount, hsince.totalExecutionTimeUs⟩

def ofTwo : PreparedStatementConfig := ⟨true, 2, 1000⟩

/-- A registration with one reading of the clock, under a configuration for two statements. -/
def seen (now : Instant) (sql : String) : StatementEvent := .registered ofTwo ⟨now, now, now⟩ sql (some now)

/-- Texts of one length share a hash. -/
def hashLength (sql : String) : UInt64 := UInt64.ofNat sql.length

theorem slot_records_own_executions_shared_hash :
    (8 : UInt64) = hashLength "SELECT 2" ∧ ∃ earlier snapshot clock timed later,
      [seen 1 "SELECT 1", seen 2 "SELECT 2", .recorded 3 "SELECT 1" 5] =
        earlier ++ .registered snapshot clock "SELECT 2" timed :: later ∧ (2 : Instant) = clock.used ∧
      (∀ event ∈ later, event.empties hashLength "SELECT 2" = false) ∧
      1 = ((StatementEvent.registered snapshot clock "SELECT 2" timed :: later).flatMap (timings "SELECT 2")).length ∧
      2 = ((StatementEvent.registered snapshot clock "SELECT 2" timed :: later).flatMap (timings "SELECT 2")).sum :=
  slot_records_own_executions (.stored ..) hashLength ofTwo [seen 1 "SELECT 1", seen 2 "SELECT 2", .recorded 3 "SELECT 1" 5] 8
    ⟨"SELECT 2", 2, 2, 1, 2⟩ (by decide +kernel)

/-- A registration that reports its statement as cached follows one of the same text, young enough, whose slot
nothing emptied since; a hash that two statements share never makes a hit. -/
theorem hit_registered_before (order : IterationOrder UInt64 PreparedStatement) (hashSql : String → UInt64)
    (config snapshot : PreparedStatementConfig) (events : List StatementEvent) (clock : ClockReadings) (sql : String)
    (timed : Option ℕ)
    (h : (((withConfig config).run order hashSql events).registerLocked order hashSql snapshot clock sql timed).1 = true) :
    ∃ earlier before first firstTimed later, events = earlier ++ .registered before first sql firstTimed :: later ∧
      clock.aged - first.used < snapshot.maxAge ∧ ∀ event ∈ later, event.empties hashSql sql = false := by
  change isHit hashSql _ snapshot clock.aged sql = true at h
  obtain ⟨stmt, hlook, hstmt⟩ := (Option.any_eq_true _ _).1 h
  rw [Bool.and_eq_true, beq_iff_eq, decide_eq_true_eq] at hstmt
  obtain ⟨rfl, hage⟩ := hstmt
  obtain ⟨-, since, ⟨earlier, rfl⟩, hsince⟩ := run_since order hashSql config events (hashSql stmt.sql) stmt hlook
  obtain ⟨before, first, firstTimed, later, rfl, hfirst, hlater⟩ := hsince.registered
  exact ⟨earlier, before, first, firstTimed, later, rfl, by rwa [hfirst], hlater⟩

theorem hit_registered_before_again :
    ∃ earlier before first firstTimed later, [seen 1 "SELECT 1", seen 2 "SELECT"] = earlier ++ .registered before first "SELECT 1" firstTimed :: later ∧
      1000 - first.used < 1000 ∧ ∀ event ∈ later, event.empties hashLength "SELECT 1" = false :=
  hit_registered_before (.stored ..) hashLength ofTwo ofTwo [seen 1 "SELECT 1", seen 2 "SELECT"] ⟨1000, 1000, 1000⟩ "SELECT 1" none
    (by decide +kernel)

theorem fillSlot_least {gone kept : PreparedStatement} {goneKey keptKey : UInt64} (hgoneKey : goneKey ≠ hashSql sql)
    (hkeptKey : keptKey ≠ hashSql sql) (hbefore : c.statements.lookup goneKey = some gone)
    (hgone : (c.fillSlot order hashSql config now sql).statements.lookup goneKey = none)
    (hkept : (c.fillSlot order hashSql config now sql).statements.lookup keptKey = some kept) : gone.lastUsed ≤ kept.lastUsed := by
  have herase : (c.statements.erase (hashSql sql)).lookup goneKey = some gone := (AList.lookup_erase_ne hgoneKey).trans hbefore
  rw [fillSlot] at hgone hkept
  split_ifs at hgone hkept
  · exact (thin_thinned order PreparedStatement.lastUsed config.maxStatements
      (c.statements.erase (hashSql sql)) 0).least goneKey gone keptKey kept herase
      ((AList.lookup_insert_ne hgoneKey).symm.trans hgone) ((AList.lookup_insert_ne hkeptKey).symm.trans hkept)
  · exact absurd (herase.symm.trans hgone) (Option.some_ne_none gone)

/-- A slot was used last when its statement was. -/
theorem lastUsed_of_run (h : ((withConfig config).run order hashSql events).statements.lookup key = some stmt) :
    (events.flatMap (uses stmt.sql)).getLast? = some stmt.lastUsed := by
  obtain ⟨-, since, ⟨earlier, rfl⟩, hsince⟩ := run_since order hashSql config events key stmt h
  rw [List.flatMap_append, List.getLast?_append, ← hsince.lastUsed, Option.some_or]

/-- The slots a registration drops of other statements are those whose statements were not used for longest. -/
theorem evicts_least_recently_used (order : IterationOrder UInt64 PreparedStatement) (hashSql : String → UInt64)
    (config snapshot : PreparedStatementConfig) (events : List StatementEvent) (clock : ClockReadings) (sql : String)
    (timed : Option ℕ) (gone kept : PreparedStatement) (goneKey keptKey : UInt64) (hgoneKey : goneKey ≠ hashSql sql)
    (hkeptKey : keptKey ≠ hashSql sql)
    (hbefore : ((withConfig config).run order hashSql events).statements.lookup goneKey = some gone)
    (hgone : ((withConfig config).run order hashSql (events ++ [.registered snapshot clock sql timed])).statements.lookup goneKey = none)
    (hkept : ((withConfig config).run order hashSql (events ++ [.registered snapshot clock sql timed])).statements.lookup keptKey = some kept) :
    ∃ goneUse keptUse, (events.flatMap (uses gone.sql)).getLast? = some goneUse ∧
      (events.flatMap (uses kept.sql)).getLast? = some keptUse ∧ goneUse ≤ keptUse := by
  rw [run_concat, step] at hgone hkept
  have hkeptBefore := lookup_registerLocked_ne hkeptKey hkept
  refine ⟨gone.lastUsed, kept.lastUsed, lastUsed_of_run hbefore, lastUsed_of_run hkeptBefore, ?_⟩
  rw [lookup_registerLocked_other hgoneKey] at hgone
  rw [lookup_registerLocked_other hkeptKey] at hkept
  split_ifs at hgone hkept
  · exact absurd (hbefore.symm.trans hgone) (Option.some_ne_none gone)
  · exact fillSlot_least hgoneKey hkeptKey hbefore hgone hkept

theorem evicts_least_recently_used_third :
    ∃ goneUse keptUse, ([seen 1 "A", seen 2 "BB", seen 3 "A"].flatMap (uses "BB")).getLast? = some goneUse ∧
      ([seen 1 "A", seen 2 "BB", seen 3 "A"].flatMap (uses "A")).getLast? = some keptUse ∧ goneUse ≤ keptUse :=
  evicts_least_recently_used (.stored ..) hashLength ofTwo ofTwo [seen 1 "A", seen 2 "BB", seen 3 "A"] ⟨4, 4, 4⟩ "CCC" none
    ⟨"BB", 2, 2, 1, 2⟩ ⟨"A", 1, 3, 2, 4⟩ 2 1 (by decide) (by decide) (by decide +kernel) (by decide +kernel) (by decide +kernel)

theorem len_useSlot (now : Instant) {aged : Instant} (h : c.isHit hashSql config aged sql = true) : (c.useSlot hashSql now sql).len = c.len := by
  obtain ⟨stmt, hlook, -⟩ := (Option.any_eq_true _ _).1 h
  rw [useSlot, hlook]
  exact AList.len_update hlook _

theorem len_timeSlot (c : PreparedStatementCache) (hashSql : String → UInt64) (now : Instant) (sql : String) (duration : ℕ) : (c.timeSlot hashSql now sql duration).len = c.len := by
  rw [timeSlot]
  cases hlook : c.statements.lookup (hashSql sql) with
  | none => rfl
  | some stmt => exact AList.len_update hlook _

theorem len_recordLocked (c : PreparedStatementCache) (hashSql : String → UInt64) (now : Instant) (sql : String) (duration : ℕ) : (c.recordLocked hashSql now sql duration).len = c.len := by
  rw [recordLocked]
  cases hlook : (c.statements.lookup (hashSql sql)).filter fun stmt => stmt.sql == sql with
  | none => rfl
  | some stmt => exact AList.len_update (Option.filter_eq_some_iff.1 hlook).1 _

theorem len_invalidate (c : PreparedStatementCache) (hashSql : String → UInt64) (sql : String) : (c.invalidate hashSql sql).2.len ≤ c.len := by
  rw [invalidate]
  split_ifs
  · exact Nat.le_refl _
  · exact AList.len_erase_le ..

/-- The executions that the slots have recorded together. -/
def recordedExecutions (c : PreparedStatementCache) : ℕ := c.statements.total PreparedStatement.executionCount

theorem recordedExecutions_update {old : PreparedStatement} (h : c.statements.lookup key = some old) (new : PreparedStatement) :
    recordedExecutions { c with statements := c.statements.insert key new } + old.executionCount =
      c.recordedExecutions + new.executionCount :=
  AList.total_update PreparedStatement.executionCount h new

theorem recordedExecutions_record (h : c.statements.lookup key = some stmt) (duration : ℕ) :
    recordedExecutions { c with statements := c.statements.insert key (stmt.recordExecution now duration) } =
      c.recordedExecutions + 1 := by
  have hupdate := recordedExecutions_update h (stmt.recordExecution now duration)
  change _ + stmt.executionCount = _ + (stmt.executionCount + 1) at hupdate
  omega

/-- How the counters move, wrapping at 64 bits, between two states of the cache, over the given numbers of
registrations and of executions counted and recorded. -/
structure Counted (c after : PreparedStatementCache) (registrations counted recorded : ℕ) : Prop where
  lookups : ∃ hit missed evicted : ℕ, hit + missed = registrations ∧ after.hits = c.hits + .ofNat hit ∧
    after.misses = c.misses + .ofNat missed ∧ after.evictions = c.evictions + .ofNat evicted ∧
    after.len + evicted ≤ c.len + missed
  executions : after.totalExecutions = c.totalExecutions + .ofNat counted
  recorded : after.recordedExecutions ≤ c.recordedExecutions + recorded

theorem counted_same {after : PreparedStatementCache} (hhits : after.hits = c.hits) (hmisses : after.misses = c.misses)
    (htotal : after.totalExecutions = c.totalExecutions) (hevictions : after.evictions = c.evictions)
    (hstatements : after.statements = c.statements) : Counted c after 0 0 0 := by
  have hlen : after.len = c.len := congrArg AList.len hstatements
  have hrecorded : after.recordedExecutions = c.recordedExecutions :=
    congrArg (fun m => AList.total m PreparedStatement.executionCount) hstatements
  refine ⟨⟨0, 0, 0, rfl, ?_, ?_, ?_, hlen.le⟩, ?_, hrecorded.le⟩
  · exact hhits.trans (UInt64.add_zero _).symm
  · exact hmisses.trans (UInt64.add_zero _).symm
  · exact hevictions.trans (UInt64.add_zero _).symm
  · exact htotal.trans (UInt64.add_zero _).symm

theorem counted_useSlot {aged : Instant} (h : c.isHit hashSql config aged sql = true) : Counted c (c.useSlot hashSql now sql) 1 0 0 := by
  have hlen := len_useSlot now h
  obtain ⟨stmt, hlook, -⟩ := (Option.any_eq_true _ _).1 h
  have hrecorded := recordedExecutions_update hlook { stmt with lastUsed := now }
  rw [useSlot, hlook] at hlen ⊢
  refine ⟨⟨1, 0, 0, rfl, rfl, (UInt64.add_zero _).symm, (UInt64.add_zero _).symm, hlen.le⟩, (UInt64.add_zero _).symm, ?_⟩
  exact (Nat.add_right_cancel hrecorded).le

theorem counted_fillSlot : Counted c (c.fillSlot order hashSql config now sql) 1 0 0 := by
  have herase := AList.len_erase_le c.statements (hashSql sql)
  have htotal := AList.total_erase_le c.statements PreparedStatement.executionCount (hashSql sql)
  rw [fillSlot]
  split_ifs
  · have hthin := thin_thinned order PreparedStatement.lastUsed config.maxStatements
      (c.statements.erase (hashSql sql)) 0
    generalize thin order PreparedStatement.lastUsed config.maxStatements (c.statements.erase (hashSql sql)) 0 = thinned
      at hthin
    have hevictions := hthin.evictions
    have hkept := hthin.total PreparedStatement.executionCount
    have hlen := AList.len_insert_le thinned.1 (hashSql sql) (.new now sql)
    have hnew := AList.total_erase_le thinned.1 PreparedStatement.executionCount (hashSql sql)
    refine ⟨⟨0, 1, thinned.2, rfl, (UInt64.add_zero _).symm, rfl, rfl, by dsimp only [len]; omega⟩,
      (UInt64.add_zero _).symm, ?_⟩
    rw [recordedExecutions, AList.total_insert]
    change 0 + _ ≤ c.recordedExecutions + 0
    rw [Nat.zero_add]
    exact hnew.trans (hkept.trans htotal)
  · exact ⟨⟨0, 1, 0, rfl, (UInt64.add_zero _).symm, rfl, (UInt64.add_zero _).symm, by dsimp only [len]; omega⟩,
      (UInt64.add_zero _).symm, htotal⟩

/-- An update of the slots alone, which makes none. -/
theorem counted_slots {statements : HashMap UInt64 PreparedStatement} {recorded : ℕ} (hlen : statements.len ≤ c.len)
    (hrecorded : statements.total PreparedStatement.executionCount ≤ c.recordedExecutions + recorded) :
    Counted c { c with statements := statements } 0 0 recorded :=
  ⟨⟨0, 0, 0, rfl, (UInt64.add_zero _).symm, (UInt64.add_zero _).symm, (UInt64.add_zero _).symm, hlen⟩,
    (UInt64.add_zero _).symm, hrecorded⟩

theorem counted_countExecution : Counted c c.countExecution 0 1 0 :=
  ⟨⟨0, 0, 0, rfl, (UInt64.add_zero _).symm, (UInt64.add_zero _).symm, (UInt64.add_zero _).symm, Nat.le_refl _⟩, rfl, Nat.le_refl _⟩

theorem Counted.trans {after later : PreparedStatementCache} {r r' n n' t t' : ℕ} (h : Counted c after r n t)
    (h' : Counted after later r' n' t') : Counted c later (r + r') (n + n') (t + t') := by
  obtain ⟨⟨hit, missed, evicted, hsum, hhits, hmisses, hevictions, hslots⟩, hexecutions, hrecorded⟩ := h
  obtain ⟨⟨hit', missed', evicted', hsum', hhits', hmisses', hevictions', hslots'⟩, hexecutions', hrecorded'⟩ := h'
  refine ⟨⟨hit + hit', missed + missed', evicted + evicted', by omega, ?_, ?_, ?_, by omega⟩, ?_, by omega⟩
  · rw [hhits', hhits, UInt64.ofNat_add, UInt64.add_assoc]
  · rw [hmisses', hmisses, UInt64.ofNat_add, UInt64.add_assoc]
  · rw [hevictions', hevictions, UInt64.ofNat_add, UInt64.add_assoc]
  · rw [hexecutions', hexecutions, UInt64.ofNat_add, UInt64.add_assoc]

theorem counted_timeSlot (duration : ℕ) : Counted c (c.timeSlot hashSql now sql duration) 0 1 1 := by
  have hlen := c.len_timeSlot hashSql now sql duration
  rw [timeSlot] at hlen ⊢
  refine (@counted_slots c _ 1 hlen.le ?_).trans counted_countExecution
  cases hlook : c.statements.lookup (hashSql sql) with
  | none => exact Nat.le_succ _
  | some stmt => exact (recordedExecutions_record hlook duration).le

theorem counted_registerLocked : Counted c (c.registerLocked order hashSql config clock sql timed).2 1 timed.isSome.toNat timed.isSome.toNat := by
  have hslot : Counted c (if c.isHit hashSql config clock.aged sql then c.useSlot hashSql clock.used sql
      else c.fillSlot order hashSql config clock.used sql) 1 0 0 := by
    split_ifs with hhit
    · exact counted_useSlot hhit
    · exact counted_fillSlot
  cases timed with
  | none => exact hslot
  | some duration => exact hslot.trans (counted_timeSlot duration)

theorem counted_step (order : IterationOrder UInt64 PreparedStatement) (hashSql : String → UInt64) {event : StatementEvent} (h : event ≠ .statsReset) :
    Counted c (c.step order hashSql event) event.isRegistration.toNat event.counts.toNat event.records.toNat := by
  cases event with
  | registered config clock sql timed => exact counted_registerLocked
  | recorded now sql duration =>
    have hlen := c.len_recordLocked hashSql now sql duration
    rw [step]
    rw [recordLocked] at hlen ⊢
    cases hlook : (c.statements.lookup (hashSql sql)).filter fun stmt => stmt.sql == sql with
    | none => exact counted_slots (Nat.le_refl _) (Nat.le_succ _)
    | some stmt =>
      rw [hlook] at hlen
      exact counted_slots hlen.le (recordedExecutions_record (Option.filter_eq_some_iff.1 hlook).1 duration).le
  | counted => exact counted_countExecution
  | invalidated sql =>
    have herase := c.len_invalidate hashSql sql
    rw [step]
    rw [invalidate] at herase ⊢
    split_ifs at herase ⊢
    · exact counted_same rfl rfl rfl rfl rfl
    · exact counted_slots herase (AList.total_erase_le c.statements PreparedStatement.executionCount (hashSql sql))
  | cleared => exact counted_slots (Nat.zero_le _) (Nat.zero_le _)
  | statsReset => exact absurd rfl h
  | _ => exact counted_same rfl rfl rfl rfl rfl

theorem len_le_card {m : HashMap UInt64 PreparedStatement} {keys : Finset UInt64}
    (h : ∀ key stmt, m.lookup key = some stmt → key ∈ keys) : m.len ≤ keys.card := by
  have hsub : m.keys.toFinset ⊆ keys := by
    intro key hkey
    obtain ⟨stmt, hstmt⟩ := Option.isSome_iff_exists.1 (AList.lookup_isSome.2 (List.mem_toFinset.1 hkey))
    exact h key stmt hstmt
  have hcard := Finset.card_le_card hsub
  rwa [List.toFinset_card_of_nodup m.keys_nodup, AList.keys, List.keys, List.length_map] at hcard

/-- A miss with room for its statement drops no other slot. -/
theorem lookup_fillSlot_room (hroom : (c.statements.erase (hashSql sql) : HashMap UInt64 PreparedStatement).len < config.maxStatements)
    (hkey : key ≠ hashSql sql) :
    (c.fillSlot order hashSql config now sql).statements.lookup key = c.statements.lookup key := by
  rw [fillSlot, if_pos (Nat.zero_lt_of_lt hroom), thin_of_lt hroom]
  exact (AList.lookup_insert_ne hkey).trans (AList.lookup_erase_ne hkey)

/-- A slot stays with its statement where there is room for all. -/
theorem step_keeps {event : StatementEvent} (hroom : ∀ snapshot clock text timed, event = .registered snapshot clock text timed →
      (c.statements.erase (hashSql text) : HashMap UInt64 PreparedStatement).len < snapshot.maxStatements)
    (hempties : event.empties hashSql sql = false) (h : ∃ stmt, c.statements.lookup (hashSql sql) = some stmt ∧ stmt.sql = sql) :
    ∃ stmt, (c.step order hashSql event).statements.lookup (hashSql sql) = some stmt ∧ stmt.sql = sql := by
  obtain ⟨stmt, hlook, hsql⟩ := h
  cases event with
  | registered snapshot clock text timed =>
    have hmax := hroom snapshot clock text timed rfl
    by_cases htext : text = sql
    · subst htext
      rw [step, lookup_registerLocked, if_pos (Nat.zero_lt_of_lt hmax), hlook]
      split_ifs
      · exact ⟨_, rfl, by cases timed <;> exact hsql⟩
      · exact ⟨_, rfl, by cases timed <;> rfl⟩
    · rw [empties, bne_iff_ne.2 htext, Bool.true_and] at hempties
      have hkey : hashSql sql ≠ hashSql text := Ne.symm (beq_eq_false_iff_ne.1 hempties)
      rw [step, lookup_registerLocked_other hkey, lookup_fillSlot_room hmax hkey, ite_self]
      exact ⟨stmt, hlook, hsql⟩
  | recorded now text duration =>
    rw [step, recordLocked]
    cases hslot : (c.statements.lookup (hashSql text)).filter fun stmt => stmt.sql == text with
    | none => exact ⟨stmt, hlook, hsql⟩
    | some other =>
      dsimp only
      rw [AList.lookup_insert_cases]
      split_ifs with hkey
      · rw [← hkey, hlook] at hslot
        obtain rfl := Option.some_inj.1 (Option.filter_eq_some_iff.1 hslot).1
        exact ⟨_, rfl, hsql⟩
      · exact ⟨stmt, hlook, hsql⟩
  | invalidated text =>
    rw [step, invalidate]
    split_ifs with hall
    · exact ⟨stmt, hlook, hsql⟩
    · have hkey : hashSql sql ≠ hashSql text := by
        intro hkey
        rw [← hkey, hlook, Option.all_some, hsql, bne_iff_ne, not_not] at hall
        exact beq_eq_false_iff_ne.1 hempties hall.symm
      exact ⟨stmt, (AList.lookup_erase_ne hkey).trans hlook, hsql⟩
  | cleared => cases hempties
  | _ => exact ⟨stmt, hlook, hsql⟩

/-- Every registration's configuration allows as many slots as there are hashes. -/
def Roomy (hashSql : String → UInt64) (hashes : Finset UInt64) (events : List StatementEvent) : Prop :=
  ∀ snapshot clock sql timed, .registered snapshot clock sql timed ∈ events →
    hashSql sql ∈ hashes ∧ hashes.card ≤ snapshot.maxStatements

theorem Roomy.len_lt (order : IterationOrder UInt64 PreparedStatement) (config : PreparedStatementConfig) {hashes : Finset UInt64} {event : StatementEvent} (h : Roomy hashSql hashes (events ++ [event])) {snapshot : PreparedStatementConfig}
    (hevent : event = .registered snapshot clock sql timed) :
    (((withConfig config).run order hashSql events).statements.erase (hashSql sql) : HashMap UInt64 PreparedStatement).len <
      snapshot.maxStatements := by
  obtain ⟨hmem, hcard⟩ := h snapshot clock sql timed (by rw [hevent]; exact List.mem_append_right _ (List.mem_singleton_self _))
  have hlen : (((withConfig config).run order hashSql events).statements.erase (hashSql sql) : HashMap UInt64 PreparedStatement).len ≤
      (hashes.erase (hashSql sql)).card := by
    refine len_le_card fun key stmt hlook => ?_
    rw [AList.lookup_erase_cases] at hlook
    split_ifs at hlook with hkey
    obtain ⟨hplace, since, ⟨earlier, rfl⟩, hsince⟩ := run_since order hashSql config events key stmt hlook
    obtain ⟨read, first, firstTimed, later, rfl, -, -⟩ := hsince.registered
    refine Finset.mem_erase.2 ⟨hkey, hplace ▸ (h read first stmt.sql firstTimed ?_).1⟩
    exact List.mem_append_left _ (List.mem_append_right _ List.mem_cons_self)
  exact (hlen.trans_lt (Finset.card_erase_lt_of_mem hmem)).trans_le hcard

theorem slot_of_roomy (order : IterationOrder UInt64 PreparedStatement) (config : PreparedStatementConfig) {hashes : Finset UInt64} {earlier later : List StatementEvent} {snapshot : PreparedStatementConfig}
    (hroomy : Roomy hashSql hashes (earlier ++ .registered snapshot clock sql timed :: later))
    (hlater : ∀ event ∈ later, event.empties hashSql sql = false) :
    ∃ stmt, ((withConfig config).run order hashSql (earlier ++ .registered snapshot clock sql timed :: later)).statements.lookup
      (hashSql sql) = some stmt ∧ stmt.sql = sql := by
  induction later using List.reverseRecOn with
  | nil =>
    have hmax := hroomy.len_lt order config rfl
    rw [run_concat, step, lookup_registerLocked, if_pos (Nat.zero_lt_of_lt hmax)]
    split_ifs with hhit
    · obtain ⟨stmt, hlook, hstmt⟩ := (Option.any_eq_true _ _).1 hhit
      rw [Bool.and_eq_true, beq_iff_eq] at hstmt
      rw [hlook]
      exact ⟨_, rfl, by cases timed <;> exact hstmt.1⟩
    · exact ⟨_, rfl, by cases timed <;> rfl⟩
  | append_singleton later event ih =>
    have hevents : earlier ++ .registered snapshot clock sql timed :: (later ++ [event]) =
        earlier ++ .registered snapshot clock sql timed :: later ++ [event] :=
      (List.append_assoc earlier (.registered snapshot clock sql timed :: later) [event]).symm
    rw [hevents] at hroomy ⊢
    rw [run_concat]
    refine step_keeps (fun read clock text timed hevent => hroomy.len_lt order config hevent) (hlater event (List.mem_append_right _ (List.mem_singleton_self _))) (ih ?_ ?_)
    · exact fun read clock text timed hmem => hroomy read clock text timed (List.mem_append_left _ hmem)
    · exact fun other hother => hlater other (List.mem_append_left _ hother)

/-- Where no more hashes are registered than any configuration allows slots for, nothing is evicted: a statement that was
registered, and whose slot nothing emptied, is missed by its age only. -/
theorem miss_by_age_only (order : IterationOrder UInt64 PreparedStatement) (hashSql : String → UInt64)
    (config read snapshot : PreparedStatementConfig) (earlier later : List StatementEvent) (first clock : ClockReadings) (sql : String)
    (firstTimed timed : Option ℕ) (hashes : Finset UInt64)
    (hroomy : Roomy hashSql hashes (earlier ++ .registered read first sql firstTimed :: later))
    (hlater : ∀ event ∈ later, event.empties hashSql sql = false)
    (hmiss : (((withConfig config).run order hashSql (earlier ++ .registered read first sql firstTimed :: later)).registerLocked order hashSql
      snapshot clock sql timed).1 = false) :
    ∃ known last lastTimed, .registered known last sql lastTimed ∈ earlier ++ .registered read first sql firstTimed :: later ∧
      snapshot.maxAge ≤ clock.aged - last.used := by
  obtain ⟨stmt, hlook, rfl⟩ := slot_of_roomy order config hroomy hlater
  obtain ⟨-, since, ⟨front, hfront⟩, hsince⟩ := run_since order hashSql config _ _ stmt hlook
  obtain ⟨known, last, lastTimed, rest, rfl, hused, -⟩ := hsince.registered
  change isHit hashSql _ snapshot clock.aged stmt.sql = false at hmiss
  rw [isHit, hlook, Option.any_some, beq_self_eq_true, Bool.true_and, decide_eq_false_iff_not, Nat.not_lt, ← hused] at hmiss
  refine ⟨known, last, lastTimed, ?_, hmiss⟩
  rw [← hfront]
  exact List.mem_append_right _ List.mem_cons_self

theorem miss_by_age_only_old :
    ∃ known last lastTimed, .registered known last "A" lastTimed ∈ [] ++ seen 1 "A" :: [seen 2 "BB"] ∧ 1000 ≤ 1001 - last.used :=
  miss_by_age_only (.stored ..) hashLength ofTwo ofTwo ofTwo [] [seen 2 "BB"] ⟨1, 1, 1⟩ ⟨1001, 1001, 1001⟩ "A" (some 1) none {1, 2}
    (fun snapshot clock sql timed hmem => by
      rcases List.mem_cons.1 hmem with h | h
      · cases h
        decide
      · cases List.mem_singleton.1 h
        decide)
    (by decide) (by decide +kernel)

theorem len_fillSlot : (c.fillSlot order hashSql config now sql).len ≤ max c.len config.maxStatements := by
  have herase := AList.len_erase_le c.statements (hashSql sql)
  rw [fillSlot]
  split_ifs with hmax
  · have hthin := (thin_thinned order PreparedStatement.lastUsed config.maxStatements
      (c.statements.erase (hashSql sql)) 0).len
    generalize thin order PreparedStatement.lastUsed config.maxStatements (c.statements.erase (hashSql sql)) 0 = thinned
      at hthin
    have hlen := AList.len_insert_le thinned.1 (hashSql sql) (.new now sql)
    dsimp only [len]
    omega
  · exact herase.trans (Nat.le_max_left ..)

theorem len_registerLocked :
    (c.registerLocked order hashSql config clock sql timed).2.len ≤ max c.len config.maxStatements := by
  have hslot : (if c.isHit hashSql config clock.aged sql then c.useSlot hashSql clock.used sql
      else c.fillSlot order hashSql config clock.used sql).len ≤ max c.len config.maxStatements := by
    split_ifs with hhit
    · exact (len_useSlot clock.used hhit).le.trans (Nat.le_max_left ..)
    · exact len_fillSlot
  cases timed with
  | none => exact hslot
  | some duration => exact (len_timeSlot _ hashSql clock.recorded sql duration).le.trans hslot

/-- The cache never holds more statements than the largest number that a registration of the run allowed. -/
theorem len_of_run (order : IterationOrder UInt64 PreparedStatement) (hashSql : String → UInt64) (config : PreparedStatementConfig)
    (events : List StatementEvent) (limit : ℕ)
    (h : ∀ snapshot clock sql timed, .registered snapshot clock sql timed ∈ events → snapshot.maxStatements ≤ limit) :
    ((withConfig config).run order hashSql events).len ≤ limit := by
  induction events using List.reverseRecOn with
  | nil => exact Nat.zero_le _
  | append_singleton events event ih =>
    have hbefore := ih fun snapshot clock sql timed hmem => h snapshot clock sql timed (List.mem_append_left _ hmem)
    rw [run_concat]
    cases event with
    | registered snapshot clock sql timed =>
      have hlimit := h snapshot clock sql timed (List.mem_append_right _ (List.mem_singleton_self _))
      exact len_registerLocked.trans (max_le hbefore hlimit)
    | recorded now sql duration => exact (len_recordLocked _ hashSql now sql duration).le.trans hbefore
    | invalidated sql => exact (len_invalidate _ hashSql sql).trans hbefore
    | cleared => exact Nat.zero_le _
    | _ => exact hbefore

theorem len_of_run_of_two : ((withConfig ofTwo).run (.stored ..) hashLength [seen 1 "A", seen 2 "BB", seen 3 "CCC"]).len ≤ 2 :=
  len_of_run (.stored ..) hashLength ofTwo [seen 1 "A", seen 2 "BB", seen 3 "CCC"] 2 fun snapshot clock sql timed hmem => by
    have hseen : .registered snapshot clock sql timed = seen 1 "A" ∨ .registered snapshot clock sql timed = seen 2 "BB" ∨
        .registered snapshot clock sql timed = seen 3 "CCC" := by
      simpa using hmem
    rcases hseen with h | h | h
    all_goals
      cases h
      exact Nat.le_refl 2

/-- What is reported of a slot: its statement, registered by an event of the run after which nothing emptied the slot, the
executions since, and their exact mean, which the cut to 64 bits leaves as it is. -/
theorem average_of_run (order : IterationOrder UInt64 PreparedStatement) (hashSql : String → UInt64) (config : PreparedStatementConfig)
    (events : List StatementEvent) (now : Instant)
    (hdurations : ∀ event ∈ events, ∀ sql, ∀ duration ∈ event.timings sql, duration < UInt64.size) (info : CachedStatementInfo)
    (hinfo : info ∈ ((withConfig config).run order hashSql events).cachedStatementsInfo order now) :
    ∃ sql earlier snapshot clock timed later, events = earlier ++ .registered snapshot clock sql timed :: later ∧
      (∀ event ∈ later, event.empties hashSql sql = false) ∧ info.hash = hashSql sql ∧ info.sqlPreview = sqlPreview sql ∧
      info.ageSecs = (now - clock.used) / 1000000000 ∧
      info.executionCount = ((StatementEvent.registered snapshot clock sql timed :: later).flatMap (timings sql)).length ∧
      info.avgExecutionTimeUs = ((StatementEvent.registered snapshot clock sql timed :: later).flatMap (timings sql)).sum /
        max ((StatementEvent.registered snapshot clock sql timed :: later).flatMap (timings sql)).length 1 := by
  obtain ⟨⟨key, stmt⟩, hslot, rfl⟩ := List.mem_map.1 hinfo
  obtain ⟨rfl, since, ⟨earlier, rfl⟩, hsince⟩ := run_since order hashSql config events key stmt (mem_order_iff.1 hslot)
  obtain ⟨snapshot, clock, timed, later, hregistered, hclock, hlater⟩ := hsince.registered
  have hsum : (since.flatMap (timings stmt.sql)).sum ≤ (since.flatMap (timings stmt.sql)).length * (UInt64.size - 1) := by
    refine List.sum_le_card_nsmul _ _ fun duration hduration => ?_
    obtain ⟨event, hevent, htiming⟩ := List.mem_flatMap.1 hduration
    exact Nat.le_pred_of_lt (hdurations event (List.mem_append_right _ hevent) stmt.sql duration htiming)
  have hmean : (since.flatMap (timings stmt.sql)).sum / max (since.flatMap (timings stmt.sql)).length 1 < UInt64.size := by
    refine Nat.div_lt_of_lt_mul ?_
    generalize (since.flatMap (timings stmt.sql)).sum = total at hsum ⊢
    generalize (since.flatMap (timings stmt.sql)).length = count at hsum ⊢
    change total < max count 1 * 18446744073709551616
    change total ≤ count * 18446744073709551615 at hsum
    omega
  refine ⟨stmt.sql, earlier, snapshot, clock, timed, later, by rw [hregistered], hlater, rfl, rfl, by rw [hclock], ?_, ?_⟩
  · rw [← hregistered]
    exact hsince.executionCount
  · rw [← hregistered]
    dsimp only
    rw [hsince.executionCount, hsince.totalExecutionTimeUs]
    exact Nat.mod_eq_of_lt hmean

theorem average_of_run_of_two :
    ∃ sql earlier snapshot clock timed later, [seen 1 "A", seen 4 "A"] = earlier ++ .registered snapshot clock sql timed :: later ∧
      (∀ event ∈ later, event.empties hashLength sql = false) ∧ (1 : UInt64) = hashLength sql ∧ "A" = sqlPreview sql ∧
      0 = (9 - clock.used) / 1000000000 ∧
      2 = ((StatementEvent.registered snapshot clock sql timed :: later).flatMap (timings sql)).length ∧
      2 = ((StatementEvent.registered snapshot clock sql timed :: later).flatMap (timings sql)).sum /
        max ((StatementEvent.registered snapshot clock sql timed :: later).flatMap (timings sql)).length 1 :=
  average_of_run (.stored ..) hashLength ofTwo [seen 1 "A", seen 4 "A"] 9 (by
    intro event hevent sql duration hduration
    have hseen : event = seen 1 "A" ∨ event = seen 4 "A" := by simpa using hevent
    rcases hseen with rfl | rfl
    all_goals
      rw [seen, timings] at hduration
      split_ifs at hduration
      · rw [List.mem_singleton.1 hduration]
        decide
      · cases hduration) ⟨1, "A", 2, 2, 0⟩ (by decide +kernel)

end PreparedStatementCache

end TideOrm
