import TideOrm.Spec.Migrator
import Mathlib.Logic.Relation

/-! Under the migration lock and with transactional DDL the ledger lists what is applied. -/

namespace TideOrm

open Lib Lib.Command

/-- Nothing but the faults to come differs. -/
structure Like (s s' : MigrationDb) : Prop where
  backend : s'.backend = s.backend
  ledgers : s'.ledgers = s.ledgers
  log : s'.log = s.log

theorem Like.refl (s : MigrationDb) : Like s s := ⟨rfl, rfl, rfl⟩

theorem Like.trans {s₁ s₂ s₃ : MigrationDb} (h : Like s₁ s₂) (h' : Like s₂ s₃) : Like s₁ s₃ :=
  ⟨h'.backend.trans h.backend, h'.ledgers.trans h.ledgers, h'.log.trans h.log⟩

theorem act_like (s : MigrationDb) : Ensures act s (fun _ => Like s) (Like s) := by
  unfold Ensures act
  rcases s.faults with _ | ⟨_ | e, faults⟩
  · exact Like.refl s
  · exact ⟨rfl, rfl, rfl⟩
  · exact ⟨rfl, rfl, rfl⟩

section Attempts

variable (table version : String) (apply : Bool)

/-- The ledger of the table after a migration is applied or reverted. -/
def recordedAfter (ledger : List String) : List String :=
  if apply then ledger ++ [version] else ledger.filter (· != version)

/-- The migration's statements and its ledger entry are committed. -/
structure Done (s s' : MigrationDb) : Prop where
  backend : s'.backend = s.backend
  ledgers : s'.ledgers = Function.update s.ledgers table (recordedAfter version apply (s.ledgers table))
  log : s'.log = s.log ++ [⟨table, version, apply, true⟩]

/-- The migration's statements, if any were run, are not committed. -/
structure Undone (s s' : MigrationDb) : Prop where
  backend : s'.backend = s.backend
  ledgers : s'.ledgers = s.ledgers
  log : s'.log = s.log ∨ s'.log = s.log ++ [⟨table, version, apply, false⟩]

/-- A failed transaction's state before it is rolled back. -/
structure Broken (s s' : MigrationDb) : Prop where
  backend : s'.backend = s.backend
  log : s'.log = s.log ∨ ∃ committed, s'.log = s.log ++ [⟨table, version, apply, committed⟩]

variable {table version apply} {s s₁ s₂ : MigrationDb}

theorem Done.like (h : Done table version apply s s₁) (h' : Like s₁ s₂) : Done table version apply s s₂ :=
  ⟨h'.backend.trans h.backend, h'.ledgers.trans h.ledgers, h'.log.trans h.log⟩

theorem Like.done (h : Like s s₁) (h' : Done table version apply s₁ s₂) : Done table version apply s s₂ := by
  refine ⟨h'.backend.trans h.backend, ?_, ?_⟩
  · rw [h'.ledgers, h.ledgers]
  · rw [h'.log, h.log]

theorem Like.undone (h : Like s s₁) (h' : Undone table version apply s₁ s₂) : Undone table version apply s s₂ := by
  refine ⟨h'.backend.trans h.backend, h'.ledgers.trans h.ledgers, ?_⟩
  rw [← h.log]
  exact h'.log

theorem Undone.like (h : Undone table version apply s s₁) (h' : Like s₁ s₂) : Undone table version apply s s₂ := by
  refine ⟨h'.backend.trans h.backend, h'.ledgers.trans h.ledgers, ?_⟩
  rw [h'.log]
  exact h.log

theorem Like.broken (h : Like s s₁) (h' : Broken table version apply s₁ s₂) : Broken table version apply s s₂ := by
  refine ⟨h'.backend.trans h.backend, ?_⟩
  rw [← h.log]
  exact h'.log

theorem Like.toBroken (h : Like s s₁) : Broken table version apply s s₁ := ⟨h.backend, Or.inl h.log⟩

theorem Like.toUndone (h : Like s s₁) : Undone table version apply s s₁ := ⟨h.backend, h.ledgers, Or.inl h.log⟩

theorem Done.toBroken (h : Done table version apply s s₁) : Broken table version apply s s₁ :=
  ⟨h.backend, Or.inr ⟨true, h.log⟩⟩

theorem Broken.rolledBack (h : Broken table version apply s s₁) : Undone table version apply s (s.rolledBack s₁) := by
  refine ⟨h.backend, rfl, ?_⟩
  rcases h.log with hlog | ⟨committed, hlog⟩
  · exact Or.inl (by simp [MigrationDb.rolledBack, hlog])
  · exact Or.inr (by simp [MigrationDb.rolledBack, hlog])

/-- What the ledger's writes leave. -/
theorem entry_spec (table version : String) (apply : Bool) (s : MigrationDb) :
    Ensures (if apply then Ledger.record table version else Ledger.remove table version) s
      (fun _ s' => s'.backend = s.backend ∧ s'.log = s.log ∧
        s'.ledgers = Function.update s.ledgers table (recordedAfter version apply (s.ledgers table))) (Like s) := by
  cases apply with
  | true =>
    refine Ensures.bind ((act_like s).mono (fun _ s₁ hlike => Ensures.bind (ensures_get ?_)) fun _ hlike => hlike)
    split_ifs
    · exact ensures_throw hlike
    · refine ensures_set ⟨hlike.backend, hlike.log, ?_⟩
      rw [← hlike.ledgers]
      rfl
  | false =>
    refine Ensures.bind ((act_like s).mono (fun _ s₁ hlike => Ensures.bind (ensures_get ?_)) fun _ hlike => hlike)
    refine ensures_set ⟨hlike.backend, hlike.log, ?_⟩
    rw [← hlike.ledgers]
    rfl

/-- A migration's statements and its ledger entry. -/
theorem work_spec (table version : String) (apply : Bool) (s : MigrationDb) :
    Ensures (do
      statements table version apply
      if apply then Ledger.record table version else Ledger.remove table version) s
      (fun _ => Done table version apply s) (Broken table version apply s) := by
  have hstatements : Ensures (statements table version apply) s
      (fun _ s' => s'.backend = s.backend ∧ s'.ledgers = s.ledgers ∧ s'.log = s.log ++ [⟨table, version, apply, true⟩])
      (Broken table version apply s) := by
    have hact := act_like s
    unfold Ensures at hact ⊢
    unfold statements
    rcases hx : act s with ⟨e | a, s₁⟩
    · rw [hx] at hact
      exact ⟨hact.backend, Or.inr ⟨false, congrArg (· ++ _) hact.log⟩⟩
    · rw [hx] at hact
      exact ⟨hact.backend, hact.ledgers, congrArg (· ++ _) hact.log⟩
  refine Ensures.bind (hstatements.mono (fun _ s₁ ⟨hbackend, hledgers, hlog⟩ => ?_) fun _ h => h)
  refine (entry_spec table version apply s₁).mono (fun _ s₂ ⟨hbackend', hlog', hledgers'⟩ => ?_) fun s₂ hlike => ?_
  · refine ⟨hbackend'.trans hbackend, ?_, hlog'.trans hlog⟩
    rw [hledgers', hledgers]
  · exact ⟨hlike.backend.trans hbackend, Or.inr ⟨true, hlike.log.trans hlog⟩⟩

/-- A transaction whose work does one migration commits it as a whole or not at all. -/
theorem transaction_spec {work : MigrateM Unit}
    (h : ∀ s, Ensures work s (fun _ => Done table version apply s) (Broken table version apply s)) (s : MigrationDb) :
    Ensures (transaction work) s (fun _ => Done table version apply s) (Undone table version apply s) := by
  refine Ensures.bind ((act_like s).mono (fun _ s₁ hlike => ?_) fun s₁ hlike => hlike.toUndone)
  have hwork := h s₁
  unfold Ensures at hwork ⊢
  rcases hx : work s₁ with ⟨e | a, s₂⟩
  · rw [hx] at hwork
    simp only [hx]
    exact hlike.undone hwork.rolledBack
  · rw [hx] at hwork
    have hcommit := act_like s₂
    unfold Ensures at hcommit
    rcases hy : act s₂ with ⟨e | a, s₃⟩
    · rw [hy] at hcommit
      simp only [hx, hy]
      exact hlike.undone (hwork.like hcommit).toBroken.rolledBack
    · rw [hy] at hcommit
      simp only [hx, hy]
      exact hlike.done (hwork.like hcommit)

theorem foreignKeysOff_spec {work : MigrateM Unit}
    (h : ∀ s, Ensures work s (fun _ => Done table version apply s) (Broken table version apply s)) (s : MigrationDb) :
    Ensures (runWithForeignKeysOff work) s (fun _ => Done table version apply s)
      (fun s' => Done table version apply s s' ∨ Undone table version apply s s') := by
  have hchecked : ∀ s, Ensures (do act; work; act) s (fun _ => Done table version apply s) (Broken table version apply s) := by
    intro s
    refine Ensures.bind ((act_like s).mono (fun _ s₁ hlike => ?_) fun _ hlike => hlike.toBroken)
    refine Ensures.bind ((h s₁).mono (fun _ s₂ hdone => ?_) fun _ hbroken => hlike.broken hbroken)
    exact (act_like s₂).mono (fun _ _ hlike' => hlike.done (hdone.like hlike'))
      fun _ hlike' => hlike.broken (hdone.like hlike').toBroken
  refine Ensures.bind ((act_like s).mono (fun _ s₁ hlike => ?_) fun _ hlike => Or.inr hlike.toUndone)
  have hrun := transaction_spec hchecked s₁
  unfold Ensures at hrun ⊢
  rcases hx : transaction (do act; work; act) s₁ with ⟨result, s₂⟩
  rw [hx] at hrun
  have hclose := act_like s₂
  unfold Ensures at hclose
  rcases hy : act s₂ with ⟨e | a, s₃⟩
  · rw [hy] at hclose
    simp only [hx, hy]
    rcases result with e' | a'
    · exact Or.inr (hlike.undone (hrun.like hclose))
    · exact Or.inl (hlike.done (hrun.like hclose))
  · rw [hy] at hclose
    simp only [hx, hy]
    rcases result with e' | a'
    · exact Or.inr (hlike.undone (hrun.like hclose))
    · exact hlike.done (hrun.like hclose)

theorem inDdlScope_spec {work : MigrateM Unit} (foreignKeysOff : Bool)
    (h : ∀ s, Ensures work s (fun _ => Done table version apply s) (Broken table version apply s)) {s : MigrationDb}
    (hddl : supportsTransactionalDdl s.backend = true) :
    Ensures (inDdlScope foreignKeysOff work) s (fun _ => Done table version apply s)
      (fun s' => Done table version apply s s' ∨ Undone table version apply s s') := by
  refine Ensures.bind (ensures_get ?_)
  rw [hddl]
  simp only [Bool.not_true, Bool.false_eq_true, if_false]
  split_ifs
  · exact foreignKeysOff_spec h s
  · exact (transaction_spec h s).mono (fun _ _ hdone => hdone) fun _ hundone => Or.inr hundone

theorem runMigration_spec (migration : Migration) (table : String) (apply : Bool) {s : MigrationDb}
    (hddl : supportsTransactionalDdl s.backend = true) :
    Ensures (runMigration migration table apply) s (fun _ => Done table migration.version apply s)
      (fun s' => Done table migration.version apply s s' ∨ Undone table migration.version apply s s') :=
  inDdlScope_spec _ (work_spec table migration.version apply) hddl

end Attempts

section Live

variable {table : String}

theorem liveVersions_up (log : List Attempt) (version : String) :
    liveVersions table (log ++ [⟨table, version, true, true⟩]) = liveVersions table log ++ [version] := by
  induction log with
  | nil => simp [liveVersions]
  | cons attempt log ih =>
    rw [List.cons_append, liveVersions, liveVersions, ih]
    simp only [List.any_append, List.any_cons, List.any_nil, Bool.not_true, Bool.and_false, Bool.false_and, Bool.or_false]
    split_ifs <;> rfl

theorem liveVersions_down (log : List Attempt) (version : String) :
    liveVersions table (log ++ [⟨table, version, false, true⟩]) = (liveVersions table log).filter (· != version) := by
  induction log with
  | nil => simp [liveVersions]
  | cons attempt log ih =>
    rw [List.cons_append, liveVersions, liveVersions, ih]
    simp only [List.any_append, List.any_cons, List.any_nil, beq_self_eq_true, Bool.not_false, Bool.and_self, Bool.true_and,
      Bool.or_false]
    grind

theorem liveVersions_other (log : List Attempt) {attempt : Attempt} (h : attempt.table ≠ table ∨ attempt.committed = false) :
    liveVersions table (log ++ [attempt]) = liveVersions table log := by
  induction log with
  | nil =>
    simp only [List.nil_append, liveVersions]
    grind
  | cons first log ih =>
    rw [List.cons_append, liveVersions, liveVersions, ih]
    simp only [List.any_append, List.any_cons, List.any_nil, Bool.or_false]
    grind

end Live

/-- The ledgers list what is applied, and no up was run for what they listed. -/
structure Mirrors (s : MigrationDb) : Prop where
  ddl : supportsTransactionalDdl s.backend = true
  ledgers : ∀ table, s.ledgers table = liveVersions table s.log
  nodup : ∀ table, (s.ledgers table).Nodup
  fresh : ∀ before attempt after, s.log = before ++ attempt :: after → attempt.apply = true →
    attempt.version ∉ liveVersions attempt.table before

namespace Mirrors

variable {s s' : MigrationDb} {table version : String} {apply : Bool}

theorem like (h : Mirrors s) (hlike : Like s s') : Mirrors s' := by
  obtain ⟨hbackend, hledgers, hlog⟩ := hlike
  refine ⟨hbackend ▸ h.ddl, fun table => ?_, fun table => ?_, fun before attempt after hsplit => ?_⟩
  · rw [hledgers, hlog]
    exact h.ledgers table
  · rw [hledgers]
    exact h.nodup table
  · rw [hlog] at hsplit
    exact h.fresh before attempt after hsplit

/-- One more attempt keeps the ups fresh. -/
theorem fresh_snoc (h : Mirrors s) (hfresh : apply = true → version ∉ s.ledgers table) {committed : Bool}
    {before : List Attempt} {attempt : Attempt} {after : List Attempt}
    (hsplit : s.log ++ [⟨table, version, apply, committed⟩] = before ++ attempt :: after) (happly : attempt.apply = true) :
    attempt.version ∉ liveVersions attempt.table before := by
  rcases List.eq_nil_or_concat after with rfl | ⟨after', last, rfl⟩
  · obtain ⟨hlog, hlast⟩ := List.append_inj' hsplit rfl
    obtain rfl := (List.cons.inj hlast).1
    rw [← hlog, ← h.ledgers]
    exact hfresh happly
  · rw [List.concat_eq_append, ← List.cons_append, ← List.append_assoc] at hsplit
    obtain ⟨hlog, -⟩ := List.append_inj' hsplit rfl
    exact h.fresh before attempt after' hlog happly

theorem done (h : Mirrors s) (hfresh : apply = true → version ∉ s.ledgers table) (hdone : Done table version apply s s') :
    Mirrors s' := by
  refine ⟨hdone.backend ▸ h.ddl, fun table' => ?_, fun table' => ?_, fun before attempt after hsplit => ?_⟩
  · rw [hdone.ledgers, hdone.log]
    by_cases htable : table' = table
    · subst htable
      rw [Function.update_self]
      cases apply with
      | true => rw [liveVersions_up, ← h.ledgers]; rfl
      | false => rw [liveVersions_down, ← h.ledgers]; rfl
    · rw [Function.update_of_ne htable, liveVersions_other _ (Or.inl (Ne.symm htable))]
      exact h.ledgers table'
  · rw [hdone.ledgers]
    by_cases htable : table' = table
    · subst htable
      rw [Function.update_self]
      cases apply with
      | true => exact List.nodup_append.2 ⟨h.nodup table', List.nodup_singleton version, by
          intro a ha b hb
          rw [List.mem_singleton.1 hb]
          exact fun heq => hfresh rfl (heq ▸ ha)⟩
      | false => exact (h.nodup table').filter _
    · rw [Function.update_of_ne htable]
      exact h.nodup table'
  · rw [hdone.log] at hsplit
    exact h.fresh_snoc hfresh hsplit

theorem undone (h : Mirrors s) (hfresh : apply = true → version ∉ s.ledgers table)
    (hundone : Undone table version apply s s') : Mirrors s' := by
  rcases hundone.log with hlog | hlog
  · exact h.like ⟨hundone.backend, hundone.ledgers, hlog⟩
  · refine ⟨hundone.backend ▸ h.ddl, fun table' => ?_, fun table' => ?_, fun before attempt after hsplit => ?_⟩
    · rw [hundone.ledgers, hlog, liveVersions_other _ (Or.inr rfl)]
      exact h.ledgers table'
    · rw [hundone.ledgers]
      exact h.nodup table'
    · rw [hlog] at hsplit
      exact h.fresh_snoc hfresh hsplit

end Mirrors

section Calls

variable {s : MigrationDb} {m : Migrator}

theorem checkedLedger_like (table : String) (s : MigrationDb) : Ensures (checkedLedger table) s (fun _ => Like s) (Like s) := by
  unfold checkedLedger
  split_ifs
  · exact ensures_pure (Like.refl s)
  · exact ensures_throw (Like.refl s)

theorem keys_spec (table : String) (s : MigrationDb) :
    Ensures (Ledger.keys table) s (fun keys s' => keys = s.ledgers table ∧ Like s s') (Like s) :=
  Ensures.bind ((act_like s).mono (fun _ _ hlike => Ensures.bind (ensures_get (ensures_pure
    ⟨congrFun hlike.ledgers table, hlike⟩))) fun _ hlike => hlike)

/-- A command that leaves the ledgers as they were before another runs. -/
theorem Ensures.afterLike {α β : Type} {x : MigrateM α} {f : α → MigrateM β} {ok : β → MigrationDb → Prop}
    {err : MigrationDb → Prop} (hx : Ensures x s (fun _ => Like s) (Like s)) (herr : ∀ s', Like s s' → err s')
    (hf : ∀ a s', Like s s' → Ensures (f a) s' ok err) : Ensures (x >>= f) s ok err :=
  Ensures.bind (hx.mono hf herr)

theorem runPending_spec (applied : List String) (pending : List Migration) : ∀ {s : MigrationDb} (result : MigrationResult),
    Mirrors s → (pending.map Migration.version).Nodup →
    (∀ migration ∈ pending, migration.version ∈ applied ∨ migration.version ∉ s.ledgers m.table) →
    Ensures (m.runPending applied pending result) s (fun _ => Mirrors) Mirrors := by
  induction pending with
  | nil => exact fun result h _ _ => ensures_pure h
  | cons migration rest ih =>
    intro s result h hnodup hpending
    rw [List.map_cons] at hnodup
    obtain ⟨hnotin, hnodup⟩ := List.nodup_cons.1 hnodup
    rw [Migrator.runPending]
    split_ifs with happlied
    · exact ih _ h hnodup fun migration' hmem => hpending migration' (List.mem_cons_of_mem _ hmem)
    · have hfresh : true = true → migration.version ∉ s.ledgers m.table := fun _ =>
        (hpending migration List.mem_cons_self).resolve_left happlied
      refine Ensures.bind ((runMigration_spec migration m.table true h.ddl).mono (fun _ _ hdone => ?_) fun _ hend => ?_)
      · refine ih _ (h.done hfresh hdone) hnodup fun migration' hmem => ?_
        refine (hpending migration' (List.mem_cons_of_mem _ hmem)).imp_right fun hnew => ?_
        rw [hdone.ledgers, Function.update_self, recordedAfter, if_pos rfl, List.mem_append, List.mem_singleton, not_or]
        exact ⟨hnew, fun heq => hnotin (heq ▸ List.mem_map_of_mem hmem)⟩
      · exact hend.elim (h.done hfresh) (h.undone hfresh)

theorem sorted_perm (m : Migrator) : m.sorted.Perm m.migrations := List.perm_insertionSort _ _

theorem runLocked_spec (h : Mirrors s) (hdistinct : m.registeredVersions.Nodup) :
    Ensures m.runLocked s (fun _ => Mirrors) Mirrors := by
  refine Ensures.afterLike (checkedLedger_like m.table s) (fun _ => h.like) fun _ s₁ hlike₁ => ?_
  refine Ensures.afterLike (act_like s₁) (fun _ => (h.like hlike₁).like) fun _ s₂ hlike₂ => ?_
  have h₂ := (h.like hlike₁).like hlike₂
  refine Ensures.bind (Ensures.bind ((keys_spec m.table s₂).mono (fun keys s₃ ⟨hkeys, hlike₃⟩ => ensures_pure ?_)
    fun _ => h₂.like))
  have hsorted := (sorted_perm m).map Migration.version
  refine runPending_spec _ m.sorted {} (h₂.like hlike₃) (hsorted.nodup_iff.2 hdistinct) fun migration hmem => ?_
  rw [hlike₃.ledgers, ← hkeys]
  by_cases hrecorded : migration.version ∈ keys
  · refine Or.inl (List.mem_filter.2 ⟨hrecorded, ?_⟩)
    exact decide_eq_true (hsorted.mem_iff.1 (List.mem_map_of_mem hmem))
  · exact Or.inr hrecorded

/-- One rollback: nothing is changed, or the last entry is reverted, or its down failed. -/
inductive RolledBack (table : String) (s s' : MigrationDb) : Prop
  | unchanged (h : Like s s')
  | reverted (rest : List String) (version : String) (hlast : s.ledgers table = rest ++ [version])
    (h : Done table version false s s')
  | failed (rest : List String) (version : String) (hlast : s.ledgers table = rest ++ [version])
    (h : Undone table version false s s')

theorem RolledBack.mirrors {table : String} {s s' : MigrationDb} (h : Mirrors s) (hback : RolledBack table s s') :
    Mirrors s' := by
  rcases hback with hlike | ⟨_, _, _, hdone⟩ | ⟨_, _, _, hundone⟩
  · exact h.like hlike
  · exact h.done (by simp) hdone
  · exact h.undone (by simp) hundone

/-- The entry that is reverted is the last one, and only it leaves. -/
theorem Done.last {table version : String} {rest : List String} {s s' : MigrationDb} (h : Mirrors s)
    (hlast : s.ledgers table = rest ++ [version]) (hdone : Done table version false s s') :
    s'.ledgers = Function.update s.ledgers table rest := by
  have hnodup := h.nodup table
  rw [hlast] at hnodup
  have hnotin : version ∉ rest := fun hmem => (List.nodup_append.1 hnodup).2.2 version hmem version (by simp) rfl
  have hkept : rest.filter (· != version) = rest := by
    refine List.filter_eq_self.2 fun kept hkept => bne_iff_ne.2 ?_
    exact fun heq => hnotin (heq ▸ hkept)
  rw [hdone.ledgers, hlast, recordedAfter, if_neg Bool.false_ne_true, List.filter_append, hkept]
  simp

theorem rollbackLocked_spec (h : Mirrors s) : Ensures m.rollbackLocked s
    (fun result s' => (result.rolledBack = [] ∧ s.ledgers m.table = [] ∧ Like s s') ∨
      ∃ rest version, result.rolledBack ≠ [] ∧ s.ledgers m.table = rest ++ [version] ∧ Done m.table version false s s')
    (RolledBack m.table s) := by
  refine Ensures.afterLike (checkedLedger_like m.table s) (fun _ => .unchanged) fun _ s₁ hlike₁ => ?_
  refine Ensures.afterLike (act_like s₁) (fun _ hlike => .unchanged (hlike₁.trans hlike)) fun _ s₂ hlike₂ => ?_
  have hlike := hlike₁.trans hlike₂
  refine Ensures.bind ((keys_spec m.table s₂).mono (fun keys s₃ ⟨hkeys, hlike₃⟩ => ?_)
    fun _ hlike₃ => .unchanged (hlike.trans hlike₃))
  replace hlike := hlike.trans hlike₃
  have hledger : keys = s.ledgers m.table := by rw [hkeys, hlike₂.ledgers, hlike₁.ledgers]
  cases hlast : keys.getLast? with
  | none => exact ensures_pure (Or.inl ⟨rfl, hledger ▸ List.getLast?_eq_none_iff.1 hlast, hlike⟩)
  | some version =>
    obtain ⟨rest, hrest⟩ := List.getLast?_eq_some_iff.1 hlast
    rw [hledger] at hrest
    cases hfind : m.migrations.find? fun migration => migration.version == version with
    | none =>
      simp only [hfind]
      exact ensures_throw (.unchanged hlike)
    | some migration =>
      simp only [hfind]
      obtain rfl : migration.version = version := by simpa using List.find?_some hfind
      refine Ensures.bind ((runMigration_spec migration m.table false (h.like hlike).ddl).mono (fun _ s₄ hdone => ?_)
        fun s₄ hend => ?_)
      · exact ensures_pure (Or.inr ⟨rest, _, by simp, hrest, hlike.done hdone⟩)
      · rcases hend with hdone | hundone
        · exact .reverted rest _ hrest (hlike.done hdone)
        · exact .failed rest _ hrest (hlike.undone hundone)

theorem Like.revertsLast {table : String} {s s' : MigrationDb} (h : Like s s') : RevertsLast table s s' :=
  Or.inl ⟨h.ledgers, congrArg _ h.log⟩

theorem RevertsLast.like {table : String} {s s₁ s₂ : MigrationDb} (h : RevertsLast table s s₁) (hlike : Like s₁ s₂) :
    RevertsLast table s s₂ := by
  unfold RevertsLast
  rw [hlike.ledgers, hlike.log]
  exact h

theorem RolledBack.revertsLast {table : String} {s s' : MigrationDb} (h : Mirrors s) (hback : RolledBack table s s') :
    RevertsLast table s s' := by
  rcases hback with hlike | ⟨rest, version, hlast, hdone⟩ | ⟨_, _, _, hundone⟩
  · exact hlike.revertsLast
  · exact Or.inr ⟨rest, version, hlast, hdone.last h hlast, by simp [hdone.log]⟩
  · refine Or.inl ⟨hundone.ledgers, ?_⟩
    rcases hundone.log with hlog | hlog
    · rw [hlog]
    · simp [hlog]

/-- Rollbacks one after another. -/
structure RolledBackSteps (table : String) (s s' : MigrationDb) : Prop where
  mirrors : Mirrors s'
  steps : Relation.ReflTransGen (RevertsLast table) s s'

theorem RolledBack.steps {table : String} {s s' : MigrationDb} (h : Mirrors s) (hback : RolledBack table s s') :
    RolledBackSteps table s s' :=
  ⟨hback.mirrors h, .single (hback.revertsLast h)⟩

theorem RolledBackSteps.trans {table : String} {s s₁ s₂ : MigrationDb} (h : RolledBackSteps table s s₁)
    (h' : RolledBackSteps table s₁ s₂) : RolledBackSteps table s s₂ :=
  ⟨h'.mirrors, h.steps.trans h'.steps⟩

theorem Like.rolledBackSteps {table : String} {s s' : MigrationDb} (h : Mirrors s) (hlike : Like s s') :
    RolledBackSteps table s s' :=
  RolledBack.steps h (.unchanged hlike)

/-- As many rollbacks as the ledger has entries empty it. -/
theorem rollbackStepsLocked_spec : ∀ (steps : ℕ) (result : MigrationResult) {s : MigrationDb}, Mirrors s →
    Ensures (m.rollbackStepsLocked steps result) s
      (fun _ s' => RolledBackSteps m.table s s' ∧ ((s.ledgers m.table).length ≤ steps → s'.ledgers m.table = []))
      (RolledBackSteps m.table s) := by
  intro steps
  induction steps with
  | zero =>
    intro result s h
    exact ensures_pure ⟨(Like.refl s).rolledBackSteps h, fun hlen => List.length_eq_zero_iff.1 (Nat.le_zero.1 hlen)⟩
  | succ steps ih =>
    intro result s h
    rw [Migrator.rollbackStepsLocked]
    refine Ensures.bind ((rollbackLocked_spec h).mono (fun stepResult s₁ hstep => ?_) fun _ hback => hback.steps h)
    rcases hstep with ⟨hnone, hempty, hlike⟩ | ⟨rest, version, hsome, hlast, hdone⟩
    · rw [hnone]
      exact ensures_pure ⟨hlike.rolledBackSteps h, fun _ => by rw [hlike.ledgers, hempty]⟩
    · have hback : RolledBackSteps m.table s s₁ := RolledBack.steps h (.reverted rest version hlast hdone)
      rw [if_neg (by simpa using hsome)]
      refine (ih _ hback.mirrors).mono (fun _ s₂ ⟨hsteps, hall⟩ => ⟨hback.trans hsteps, fun hlen => hall ?_⟩)
        fun _ hsteps => hback.trans hsteps
      rw [hdone.last h hlast, Function.update_self]
      rw [hlast, List.length_append, List.length_singleton] at hlen
      omega

/-- A reset: with an entry that is not registered nothing is changed. -/
structure ResetEnds (m : Migrator) (s s' : MigrationDb) : Prop extends RolledBackSteps m.table s s' where
  unknown : (∃ version ∈ s.ledgers m.table, version ∉ m.registeredVersions) → s'.ledgers = s.ledgers ∧ s'.log = s.log

theorem Like.resetEnds {s s' : MigrationDb} (h : Mirrors s) (hlike : Like s s') : ResetEnds m s s' :=
  ⟨hlike.rolledBackSteps h, fun _ => ⟨hlike.ledgers, hlike.log⟩⟩

theorem Like.resets {s s₁ s₂ : MigrationDb} (hlike : Like s s₁) (h : Mirrors s) (hends : ResetEnds m s₁ s₂) :
    ResetEnds m s s₂ := by
  refine ⟨(hlike.rolledBackSteps h).trans hends.toRolledBackSteps, fun hunknown => ?_⟩
  rw [← hlike.ledgers] at hunknown
  rw [← hlike.ledgers, ← hlike.log]
  exact hends.unknown hunknown

theorem ResetEnds.like {s s₁ s₂ : MigrationDb} (hends : ResetEnds m s s₁) (hlike : Like s₁ s₂) : ResetEnds m s s₂ := by
  refine ⟨hends.toRolledBackSteps.trans (hlike.rolledBackSteps hends.mirrors), fun hunknown => ?_⟩
  rw [hlike.ledgers, hlike.log]
  exact hends.unknown hunknown

theorem resetLocked_spec (h : Mirrors s) :
    Ensures m.resetLocked s (fun _ s' => ResetEnds m s s' ∧ s'.ledgers m.table = []) (ResetEnds m s) := by
  refine Ensures.afterLike (checkedLedger_like m.table s) (fun _ => Like.resetEnds h) fun _ s₁ hlike₁ => ?_
  refine Ensures.afterLike (act_like s₁) (fun _ hlike => (hlike₁.trans hlike).resetEnds h) fun _ s₂ hlike₂ => ?_
  refine Ensures.bind ((keys_spec m.table s₂).mono (fun keys s₃ ⟨hkeys, hlike₃⟩ => ?_)
    fun _ hlike₃ => ((hlike₁.trans hlike₂).trans hlike₃).resetEnds h)
  have hlike := (hlike₁.trans hlike₂).trans hlike₃
  have hledger : keys = s.ledgers m.table := by rw [hkeys, hlike₂.ledgers, hlike₁.ledgers]
  dsimp only
  split_ifs with hknown
  · have hregistered : ¬ ∃ version ∈ s₃.ledgers m.table, version ∉ m.registeredVersions := by
      rw [hlike.ledgers, ← hledger]
      rintro ⟨version, hmem, hunknown⟩
      have hin : version ∈ keys.filter fun version => version ∉ m.registeredVersions :=
        List.mem_filter.2 ⟨hmem, decide_eq_true hunknown⟩
      rw [List.isEmpty_iff.1 hknown] at hin
      exact absurd hin List.not_mem_nil
    have hends {s' : MigrationDb} (hsteps : RolledBackSteps m.table s₃ s') : ResetEnds m s s' :=
      hlike.resets h ⟨hsteps, fun hunknown => absurd hunknown hregistered⟩
    refine (rollbackStepsLocked_spec keys.length {} (h.like hlike)).mono (fun _ s' ⟨hsteps, hall⟩ => ?_) fun _ => hends
    refine ⟨hends hsteps, hall ?_⟩
    rw [hlike.ledgers, ← hledger]
  · exact ensures_throw (hlike.resetEnds h)

/-- What holds of the work holds of it under the lock. -/
theorem withMigrationLock_spec {α : Type} {work : MigrateM α} {P Q : MigrationDb → Prop} (hstart : P s)
    (hP : ∀ {s₁ s₂}, P s₁ → Like s₁ s₂ → P s₂) (hQ : ∀ {s₁ s₂}, Q s₁ → Like s₁ s₂ → Q s₂)
    (hwork : ∀ s₁, Like s s₁ → Ensures work s₁ (fun _ s' => P s' ∧ Q s') P) :
    Ensures (withMigrationLock work) s (fun _ s' => P s' ∧ Q s') P := by
  refine Ensures.afterLike (act_like s) (fun _ => hP hstart) fun _ s₁ hlike => ?_
  have hend := hwork s₁ hlike
  unfold Ensures at hend ⊢
  rcases hx : work s₁ with ⟨outcome, s₂⟩
  rw [hx] at hend
  have hrelease := act_like s₂
  unfold Ensures at hrelease
  rcases hy : act s₂ with ⟨released, s₃⟩
  rw [hy] at hrelease
  replace hrelease : Like s₂ s₃ := by rcases released with _ | _ <;> exact hrelease
  simp only [hx, hy]
  rcases outcome with e | result
  · exact hP hend hrelease
  · rcases released with e | _
    · exact hP hend.1 hrelease
    · exact ⟨hP hend.1 hrelease, hQ hend.2 hrelease⟩

/-- A call: the connection is looked up, and the work runs under the lock. -/
theorem call_spec {α : Type} {work : MigrateM α} {P Q : MigrationDb → Prop} (hstart : P s)
    (hP : ∀ {s₁ s₂}, P s₁ → Like s₁ s₂ → P s₂) (hQ : ∀ {s₁ s₂}, Q s₁ → Like s₁ s₂ → Q s₂)
    (hwork : ∀ s₁, Like s s₁ → Ensures work s₁ (fun _ s' => P s' ∧ Q s') P) :
    Ensures (do act; withMigrationLock work) s (fun _ s' => P s' ∧ Q s') P :=
  Ensures.afterLike (act_like s) (fun _ => hP hstart) fun _ _ hlike =>
    withMigrationLock_spec (hP hstart hlike) hP hQ fun s₂ hlike' => hwork s₂ (hlike.trans hlike')

/-- A call that keeps a property of the state. -/
theorem call_keeps {α : Type} {work : MigrateM α} {P : MigrationDb → Prop} (hstart : P s)
    (hP : ∀ {s₁ s₂}, P s₁ → Like s₁ s₂ → P s₂) (hwork : ∀ s₁, Like s s₁ → Ensures work s₁ (fun _ => P) P) :
    P ((do act; withMigrationLock work : MigrateM α) s).2 := by
  have hspec := call_spec (Q := fun _ => True) hstart hP (fun _ _ => trivial)
    fun s₁ hlike => (hwork s₁ hlike).mono (fun _ _ h => ⟨h, trivial⟩) fun _ h => h
  exact (hspec.mono (fun _ _ h => h.1) fun _ h => h).state

theorem runSqlMigration_mirrors (h : Mirrors s) (table version : String) (apply : Bool) :
    Mirrors (runSqlMigration table version apply s).2 := by
  have hwork : ∀ s₁, Like s s₁ → Ensures (do
      Ledger.ensure
      let recorded := version ∈ (← Ledger.keys table)
      if decide recorded = apply then return false
      else
        inDdlScope false do
          statements table version apply
          if apply then Ledger.record table version else Ledger.remove table version
        return true) s₁ (fun _ s' => Mirrors s' ∧ True) Mirrors := by
    intro s₁ hlike₁
    have h₁ := h.like hlike₁
    refine Ensures.afterLike (act_like s₁) (fun _ => h₁.like) fun _ s₂ hlike₂ => ?_
    have h₂ := h₁.like hlike₂
    refine Ensures.bind ((keys_spec table s₂).mono (fun keys s₃ ⟨hkeys, hlike₃⟩ => ?_) fun _ => h₂.like)
    have h₃ := h₂.like hlike₃
    dsimp only
    by_cases hrecorded : decide (version ∈ keys) = apply
    · rw [if_pos hrecorded]
      exact ensures_pure ⟨h₃, trivial⟩
    · rw [if_neg hrecorded]
      have hfresh : apply = true → version ∉ s₃.ledgers table := by
        rintro rfl hmem
        rw [hlike₃.ledgers, ← hkeys] at hmem
        exact hrecorded (decide_eq_true hmem)
      refine Ensures.bind ((inDdlScope_spec false (work_spec table version apply) h₃.ddl).mono
        (fun _ s₄ hdone => ensures_pure ⟨h₃.done hfresh hdone, trivial⟩) fun _ hend => ?_)
      exact hend.elim (h₃.done hfresh) (h₃.undone hfresh)
  have hspec : Ensures (runSqlMigration table version apply) s (fun _ => Mirrors) Mirrors :=
    Ensures.afterLike (checkedLedger_like table s) (fun _ => h.like) fun _ s₁ hlike =>
      (withMigrationLock_spec (h.like hlike) Mirrors.like (fun _ _ => trivial)
        fun s₂ hlike' => hwork s₂ (hlike.trans hlike')).mono (fun _ _ hend => hend.1) fun _ hend => hend
  exact hspec.state

end Calls

section Runs

variable {s : MigrationDb}

theorem Mirrors.faults (h : Mirrors s) (faults : List (Option Error)) : Mirrors { s with faults } :=
  h.like ⟨rfl, rfl, rfl⟩

theorem refresh_mirrors {m : Migrator} (h : Mirrors s) (hdistinct : m.registeredVersions.Nodup) :
    Mirrors (m.refresh s).2 := by
  refine call_keeps h Mirrors.like fun s₁ hlike => ?_
  refine Ensures.bind ((resetLocked_spec (h.like hlike)).mono (fun _ s₂ hreset => ?_) fun _ hreset => hreset.mirrors)
  exact Ensures.bind ((runLocked_spec hreset.1.mirrors hdistinct).mono (fun _ _ hrun => ensures_pure hrun) fun _ hrun => hrun)

theorem rollback_ends (m : Migrator) (h : Mirrors s) :
    Mirrors (m.rollback s).2 ∧ RevertsLast m.table s (m.rollback s).2 := by
  refine call_keeps (P := fun s' => Mirrors s' ∧ RevertsLast m.table s s') ⟨h, (Like.refl s).revertsLast⟩
    (fun hend hlike => ⟨hend.1.like hlike, hend.2.like hlike⟩) fun s₁ hlike => ?_
  have hends {s' : MigrationDb} (hback : RolledBack m.table s₁ s') : Mirrors s' ∧ RevertsLast m.table s s' := by
    refine ⟨hback.mirrors (h.like hlike), ?_⟩
    have hlast := hback.revertsLast (h.like hlike)
    unfold RevertsLast at hlast
    rwa [hlike.ledgers, hlike.log] at hlast
  refine (rollbackLocked_spec (h.like hlike)).mono (fun _ s₂ hstep => ?_) fun _ => hends
  rcases hstep with ⟨_, _, hlike'⟩ | ⟨rest, version, _, hlast, hdone⟩
  · exact hends (.unchanged hlike')
  · exact hends (.reverted rest version hlast hdone)

theorem rollbackSteps_ends (m : Migrator) (steps : ℕ) (h : Mirrors s) :
    RolledBackSteps m.table s (m.rollbackSteps steps s).2 := by
  unfold Migrator.rollbackSteps
  split_ifs
  · exact (Like.refl s).rolledBackSteps h
  · refine call_keeps ((Like.refl s).rolledBackSteps h)
      (fun hend hlike => hend.trans (hlike.rolledBackSteps hend.mirrors)) fun s₁ hlike => ?_
    have hstart : RolledBackSteps m.table s s₁ := hlike.rolledBackSteps h
    exact (rollbackStepsLocked_spec steps {} hstart.mirrors).mono (fun _ _ hend => hstart.trans hend.1)
      fun _ => hstart.trans

theorem reset_spec (m : Migrator) (h : Mirrors s) :
    Ensures m.reset s (fun _ s' => ResetEnds m s s' ∧ s'.ledgers m.table = []) (ResetEnds m s) := by
  refine call_spec ((Like.refl s).resetEnds h) ResetEnds.like (fun hempty hlike => by rw [hlike.ledgers, hempty])
    fun s₁ hlike => ?_
  exact (resetLocked_spec (h.like hlike)).mono (fun _ _ hend => ⟨hlike.resets h hend.1, hend.2⟩) fun _ => hlike.resets h

theorem reset_ends (m : Migrator) (h : Mirrors s) : ResetEnds m s (m.reset s).2 :=
  ((reset_spec m h).mono (fun _ _ hend => hend.1) fun _ hend => hend).state

theorem step_mirrors (h : Mirrors s) (call : MigrationCall × List (Option Error)) (hdistinct : call.1.Distinct) :
    Mirrors (s.step call) := by
  obtain ⟨call, faults⟩ := call
  have h' := h.faults faults
  cases call with
  | run m => exact call_keeps h' Mirrors.like fun s₁ hlike => runLocked_spec (h'.like hlike) hdistinct
  | rollback m => exact (rollback_ends m h').1
  | rollbackSteps m steps => exact (rollbackSteps_ends m steps h').mirrors
  | reset m => exact (reset_ends m h').mirrors
  | refresh m => exact refresh_mirrors h' hdistinct
  | runSqlMigration table version apply => exact runSqlMigration_mirrors h' table version apply

theorem run_mirrors (calls : List (MigrationCall × List (Option Error))) :
    ∀ {s : MigrationDb}, Mirrors s → (∀ call ∈ calls, call.1.Distinct) → Mirrors (s.run calls) := by
  induction calls with
  | nil => exact fun h _ => h
  | cons call calls ih =>
    exact fun h hdistinct => ih (step_mirrors h call (hdistinct call List.mem_cons_self))
      fun call' hmem => hdistinct call' (List.mem_cons_of_mem _ hmem)

theorem new_mirrors {backend : DatabaseType} (hddl : supportsTransactionalDdl backend = true) :
    Mirrors (MigrationDb.new backend) := by
  refine ⟨hddl, fun _ => rfl, fun _ => List.nodup_nil, fun before attempt after hsplit => ?_⟩
  simp [MigrationDb.new] at hsplit

/-- After every call each ledger lists the versions whose up is committed and not reverted
since, in order. No up ran for a listed version, a rollback reverts the last one or nothing,
and a reset empties the ledger, or changes nothing where an entry is not registered. -/
theorem ledger_mirrors_schema (backend : DatabaseType) (hddl : supportsTransactionalDdl backend = true)
    (calls : List (MigrationCall × List (Option Error))) (hdistinct : ∀ call ∈ calls, call.1.Distinct) :
    let s := (MigrationDb.new backend).run calls
    (∀ table, s.ledgers table = liveVersions table s.log) ∧
    (∀ before attempt after, s.log = before ++ attempt :: after → attempt.apply = true →
      attempt.version ∉ liveVersions attempt.table before) ∧
    (∀ m faults, RevertsLast m.table s (s.step (.rollback m, faults))) ∧
    (∀ m steps faults, Relation.ReflTransGen (RevertsLast m.table) s (s.step (.rollbackSteps m steps, faults))) ∧
    (∀ m faults, Relation.ReflTransGen (RevertsLast m.table) s (s.step (.reset m, faults))) ∧
    (∀ m faults result, (m.reset { s with faults }).1 = .ok result →
      (s.step (.reset m, faults)).ledgers m.table = []) ∧
    (∀ m faults, (∃ version ∈ s.ledgers m.table, version ∉ m.registeredVersions) →
      (s.step (.reset m, faults)).ledgers = s.ledgers ∧ (s.step (.reset m, faults)).log = s.log) := by
  intro s
  have h : Mirrors s := run_mirrors calls (new_mirrors hddl) hdistinct
  refine ⟨h.ledgers, h.fresh, fun m faults => ?_, fun m steps faults => ?_, fun m faults => ?_, fun m faults result hok => ?_,
    fun m faults hunknown => ?_⟩
  · exact (rollback_ends m (h.faults faults)).2
  · have hstart : RevertsLast m.table s { s with faults } := Like.revertsLast ⟨rfl, rfl, rfl⟩
    exact (rollbackSteps_ends m steps (h.faults faults)).steps.head hstart
  · have hstart : RevertsLast m.table s { s with faults } := Like.revertsLast ⟨rfl, rfl, rfl⟩
    exact (reset_ends m (h.faults faults)).steps.head hstart
  · exact ((reset_spec m (h.faults faults)).of_ok hok).2
  · exact (reset_ends m (h.faults faults)).unknown hunknown

/-- Replicas with other migrations registered take turns; a failed up leaves no entry. -/
def replicaCalls : List (MigrationCall × List (Option Error)) :=
  [(.run ⟨[⟨"b", "", false⟩], "m"⟩, []), (.run ⟨[⟨"a", "", false⟩, ⟨"b", "", false⟩], "m"⟩, []),
   (.runSqlMigration "m" "c" true, [none, none, none, none, some (.query "")])]

theorem ledger_after_replicas :
    ((MigrationDb.new .sqlite).run replicaCalls).ledgers "m" = ["b", "a"] ∧
      liveVersions "m" ((MigrationDb.new .sqlite).run replicaCalls).log = ["b", "a"] := by
  have hdistinct : ∀ call ∈ replicaCalls, call.1.Distinct := by
    simp [replicaCalls, MigrationCall.Distinct, Migrator.registeredVersions]
  rw [← (ledger_mirrors_schema .sqlite rfl replicaCalls hdistinct).1 "m"]
  decide

end Runs

end TideOrm
