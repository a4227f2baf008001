import TideOrm.Sanity.QueryCache

/-! A read that an invalidation overtook is never stored. The guard of a fill
compares the generation the read started at with the last invalidation of each
of its tables, of its database, and of the whole cache. Forgetting old history
raises the last of these, so a guard that is up stays up along every run. -/

namespace TideOrm

open Lib

namespace CacheStore

theorem any_lt_iff (m : HashMap String ℕ) (name : String) (seq : ℕ) :
    ((m.lookup name).any fun at_ => decide (seq < at_)) = true ↔
      ∃ at_, m.lookup name = some at_ ∧ seq < at_ := by
  simp [Option.any_eq_true]

/-- Whether the point's database was invalidated after it; a point without one
counts every database's invalidations. -/
def DatabaseInvalidated (s : CacheStore) (point : FillPoint) : Prop :=
  match point.database with
  | some database => ∃ at_, s.invalidatedDatabases.lookup database = some at_ ∧ point.sequence < at_
  | none => point.sequence < s.unscopedInvalidatedAt

theorem invalidatedSince_iff (s : CacheStore) (point : FillPoint) (tables : Finset String) :
    s.invalidatedSince point tables = true ↔
      point.sequence < s.clearedAt ∨ s.DatabaseInvalidated point ∨
        ∃ table ∈ tables, ∃ at_, s.invalidatedAt.lookup table = some at_ ∧ point.sequence < at_ := by
  unfold invalidatedSince DatabaseInvalidated
  obtain ⟨seq, _ | database⟩ := point
  · simp only [Bool.or_eq_true, decide_eq_true_eq, any_lt_iff, or_assoc]
  · simp only [Bool.or_eq_true, decide_eq_true_eq, any_lt_iff, or_assoc]

/-- The generation only grows, and a guard that is up stays up. -/
structure Advances (s s' : CacheStore) : Prop where
  seq : s.invalidationSeq ≤ s'.invalidationSeq
  guard : ∀ point tables, point.sequence ≤ s.invalidationSeq →
    s.invalidatedSince point tables = true → s'.invalidatedSince point tables = true

theorem Advances.trans {a b c : CacheStore} (h1 : Advances a b) (h2 : Advances b c) : Advances a c :=
  ⟨h1.seq.trans h2.seq, fun point tables hp h =>
    h2.guard point tables (hp.trans h1.seq) (h1.guard point tables hp h)⟩

theorem SameHistory.advances {s s' : CacheStore} (h : SameHistory s s') : Advances s s' := by
  refine ⟨h.invalidationSeq.ge, fun point tables _ hs => ?_⟩
  rw [invalidatedSince_iff] at hs ⊢
  unfold DatabaseInvalidated at hs ⊢
  rw [h.invalidatedAt, h.invalidatedDatabases, h.unscopedInvalidatedAt, h.clearedAt]
  exact hs

theorem Advances.refl (s : CacheStore) : Advances s s := (SameHistory.refl s).advances

/-- Stamping a name with a generation past `seq` keeps every stamp past it. -/
theorem lookup_insert_past {m : HashMap String ℕ} {name : String} {seq next : ℕ} (hn : seq < next)
    (stamped : String) (h : ∃ at_, m.lookup name = some at_ ∧ seq < at_) :
    ∃ at_, (m.insert stamped next).lookup name = some at_ ∧ seq < at_ := by
  obtain ⟨at_, hlook, hlt⟩ := h
  rw [AList.lookup_insert_cases]
  split_ifs
  · exact ⟨next, rfl, hn⟩
  · exact ⟨at_, hlook, hlt⟩

theorem advances_noteInvalidated (s : CacheStore) (table : String) :
    Advances s (s.noteInvalidated table) := by
  refine ⟨Nat.le_succ _, fun point tables hp h => ?_⟩
  have hnext : point.sequence < s.invalidationSeq + 1 := by omega
  rw [invalidatedSince_iff] at h ⊢
  unfold noteInvalidated
  by_cases hc : invalidationHistoryLimit ≤ s.invalidatedAt.len ∧ table ∉ s.invalidatedAt
  · simp only [hc, not_false_eq_true, and_self, decide_true, if_true]
    exact Or.inl hnext
  · simp only [hc, decide_false, Bool.false_eq_true, if_false]
    rcases h with h | h | ⟨t, ht, h⟩
    · exact Or.inl h
    · exact Or.inr (Or.inl h)
    · exact Or.inr (Or.inr ⟨t, ht, lookup_insert_past hnext table h⟩)

theorem advances_noteDatabaseInvalidated (s : CacheStore) (database : String) :
    Advances s (s.noteDatabaseInvalidated database) := by
  refine ⟨Nat.le_succ _, fun point tables hp h => ?_⟩
  have hnext : point.sequence < s.invalidationSeq + 1 := by omega
  rw [invalidatedSince_iff] at h ⊢
  unfold noteDatabaseInvalidated
  by_cases hc : invalidationHistoryLimit ≤ s.invalidatedDatabases.len ∧ database ∉ s.invalidatedDatabases
  · simp only [hc, not_false_eq_true, and_self, decide_true, if_true]
    exact Or.inl hnext
  · simp only [hc, decide_false, Bool.false_eq_true, if_false]
    rcases h with h | h | h
    · exact Or.inl h
    · right; left
      obtain ⟨seq, _ | db⟩ := point
      · exact hnext
      · exact lookup_insert_past hnext database h
    · exact Or.inr (Or.inr h)

theorem guard_noteInvalidated (s : CacheStore) (point : FillPoint) (tables : Finset String)
    (table : String) (ht : table ∈ tables) (hp : point.sequence ≤ s.invalidationSeq) :
    (s.noteInvalidated table).invalidatedSince point tables = true := by
  rw [invalidatedSince_iff]
  refine Or.inr (Or.inr ⟨table, ht, s.invalidationSeq + 1, ?_, by omega⟩)
  exact AList.lookup_insert _

theorem guard_noteDatabaseInvalidated (s : CacheStore) (point : FillPoint) (tables : Finset String)
    (database : String) (hd : point.database = none ∨ point.database = some database)
    (hp : point.sequence ≤ s.invalidationSeq) :
    (s.noteDatabaseInvalidated database).invalidatedSince point tables = true := by
  rw [invalidatedSince_iff]
  right; left
  obtain ⟨seq, db⟩ := point
  rcases hd with hd | hd <;> simp only at hd <;> subst hd
  · exact Nat.lt_succ_of_le hp
  · exact ⟨s.invalidationSeq + 1, AList.lookup_insert _, Nat.lt_succ_of_le hp⟩

theorem guard_clear (s : CacheStore) (point : FillPoint) (tables : Finset String)
    (hp : point.sequence ≤ s.invalidationSeq) : s.clear.2.invalidatedSince point tables = true :=
  (invalidatedSince_iff _ _ _).2 (Or.inl (Nat.lt_succ_of_le hp))

theorem advances_clear (s : CacheStore) : Advances s s.clear.2 :=
  ⟨Nat.le_succ _, fun point tables hp _ => guard_clear s point tables hp⟩

end CacheStore

open CacheStore

theorem CacheStore.advances_step {s s' : CacheStore} (h : StoreStep s s') : Advances s s' := by
  cases h with
  | op op =>
    cases op with
    | insert key entry => exact (sameHistory_insert s key entry).advances
    | touch key accessOrder => exact (sameHistory_touch s key accessOrder).advances
    | remove key => exact (sameHistory_remove s key).advances
    | removeWhere predicate => exact (sameHistory_removeWhere s predicate).advances
    | clear => exact advances_clear s
    | evict strategy => exact (sameHistory_evict s strategy).advances
  | noteInvalidated table => exact advances_noteInvalidated s table
  | noteDatabaseInvalidated database => exact advances_noteDatabaseInvalidated s database

theorem CacheStore.advances_steps {s s' : CacheStore} (h : Steps s s') : Advances s s' := by
  induction h with
  | refl => exact Advances.refl s
  | tail _ hstep ih => exact ih.trans (advances_step hstep)

/-- Every operation of the cache advances its history. -/
theorem CacheOp.advances (now : Instant) (c : QueryCache) (op : CacheOp) :
    Advances c.cache (op.apply now c).cache := advances_steps (op.steps now c)

theorem QueryCache.advances_run (c : QueryCache) (ops : List (Instant × CacheOp)) :
    Advances c.cache (c.run ops).cache := advances_steps (c.steps_run ops)

/-- `op` invalidates a read of `tables` in `database`: it names one of the
tables, in any case, or the database, or clears everything. -/
def CacheOp.Invalidates (op : CacheOp) (database : Option String) (tables : List String) : Prop :=
  match op with
  | .invalidateModel modelName =>
    ∃ table ∈ tables, toAsciiLowercase table = toAsciiLowercase modelName
  | .invalidateDatabase db => database = none ∨ database = some db
  | .clear => True
  | _ => False

theorem CacheOp.guard_of_invalidates (now : Instant) (c : QueryCache) (op : CacheOp)
    (point : FillPoint) (tables : List String) (h : op.Invalidates point.database tables)
    (hp : point.sequence ≤ c.cache.invalidationSeq) :
    (op.apply now c).cache.invalidatedSince point (tables.map toAsciiLowercase).toFinset = true := by
  cases op with
  | invalidateModel modelName =>
    obtain ⟨table, ht, hlower⟩ := h
    have hmem : toAsciiLowercase modelName ∈ (tables.map toAsciiLowercase).toFinset := by
      rw [List.mem_toFinset, List.mem_map]
      exact ⟨table, ht, hlower⟩
    have hnote := advances_noteInvalidated c.cache (toAsciiLowercase modelName)
    exact (sameHistory_removeWhere _ _).advances.guard point _ (hp.trans hnote.seq)
      (guard_noteInvalidated c.cache point _ _ hmem hp)
  | invalidateDatabase database =>
    have hnote := advances_noteDatabaseInvalidated c.cache database
    exact (sameHistory_removeWhere _ _).advances.guard point _ (hp.trans hnote.seq)
      (guard_noteDatabaseInvalidated c.cache point _ database h hp)
  | clear => exact guard_clear c.cache point _ hp
  | _ => exact h.elim

/-- A fill whose guard is up changes nothing. -/
theorem QueryCache.fillTagged_of_guard (c : QueryCache) (now : Instant) (point : FillPoint)
    (key : String) (value : Serialized) (ttl : Option Duration) (tables : List String)
    (h : c.cache.invalidatedSince point (tables.map toAsciiLowercase).toFinset = true) :
    (c.fillTagged now point key value ttl tables).2 = c := by
  unfold fillTagged store
  split_ifs
  · rfl
  cases serializePayload value with
  | error e => rfl
  | ok data => simp only [Option.any_some, h, if_true]

theorem QueryCache.run_append (c : QueryCache) (ops ops' : List (Instant × CacheOp)) :
    c.run (ops ++ ops') = (c.run ops).run ops' :=
  List.foldl_append

/-- Stale-fill safety. In any run, a fill whose point was taken before an
invalidation of its database, of one of its tables, or a clear, leaves the
whole cache as it was. -/
theorem stale_fill_not_stored (config : CacheConfig) (before between : List (Instant × CacheOp))
    (database : Option String) (tables : List String)
    (hinv : ∃ op ∈ between, op.2.Invalidates database tables)
    (now : Instant) (key : String) (value : Serialized) (ttl : Option Duration) :
    let started := (QueryCache.withConfig config).run before
    let point := started.fillPointForDatabase database
    let c := started.run between
    (c.fillTagged now point key value ttl tables).2 = c := by
  intro started point c
  obtain ⟨op, hmem, hop⟩ := hinv
  obtain ⟨ops, ops', hsplit⟩ := List.append_of_mem hmem
  have hops := QueryCache.advances_run started ops
  have hguard := CacheOp.guard_of_invalidates op.1 (started.run ops) op.2 point tables hop hops.seq
  have hop' := CacheOp.advances op.1 (started.run ops) op.2
  have hrest := QueryCache.advances_run (op.2.apply op.1 (started.run ops)) ops'
  have hc : c = (op.2.apply op.1 (started.run ops)).run ops' := by
    rw [show c = started.run (ops ++ op :: ops') by rw [← hsplit], QueryCache.run_append]
    rfl
  apply QueryCache.fillTagged_of_guard
  rw [hc]
  exact hrest.guard point _ (hops.seq.trans hop'.seq) hguard

/-- A join of users read before a write to `Users`: the tag differs in case only,
and the entry it would have filled stays out. -/
theorem stale_fill_users :
    let started := QueryCache.withConfig { CacheConfig.default with enabled := true }
    let c := started.run [(0, .setEnabled true), (1, .invalidateModel "Users")]
    (c.fillTagged 2 (started.fillPointForDatabase (some "main")) "users:1"
      ⟨.ok [49], .ok ⟨false, false, false⟩⟩ none ["orders", "users"]).2 = c :=
  stale_fill_not_stored { CacheConfig.default with enabled := true } []
    [(0, .setEnabled true), (1, .invalidateModel "Users")] (some "main") ["orders", "users"]
    ⟨(1, .invalidateModel "Users"), by simp, "users", by simp, by decide⟩ 2 "users:1"
    ⟨.ok [49], .ok ⟨false, false, false⟩⟩ none

end TideOrm
