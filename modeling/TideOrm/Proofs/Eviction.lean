import TideOrm.Sanity.CacheStore

/-! Eviction order of the cache store. The indexes hold stale candidates, so the
invariant is one-sided: every live entry has its current candidate in each
index. A pop that skips stale candidates then finds the least live entry, and
finds one exactly when there is one. -/

namespace TideOrm

open Lib

section Index

variable {P : Type} [LinearOrder P]

/-- Every live entry has its current candidate in `heap`. -/
def Indexed (heap : MinHeap (Candidate P)) (entries : HashMap String CacheEntry)
    (priorityOf : CacheEntry → P) : Prop :=
  ∀ key entry, entries.lookup key = some entry → (⟨priorityOf entry, key⟩ : Candidate P) ∈ heap

variable {heap heap' : MinHeap (Candidate P)} {entries entries' : HashMap String CacheEntry}
  {priorityOf : CacheEntry → P} {key : String} {entry : CacheEntry}

theorem indexed_indexOf (entries : HashMap String CacheEntry) (priorityOf : CacheEntry → P) :
    Indexed (CacheStore.indexOf entries priorityOf) entries priorityOf := by
  intro key entry h
  rw [CacheStore.indexOf, MinHeap.mem_ofList]
  exact List.mem_map.2 ⟨⟨key, entry⟩, AList.mem_entries_iff.2 h, rfl⟩

theorem Indexed.push (h : Indexed heap entries priorityOf) (key : String) (entry : CacheEntry) :
    Indexed (heap.push ⟨priorityOf entry, key⟩) (entries.insert key entry) priorityOf := by
  intro k e hk
  rw [AList.lookup_insert_cases] at hk
  rw [MinHeap.mem_push]
  split_ifs at hk with hkey
  · cases hk
    exact Or.inl (by rw [hkey])
  · exact Or.inr (h k e hk)

theorem Indexed.mono (h : Indexed heap entries priorityOf)
    (hsub : ∀ k e, entries'.lookup k = some e → entries.lookup k = some e) :
    Indexed heap entries' priorityOf :=
  fun k e hk => h k e (hsub k e hk)

/-- Changing an entry without moving its priority needs no new candidate. -/
theorem Indexed.update (h : Indexed heap entries priorityOf) {old : CacheEntry}
    (hold : entries.lookup key = some old) (hp : priorityOf entry = priorityOf old) :
    Indexed heap (entries.insert key entry) priorityOf := by
  intro k e hk
  rw [AList.lookup_insert_cases] at hk
  split_ifs at hk with hkey
  · cases hk
    subst hkey
    rw [hp]
    exact h k old hold
  · exact h k e hk

theorem erase_sub (entries : HashMap String CacheEntry) (key : String) :
    ∀ k e, (entries.erase key).lookup k = some e → entries.lookup k = some e := by
  intro k e h
  rw [AList.lookup_erase_cases] at h
  split_ifs at h
  exact h

theorem popCurrent_none (h : Indexed heap entries priorityOf)
    (hp : (popCurrent heap entries priorityOf).1 = none) (key : String) : entries.lookup key = none := by
  have hnone := Option.map_eq_none_iff.1 hp
  have hstale := MinHeap.popUntil_none (Prod.ext hnone rfl)
  rcases hlook : entries.lookup key with _ | entry
  · rfl
  · have := hstale _ (h key entry hlook)
    simp [hlook] at this

/-- What a pop finds: a live entry, least among the live ones by priority and
then key, and the index left behind still serves every other entry. -/
theorem popCurrent_some (h : Indexed heap entries priorityOf)
    (hp : (popCurrent heap entries priorityOf).1 = some key) :
    ∃ entry, entries.lookup key = some entry ∧
      (∀ k e, entries.lookup k = some e → k ≠ key →
        (⟨priorityOf entry, key⟩ : Candidate P) < ⟨priorityOf e, k⟩) ∧
      Indexed (popCurrent heap entries priorityOf).2 (entries.erase key) priorityOf := by
  obtain ⟨candidate, hc, hkey⟩ := Option.map_eq_some_iff.1 hp
  obtain ⟨-, hcur, hleast, hkeep, -⟩ := MinHeap.popUntil_some (Prod.ext hc rfl)
  obtain ⟨entry, hentry, hprio⟩ := (Option.any_eq_true _ _).1 hcur
  have hcand : candidate = ⟨priorityOf entry, key⟩ := by
    rw [← hkey, beq_iff_eq.1 hprio]
  have hlive : ∀ k e, entries.lookup k = some e →
      ((entries.lookup k).any fun e' => priorityOf e' == priorityOf e) = true := by
    intro k e hk
    simp [hk]
  refine ⟨entry, by rw [← hkey]; exact hentry, ?_, ?_⟩
  · intro k e hk hne
    refine lt_of_le_of_ne (hcand ▸ hleast _ (h k e hk) (hlive k e hk)) ?_
    intro heq
    exact hne (congrArg Candidate.key heq).symm
  · intro k e hk
    have hk' := erase_sub entries key k e hk
    rcases hkeep _ (h k e hk') (hlive k e hk') with heq | hmem
    · have hkk : k = key := by rw [← hkey, ← heq]
      rw [hkk, AList.lookup_erase] at hk
      cases hk
    · exact hmem

end Index

/-- The store's invariant: each index serves every live entry, and `sizeBytes`
is their total size. -/
structure CacheStore.Indexes (s : CacheStore) : Prop where
  lru : Indexed s.lruHeap s.entries CacheEntry.lruPriority
  fifo : Indexed s.fifoHeap s.entries CacheEntry.fifoPriority
  ttl : Indexed s.ttlHeap s.entries CacheEntry.ttlPriority
  size : s.sizeBytes = s.entries.total fun entry => entry.data.length

namespace CacheStore

theorem indexes_default : CacheStore.default.Indexes where
  lru _ _ h := by cases h
  fifo _ _ h := by cases h
  ttl _ _ h := by cases h
  size := rfl

theorem Indexes.maybeRebuildIndexes {s : CacheStore} (h : s.Indexes) :
    s.maybeRebuildIndexes.Indexes := by
  rcases maybeRebuildIndexes_cases s with hr | hr <;> rw [hr]
  · exact ⟨indexed_indexOf _ _, indexed_indexOf _ _, indexed_indexOf _ _, h.size⟩
  · exact h

theorem Indexes.insert {s : CacheStore} (h : s.Indexes) (key : String) (entry : CacheEntry) :
    (s.insert key entry).Indexes := by
  apply Indexes.maybeRebuildIndexes
  refine ⟨h.lru.push key entry, h.fifo.push key entry, h.ttl.push key entry, ?_⟩
  have hins := AList.total_insert s.entries (fun e => e.data.length) key entry
  rcases hlook : s.entries.lookup key with _ | previous
  · rw [AList.erase_of_lookup_none hlook] at hins
    simp only [hins, h.size]
    omega
  · have herase := AList.total_erase (fun e => e.data.length) hlook
    simp only [hins, h.size]
    omega

/-- Taking `key` out keeps the invariant; the indexes may already have lost
`key`'s own candidates. -/
theorem indexes_erase {s : CacheStore} {key : String} {removed : CacheEntry}
    (hlook : s.entries.lookup key = some removed)
    (hlru : Indexed s.lruHeap (s.entries.erase key) CacheEntry.lruPriority)
    (hfifo : Indexed s.fifoHeap (s.entries.erase key) CacheEntry.fifoPriority)
    (httl : Indexed s.ttlHeap (s.entries.erase key) CacheEntry.ttlPriority)
    (hsize : s.sizeBytes = s.entries.total fun entry => entry.data.length) :
    (s.remove key).2.Indexes := by
  unfold remove
  rw [hlook]
  apply Indexes.maybeRebuildIndexes
  have herase := AList.total_erase (fun e => e.data.length) hlook
  refine ⟨hlru, hfifo, httl, ?_⟩
  simp only [hsize]
  omega

theorem Indexes.remove {s : CacheStore} (h : s.Indexes) (key : String) : (s.remove key).2.Indexes := by
  rcases hlook : s.entries.lookup key with _ | removed
  · unfold CacheStore.remove
    rw [hlook]
    exact h
  · have hsub := erase_sub s.entries key
    exact indexes_erase hlook (h.lru.mono hsub) (h.fifo.mono hsub) (h.ttl.mono hsub) h.size

theorem Indexes.removeWhere {s : CacheStore} (h : s.Indexes) (predicate : CacheEntry → Bool) :
    (s.removeWhere predicate).2.Indexes := by
  have hsub : ∀ k e, (s.entries.retain fun _ entry => !predicate entry).lookup k = some e →
      s.entries.lookup k = some e := fun k e hk => ((AList.lookup_retain _ _ k e).1 hk).1
  have hkept : CacheStore.Indexes
      { s with
        entries := s.entries.retain fun _ entry => !predicate entry
        sizeBytes := s.sizeBytes -
          (s.entries.retain fun _ entry => predicate entry).total fun entry => entry.data.length } := by
    refine ⟨h.lru.mono hsub, h.fifo.mono hsub, h.ttl.mono hsub, ?_⟩
    have htotal := AList.total_retain s.entries (fun e => e.data.length) fun _ e => predicate e
    simp only [h.size]
    omega
  unfold CacheStore.removeWhere
  dsimp only
  split_ifs
  · exact hkept.maybeRebuildIndexes
  · exact hkept

theorem indexes_clear (s : CacheStore) : s.clear.2.Indexes where
  lru _ _ h := by cases h
  fifo _ _ h := by cases h
  ttl _ _ h := by cases h
  size := rfl

theorem Indexes.touch {s : CacheStore} (h : s.Indexes) (key : String) (accessOrder : ℕ) :
    (s.touch key accessOrder).2.Indexes := by
  unfold CacheStore.touch
  rcases hlook : s.entries.lookup key with _ | entry
  · exact h
  · apply Indexes.maybeRebuildIndexes
    refine ⟨h.lru.push key { entry with accessOrder := accessOrder }, h.fifo.update hlook rfl,
      h.ttl.update hlook rfl, ?_⟩
    have hins := AList.total_insert s.entries (fun e => e.data.length) key
      { entry with accessOrder := accessOrder }
    have herase := AList.total_erase (fun e => e.data.length) hlook
    simp only [hins, h.size]
    omega

/-- `a` is evicted before `b`: by the strategy's priority, then by key. -/
def Precedes (strategy : CacheStrategy) (a b : String × CacheEntry) : Prop :=
  match strategy with
  | .lru => (⟨a.2.lruPriority, a.1⟩ : Candidate ℕ) < ⟨b.2.lruPriority, b.1⟩
  | .fifo => (⟨a.2.fifoPriority, a.1⟩ : Candidate ℕ) < ⟨b.2.fifoPriority, b.1⟩
  | .ttl => (⟨a.2.ttlPriority, a.1⟩ : Candidate (ℕ ×ₗ ℕ)) < ⟨b.2.ttlPriority, b.1⟩

theorem Indexes.popStrategy_none {s : CacheStore} (h : s.Indexes) (strategy : CacheStrategy)
    (hp : (s.popStrategy strategy).1 = none) (key : String) : s.entries.lookup key = none := by
  cases strategy with
  | lru => exact popCurrent_none h.lru hp key
  | fifo => exact popCurrent_none h.fifo hp key
  | ttl => exact popCurrent_none h.ttl hp key

theorem Indexes.popStrategy_some {s : CacheStore} (h : s.Indexes) (strategy : CacheStrategy)
    {key : String} (hp : (s.popStrategy strategy).1 = some key) :
    ∃ entry, s.entries.lookup key = some entry ∧
      (∀ k e, s.entries.lookup k = some e → k ≠ key → Precedes strategy (key, entry) (k, e)) ∧
      ((s.popStrategy strategy).2.remove key).2.Indexes := by
  have hsub := erase_sub s.entries key
  cases strategy with
  | lru =>
    obtain ⟨entry, hlook, hleast, hidx⟩ := popCurrent_some h.lru hp
    exact ⟨entry, hlook, hleast,
      indexes_erase hlook hidx (h.fifo.mono hsub) (h.ttl.mono hsub) h.size⟩
  | fifo =>
    obtain ⟨entry, hlook, hleast, hidx⟩ := popCurrent_some h.fifo hp
    exact ⟨entry, hlook, hleast,
      indexes_erase hlook (h.lru.mono hsub) hidx (h.ttl.mono hsub) h.size⟩
  | ttl =>
    obtain ⟨entry, hlook, hleast, hidx⟩ := popCurrent_some h.ttl hp
    exact ⟨entry, hlook, hleast,
      indexes_erase hlook (h.lru.mono hsub) (h.fifo.mono hsub) hidx h.size⟩

/-- Eviction empties nothing else: it takes the first entry of the strategy's
order, and returns none exactly when nothing is stored. -/
theorem Indexes.evict_spec {s : CacheStore} (h : s.Indexes) (strategy : CacheStrategy) :
    (s.evict strategy).2.Indexes ∧
      (((s.evict strategy).1 = none ∧ s.len = 0 ∧ (s.evict strategy).2.entries = s.entries) ∨
        ∃ key entry, s.get key = some entry ∧ (s.evict strategy).1 = some entry ∧
          (s.evict strategy).2.entries = s.entries.erase key ∧
          ∀ k e, s.get k = some e → k ≠ key → Precedes strategy (key, entry) (k, e)) := by
  have hent := popStrategy_entries s strategy
  unfold CacheStore.evict
  rcases hp : s.popStrategy strategy with ⟨_ | key, s'⟩
  · have hnone := h.popStrategy_none strategy (by rw [hp])
    rw [hp] at hent
    have hempty : s.len = 0 := by
      by_contra hne
      obtain ⟨k, e, hk⟩ := AList.len_pos_iff.1 (Nat.pos_of_ne_zero hne)
      rw [hnone k] at hk
      cases hk
    refine ⟨?_, Or.inl ⟨rfl, hempty, hent⟩⟩
    have hall : ∀ k e, s'.entries.lookup k = some e → False := by
      intro k e hk
      rw [hent, hnone k] at hk
      cases hk
    have hsize : s'.sizeBytes = s.sizeBytes := by
      have : (s.popStrategy strategy).2.sizeBytes = s.sizeBytes := by cases strategy <;> rfl
      rw [← this, hp]
    exact ⟨fun k e hk => (hall k e hk).elim, fun k e hk => (hall k e hk).elim,
      fun k e hk => (hall k e hk).elim, by rw [hsize, hent]; exact h.size⟩
  · obtain ⟨entry, hlook, hleast, hidx⟩ := h.popStrategy_some strategy (by rw [hp])
    rw [hp] at hent hidx
    obtain ⟨hret, herase⟩ := remove_entries s' key
    rw [hent] at hret herase
    exact ⟨hidx, Or.inr ⟨key, entry, hlook, hret.trans hlook, herase, hleast⟩⟩

theorem Indexes.apply {s : CacheStore} (h : s.Indexes) (op : StoreOp) : (op.apply s).Indexes := by
  cases op with
  | insert key entry => exact h.insert key entry
  | touch key accessOrder => exact h.touch key accessOrder
  | remove key => exact h.remove key
  | removeWhere predicate => exact h.removeWhere predicate
  | clear => exact indexes_clear s
  | evict strategy => exact (h.evict_spec strategy).1

theorem Indexes.run {s : CacheStore} (h : s.Indexes) (ops : List StoreOp) : (s.run ops).Indexes := by
  unfold CacheStore.run
  induction ops generalizing s with
  | nil => exact h
  | cons op rest ih => exact ih (h.apply op)

/-- After any run from the empty store, whatever stale candidates it left: the
indexes serve every live entry, the size is right, and eviction takes the one
entry that comes first, whenever there is an entry to take. -/
theorem evict_least_of_run (ops : List StoreOp) (strategy : CacheStrategy) :
    let s := CacheStore.default.run ops
    (∀ key entry, s.get key = some entry →
      (⟨entry.lruPriority, key⟩ : Candidate ℕ) ∈ s.lruHeap ∧
        (⟨entry.fifoPriority, key⟩ : Candidate ℕ) ∈ s.fifoHeap ∧
        (⟨entry.ttlPriority, key⟩ : Candidate (ℕ ×ₗ ℕ)) ∈ s.ttlHeap) ∧
      s.sizeBytes = (s.entries.total fun entry => entry.data.length) ∧
      ((s.evict strategy).1.isSome ↔ 0 < s.len) ∧
      ((s.evict strategy).1 = none → (s.evict strategy).2.entries = s.entries) ∧
      ∀ entry, (s.evict strategy).1 = some entry →
        ∃ key, s.get key = some entry ∧ (s.evict strategy).2.entries = s.entries.erase key ∧
          ∀ k e, s.get k = some e → k ≠ key → Precedes strategy (key, entry) (k, e) := by
  intro s
  have h : s.Indexes := indexes_default.run ops
  refine ⟨fun key entry hk => ⟨h.lru key entry hk, h.fifo key entry hk, h.ttl key entry hk⟩,
    h.size, ?_⟩
  rcases (h.evict_spec strategy).2 with ⟨hnone, hlen, hent⟩ | ⟨key, entry, hget, hsome, herase, hleast⟩
  · refine ⟨by simp [hnone, hlen], fun _ => hent, ?_⟩
    intro entry hentry
    rw [hnone] at hentry
    cases hentry
  · have hpos : 0 < s.len := AList.len_pos_iff.2 ⟨key, entry, hget⟩
    refine ⟨by simp [hsome, hpos], by simp [hsome], ?_⟩
    intro entry' hentry'
    obtain rfl : entry = entry' := Option.some.inj (hsome.symm.trans hentry')
    exact ⟨key, hget, herase, hleast⟩

end CacheStore

end TideOrm
