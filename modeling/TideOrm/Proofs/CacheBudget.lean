import TideOrm.Sanity.QueryCache
import TideOrm.Proofs.Eviction

/-! Every store leaves the cache within its budgets. An eviction fails only on an empty
store, so a loop that stops early has made all the room there is; and an entry that was
accepted fits into an empty store. -/

namespace TideOrm

open Lib

namespace CacheStore

theorem indexes_step {s s' : CacheStore} (hstep : StoreStep s s') (h : s.Indexes) : s'.Indexes := by
  cases hstep with
  | op op => exact h.apply op
  | noteInvalidated table => exact ⟨h.lru, h.fifo, h.ttl, h.size⟩
  | noteDatabaseInvalidated database => exact ⟨h.lru, h.fifo, h.ttl, h.size⟩

theorem indexes_steps {s s' : CacheStore} (hsteps : Steps s s') (h : s.Indexes) : s'.Indexes := by
  induction hsteps with
  | refl => exact h
  | tail _ hstep ih => exact indexes_step hstep ih

/-- The bytes stored. -/
def payloadBytes (s : CacheStore) : ℕ := s.entries.total fun entry => entry.data.length

/-- What evictions leave of a store. -/
structure Shrunk (s s' : CacheStore) : Prop where
  entries : ∀ key, s'.get key = none ∨ s'.get key = s.get key
  len : s'.len ≤ s.len

theorem Shrunk.trans {a b c : CacheStore} (h : Shrunk a b) (h' : Shrunk b c) : Shrunk a c := by
  refine ⟨fun key => ?_, h'.len.trans h.len⟩
  rcases h'.entries key with hnone | hsame
  · exact Or.inl hnone
  · rw [hsame]
    exact h.entries key

theorem shrunk_evict {s : CacheStore} (h : s.Indexes) (strategy : CacheStrategy) : Shrunk s (s.evict strategy).2 := by
  rcases (h.evict_spec strategy).2 with ⟨-, -, hentries⟩ | ⟨key, entry, -, -, hentries, -⟩
  · exact ⟨fun other => Or.inr (by rw [get, get, hentries]), by rw [CacheStore.len, CacheStore.len, hentries]⟩
  · refine ⟨fun other => ?_, ?_⟩
    · rw [get, get, hentries, AList.lookup_erase_cases]
      split_ifs
      · exact Or.inl rfl
      · exact Or.inr rfl
    · rw [CacheStore.len, CacheStore.len, hentries]
      exact AList.len_erase_le _ _

end CacheStore

namespace QueryCache

open CacheStore

/-- A loop of evictions ends with room made or nothing left to evict, after at most as many
evictions as there were entries. -/
theorem makeRoom_spec (strategy : CacheStrategy) (full : CacheStore → Bool) (s : CacheStore) (evictions : ℕ)
    (h : s.Indexes) :
    (full (makeRoom strategy full s evictions).1 = false ∨ (makeRoom strategy full s evictions).1.len = 0) ∧
      Shrunk s (makeRoom strategy full s evictions).1 ∧
      (makeRoom strategy full s evictions).2 + (makeRoom strategy full s evictions).1.len ≤ evictions + s.len := by
  fun_induction makeRoom strategy full s evictions with
  | case1 s evictions hfull hnone =>
    rcases (h.evict_spec strategy).2 with ⟨-, hempty, hentries⟩ | ⟨key, entry, -, hsome, -⟩
    · have hlen : (s.evict strategy).2.len = 0 := by rw [CacheStore.len, hentries]; exact hempty
      refine ⟨Or.inr hlen, shrunk_evict h strategy, ?_⟩
      rw [hlen]
      exact Nat.le_add_right _ _
    · rw [hsome] at hnone
      cases hnone
  | case2 s evictions hfull entry hsome ih =>
    obtain ⟨hdone, hshrunk, hcount⟩ := ih (h.evict_spec strategy).1
    have hlen := CacheStore.len_evict hsome
    exact ⟨hdone, (shrunk_evict h strategy).trans hshrunk, by omega⟩
  | case3 s evictions hfull =>
    exact ⟨Or.inl (by simpa using hfull), ⟨fun _ => Or.inr rfl, Nat.le_refl _⟩, Nat.le_refl _⟩

theorem len_zero_bytes {s : CacheStore} (h : s.len = 0) : s.payloadBytes = 0 := by
  have hentries : s.entries.entries = [] := List.length_eq_zero_iff.1 h
  rw [payloadBytes, AList.total, hentries]
  rfl

/-- The store that an accepted entry is inserted into has room for it. -/
theorem insertWithinBudget_room (c : QueryCache) (key : String) (entry : CacheEntry) (h : c.cache.Indexes)
    (hmax : 0 < c.config.maxEntries)
    (hfits : c.config.maxSizeBytes = 0 ∨ entry.data.length ≤ c.config.maxSizeBytes) :
    ∃ s evictions, c.insertWithinBudget key entry = { c with cache := s.insert key entry, evictions := evictions } ∧
      Shrunk c.cache s ∧ s.len < c.config.maxEntries ∧
      (c.config.maxSizeBytes = 0 ∨ s.payloadBytes + entry.data.length ≤ c.config.maxSizeBytes) ∧
      evictions ≤ c.evictions + c.cache.len := by
  let full : CacheStore → Bool := fun s => decide (c.config.maxEntries ≤ s.len)
  let large : CacheStore → Bool := fun s =>
    decide (0 < c.config.maxSizeBytes) && decide (c.config.maxSizeBytes < s.sizeBytes + entry.data.length)
  let first := makeRoom c.config.strategy full c.cache c.evictions
  let second := makeRoom c.config.strategy large first.1 first.2
  have hfirst : first.1.Indexes := indexes_steps (steps_makeRoom _ _ _ _) h
  have hsecond : second.1.Indexes := indexes_steps (steps_makeRoom _ _ _ _) hfirst
  obtain ⟨hroom, hshrunk, hcount⟩ := makeRoom_spec c.config.strategy full c.cache c.evictions h
  obtain ⟨hbytes, hshrunk', hcount'⟩ := makeRoom_spec c.config.strategy large first.1 first.2 hfirst
  have hlen : first.1.len < c.config.maxEntries := by
    rcases hroom with hroom | hempty
    · exact Nat.lt_of_not_le (decide_eq_false_iff_not.1 hroom)
    · exact lt_of_eq_of_lt hempty hmax
  refine ⟨second.1, second.2, rfl, hshrunk.trans hshrunk', hshrunk'.len.trans_lt hlen, ?_, ?_⟩
  · rcases hfits with hnone | hfits
    · exact Or.inl hnone
    rcases hbytes with hbytes | hempty
    · rw [Bool.and_eq_false_iff, decide_eq_false_iff_not, decide_eq_false_iff_not] at hbytes
      have hsize : second.1.sizeBytes = second.1.payloadBytes := hsecond.size
      rw [← hsize]
      change ¬0 < c.config.maxSizeBytes ∨ ¬c.config.maxSizeBytes < second.1.sizeBytes + _ at hbytes
      omega
    · rw [len_zero_bytes hempty]
      omega
  · change first.2 + first.1.len ≤ _ at hcount
    change second.2 + second.1.len ≤ _ at hcount'
    omega

end QueryCache

namespace CacheStore

theorem insert_entries (s : CacheStore) (key : String) (entry : CacheEntry) :
    (s.insert key entry).entries = s.entries.insert key entry := by
  unfold insert
  exact maybeRebuildIndexes_entries _

theorem insert_new {s : CacheStore} {key : String} (entry : CacheEntry) (hkey : s.get key = none) :
    (s.insert key entry).len = s.len + 1 ∧
      (s.insert key entry).payloadBytes = s.payloadBytes + entry.data.length ∧
      (s.insert key entry).get key = some entry := by
  refine ⟨?_, ?_, ?_⟩
  · rw [len, len, insert_entries, AList.len_insert_of_none entry hkey]
  · rw [payloadBytes, payloadBytes, insert_entries, AList.total_insert, AList.erase_of_lookup_none hkey, Nat.add_comm]
  · rw [get, insert_entries, AList.lookup_insert_cases, if_pos rfl]

theorem get_remove (s : CacheStore) (key other : String) :
    (s.remove key).2.get other = if other = key then none else s.get other := by
  rw [get, (remove_entries s key).2, AList.lookup_erase_cases]
  rfl

theorem len_remove (s : CacheStore) (key : String) : (s.remove key).2.len ≤ s.len := by
  rw [len, (remove_entries s key).2]
  exact AList.len_erase_le _ _

end CacheStore

open CacheStore

/-- What a store makes of its value. -/
inductive StoreOutcome where
  | disabled
  | unserializable
  | stale
  | rejected
  | accepted (data : List UInt8)

/-- The outcome that the value, the limits and the invalidations since the fill point call for. -/
inductive QueryCache.Decides (c : QueryCache) (value : Serialized) (ttl : Option Duration) (tables : List String)
    (fillPoint : Option FillPoint) : StoreOutcome → Prop
  | disabled : c.enabled = false → Decides c value ttl tables fillPoint .disabled
  | unserializable (message : String) : c.enabled = true → serializePayload value = .error message →
      Decides c value ttl tables fillPoint .unserializable
  | stale (data : Option (List UInt8)) (point : FillPoint) : c.enabled = true → serializePayload value = .ok data →
      fillPoint = some point → c.cache.invalidatedSince point (tables.map toAsciiLowercase).toFinset = true →
      Decides c value ttl tables fillPoint .stale
  /-- lossy JSON -/
  | lossy : c.enabled = true → serializePayload value = .ok none →
      (∀ point ∈ fillPoint, c.cache.invalidatedSince point (tables.map toAsciiLowercase).toFinset = false) →
      Decides c value ttl tables fillPoint .rejected
  /-- a zero TTL, an empty result that is not cached, or more than a budget -/
  | refused (data : List UInt8) : c.enabled = true → serializePayload value = .ok (some data) →
      (∀ point ∈ fillPoint, c.cache.invalidatedSince point (tables.map toAsciiLowercase).toFinset = false) →
      (ttl.getD c.config.defaultTtl = 0 ∨ c.config.maxEntries = 0 ∨
        (c.config.cacheEmptyResults = false ∧ data = [91, 93]) ∨
        (c.config.maxSizeBytes ≠ 0 ∧ c.config.maxSizeBytes < data.length)) →
      Decides c value ttl tables fillPoint .rejected
  | accepted (data : List UInt8) : c.enabled = true → serializePayload value = .ok (some data) →
      (∀ point ∈ fillPoint, c.cache.invalidatedSince point (tables.map toAsciiLowercase).toFinset = false) →
      ttl.getD c.config.defaultTtl ≠ 0 → c.config.maxEntries ≠ 0 →
      (c.config.cacheEmptyResults = true ∨ data ≠ [91, 93]) →
      (c.config.maxSizeBytes = 0 ∨ data.length ≤ c.config.maxSizeBytes) →
      Decides c value ttl tables fillPoint (.accepted data)

/-- What a store with an outcome leaves of the cache, and returns. -/
def StoreOutcome.Leaves (c : QueryCache) (key : String) (result : Except Error Unit) (after : CacheStore) :
    StoreOutcome → Prop
  | .disabled => result = .ok () ∧ after = c.cache
  | .unserializable => (∃ error, result = .error error) ∧ after = c.cache
  | .stale => result = .ok () ∧ after = c.cache
  | .rejected => result = .ok () ∧ after.get key = none ∧ ∀ other ≠ key, after.get other = c.cache.get other
  | .accepted data => result = .ok () ∧ after.len ≤ c.config.maxEntries ∧
      (c.config.maxSizeBytes ≠ 0 → after.payloadBytes ≤ c.config.maxSizeBytes) ∧
      ∃ entry, after.get key = some entry ∧ entry.data = data

namespace QueryCache

theorem cacheable_eq_true {config : CacheConfig} {ttl : Duration} {data : List UInt8} :
    cacheable config ttl data = true ↔
      ttl ≠ 0 ∧ config.maxEntries ≠ 0 ∧ (config.cacheEmptyResults = true ∨ data ≠ [91, 93]) ∧
        (config.maxSizeBytes = 0 ∨ data.length ≤ config.maxSizeBytes) := by
  simp [cacheable, and_assoc, Nat.pos_iff_ne_zero]

theorem cacheable_eq_false {config : CacheConfig} {ttl : Duration} {data : List UInt8} :
    cacheable config ttl data = false ↔
      ttl = 0 ∨ config.maxEntries = 0 ∨ (config.cacheEmptyResults = false ∧ data = [91, 93]) ∨
        (config.maxSizeBytes ≠ 0 ∧ config.maxSizeBytes < data.length) := by
  rw [← Bool.not_eq_true, cacheable_eq_true, not_and_or, not_and_or, not_and_or, not_or, not_or, not_not, not_not,
    not_not, Bool.not_eq_true, not_le]

/-- Every store has an outcome. -/
theorem decides_total (c : QueryCache) (value : Serialized) (ttl : Option Duration) (tables : List String)
    (fillPoint : Option FillPoint) : ∃ outcome, c.Decides value ttl tables fillPoint outcome := by
  cases henabled : c.enabled with
  | false => exact ⟨.disabled, .disabled henabled⟩
  | true =>
    cases hdata : serializePayload value with
    | error message => exact ⟨.unserializable, .unserializable message henabled hdata⟩
    | ok data =>
      by_cases hstale : ∃ point ∈ fillPoint,
          c.cache.invalidatedSince point (tables.map toAsciiLowercase).toFinset = true
      · obtain ⟨point, hpoint, hstale⟩ := hstale
        exact ⟨.stale, .stale data point henabled hdata hpoint hstale⟩
      have hfresh : ∀ point ∈ fillPoint,
          c.cache.invalidatedSince point (tables.map toAsciiLowercase).toFinset = false :=
        fun point hpoint => Bool.eq_false_iff.2 fun h => hstale ⟨point, hpoint, h⟩
      cases data with
      | none => exact ⟨.rejected, .lossy henabled hdata hfresh⟩
      | some data =>
        cases haccept : cacheable c.config (ttl.getD c.config.defaultTtl) data with
        | false => exact ⟨.rejected, .refused data henabled hdata hfresh (cacheable_eq_false.1 haccept)⟩
        | true =>
          obtain ⟨httl, hmax, hempty, hsize⟩ := cacheable_eq_true.1 haccept
          exact ⟨.accepted data, .accepted data henabled hdata hfresh httl hmax hempty hsize⟩

theorem any_eq_false {fillPoint : Option FillPoint} {stale : FillPoint → Bool}
    (h : ∀ point ∈ fillPoint, stale point = false) : fillPoint.any stale = false := by
  cases fillPoint with
  | none => rfl
  | some point => exact h point rfl

/-- A store of a fresh value that is not kept only removes its key. -/
theorem store_rejected {c : QueryCache} {value : Serialized} {ttl : Option Duration} {tables : List String}
    {fillPoint : Option FillPoint} {data : Option (List UInt8)} (now : Instant) (key : String)
    (henabled : c.enabled = true) (hdata : serializePayload value = .ok data)
    (hfresh : ∀ point ∈ fillPoint, c.cache.invalidatedSince point (tables.map toAsciiLowercase).toFinset = false)
    (hnone : data.filter (cacheable c.config (ttl.getD c.config.defaultTtl)) = none) :
    (c.store now key value ttl tables fillPoint).1 = .ok () ∧
      (c.store now key value ttl tables fillPoint).2.cache = (c.cache.remove key).2 ∧
      (c.store now key value ttl tables fillPoint).2.evictions = c.evictions := by
  unfold store
  simp only [henabled, hdata, any_eq_false hfresh, hnone, Bool.not_true, Bool.false_eq_true, if_false, and_self]

theorem store_accepted {c : QueryCache} {value : Serialized} {ttl : Option Duration} {tables : List String}
    {fillPoint : Option FillPoint} {data : List UInt8} (now : Instant) (key : String)
    (henabled : c.enabled = true) (hdata : serializePayload value = .ok (some data))
    (hfresh : ∀ point ∈ fillPoint, c.cache.invalidatedSince point (tables.map toAsciiLowercase).toFinset = false)
    (haccept : cacheable c.config (ttl.getD c.config.defaultTtl) data = true) :
    ∃ entry, entry.data = data ∧ c.store now key value ttl tables fillPoint =
      (.ok (), { c with cache := (c.cache.remove key).2, orderCounter := c.orderCounter + 1 }.insertWithinBudget
        key entry) := by
  unfold store
  simp only [henabled, hdata, any_eq_false hfresh, Option.filter_some, haccept, Bool.not_true, Bool.false_eq_true,
    if_false, if_true]
  exact ⟨_, rfl, rfl⟩

theorem rejected_leaves (c : QueryCache) (key : String) :
    StoreOutcome.Leaves c key (.ok ()) (c.cache.remove key).2 .rejected := by
  refine ⟨rfl, ?_, fun other hother => ?_⟩
  · rw [get_remove, if_pos rfl]
  · rw [get_remove, if_neg hother]

/-- What a store leaves follows from its outcome, whatever the limits were before. -/
theorem store_spec (c : QueryCache) (hc : c.cache.Indexes) (now : Instant) (key : String) (value : Serialized)
    (ttl : Option Duration) (tables : List String) (fillPoint : Option FillPoint) (outcome : StoreOutcome)
    (h : c.Decides value ttl tables fillPoint outcome) :
    outcome.Leaves c key (c.store now key value ttl tables fillPoint).1
        (c.store now key value ttl tables fillPoint).2.cache ∧
      (c.store now key value ttl tables fillPoint).2.evictions ≤ c.evictions + c.cache.len := by
  cases h with
  | disabled hdisabled =>
    have hstore : c.store now key value ttl tables fillPoint = (.ok (), c) := by simp [store, hdisabled]
    rw [hstore]
    exact ⟨⟨rfl, rfl⟩, Nat.le_add_right _ _⟩
  | unserializable message henabled hdata =>
    have hstore : c.store now key value ttl tables fillPoint =
        (.error (.internal s!"Failed to serialize cache value: {message}"), c) := by
      simp [store, henabled, hdata]
    rw [hstore]
    exact ⟨⟨⟨_, rfl⟩, rfl⟩, Nat.le_add_right _ _⟩
  | stale data point henabled hdata hpoint hstale =>
    have hstore : c.store now key value ttl tables fillPoint = (.ok (), c) := by
      simp [store, henabled, hdata, hpoint, hstale]
    rw [hstore]
    exact ⟨⟨rfl, rfl⟩, Nat.le_add_right _ _⟩
  | lossy henabled hdata hfresh =>
    have hnone : (none : Option (List UInt8)).filter (cacheable c.config (ttl.getD c.config.defaultTtl)) = none := rfl
    obtain ⟨hresult, hcache, hevictions⟩ := store_rejected now key henabled hdata hfresh hnone
    rw [hresult, hcache, hevictions]
    exact ⟨rejected_leaves c key, Nat.le_add_right _ _⟩
  | refused data henabled hdata hfresh hrefused =>
    have hnone : (some data).filter (cacheable c.config (ttl.getD c.config.defaultTtl)) = none := by
      rw [Option.filter_some, cacheable_eq_false.2 hrefused]
      rfl
    obtain ⟨hresult, hcache, hevictions⟩ := store_rejected now key henabled hdata hfresh hnone
    rw [hresult, hcache, hevictions]
    exact ⟨rejected_leaves c key, Nat.le_add_right _ _⟩
  | accepted data henabled hdata hfresh httl hmax hempty hsize =>
    obtain ⟨entry, hentry, hstore⟩ := store_accepted now key henabled hdata hfresh
      (cacheable_eq_true.2 ⟨httl, hmax, hempty, hsize⟩)
    rw [hstore]
    subst hentry
    obtain ⟨s, evictions, hinsert, hshrunk, hlen, hbytes, hcount⟩ := insertWithinBudget_room
      { c with cache := (c.cache.remove key).2, orderCounter := c.orderCounter + 1 } key entry
      (hc.remove key) (Nat.pos_of_ne_zero hmax) hsize
    rw [hinsert]
    have hkey : s.get key = none := by
      rcases hshrunk.entries key with hnone | hsame
      · exact hnone
      · rw [hsame, get_remove, if_pos rfl]
    obtain ⟨hlen', hbytes', hget⟩ := insert_new entry hkey
    refine ⟨⟨rfl, hlen'.trans_le hlen, fun hlimit => ?_, entry, hget, rfl⟩, ?_⟩
    · rw [hbytes']
      exact hbytes.resolve_left hlimit
    · exact hcount.trans (Nat.add_le_add_left (len_remove c.cache key) _)

end QueryCache

/-- The budgets hold after every store that accepts its value, in every run and under whatever
configuration `read` the store read, and a store that does not accept leaves the other entries.
The evictions of both loops number at most the entries there were. -/
theorem QueryCache.store_within_budget (config : CacheConfig) (ops : List (Instant × CacheOp)) (read : CacheConfig)
    (now : Instant) (key : String) (value : Serialized) (ttl : Option Duration) (tables : List String)
    (fillPoint : Option FillPoint) :
    let c := { (QueryCache.withConfig config).run ops with config := read }
    let stored := c.store now key value ttl tables fillPoint
    (∃ outcome, c.Decides value ttl tables fillPoint outcome) ∧
      ∀ outcome, c.Decides value ttl tables fillPoint outcome →
        outcome.Leaves c key stored.1 stored.2.cache ∧ stored.2.evictions ≤ c.evictions + c.cache.len := by
  intro c stored
  have hc : c.cache.Indexes := indexes_steps ((QueryCache.withConfig config).steps_run ops) indexes_default
  exact ⟨c.decides_total value ttl tables fillPoint,
    fun outcome h => c.store_spec hc now key value ttl tables fillPoint outcome h⟩

/-- A value stored under limits that have just shrunk to one entry of two bytes. -/
theorem store_within_shrunk_budget :
    let limits := { CacheConfig.default with enabled := true, maxEntries := 1, maxSizeBytes := 2 }
    let c := (QueryCache.withConfig CacheConfig.default).run [(0, .applyConfig limits)]
    let stored := c.store 1 "users:1" ⟨.ok [49], .ok ⟨false, false, false⟩⟩ none ["users"] none
    (StoreOutcome.accepted [49]).Leaves c "users:1" stored.1 stored.2.cache := by
  intro limits c stored
  exact ((QueryCache.store_within_budget CacheConfig.default [(0, .applyConfig limits)] limits 1 "users:1"
    ⟨.ok [49], .ok ⟨false, false, false⟩⟩ none ["users"] none).2 (.accepted [49])
    (.accepted [49] rfl (by decide) (fun _ h => nomatch h) (by decide) (by decide) (Or.inl rfl)
      (Or.inr (by decide)))).1

end TideOrm
