import TideOrm.Sanity.CacheStore
import TideOrm.Spec.Error
import Mathlib.Data.List.Infix
import Mathlib.Data.Finset.Dedup

/-! The query cache over its store (`cache/query_cache.rs`). Each public operation
is one step. What a value serializes to is given by `Serialized`, since the
serializer is a third-party one. -/

namespace TideOrm

open Lib

structure CacheConfig where
  enabled : Bool
  maxEntries : ℕ
  maxSizeBytes : ℕ
  defaultTtl : Duration
  strategy : CacheStrategy
  cacheEmptyResults : Bool
  keyPrefix : Option String

def CacheConfig.default : CacheConfig where
  enabled := false
  maxEntries := 1000
  maxSizeBytes := 0
  defaultTtl := 60 * 1000000000
  strategy := .lru
  cacheEmptyResults := true
  keyPrefix := none

structure JsonLoss where
  nonFinite : Bool
  none : Bool
  nullInSome : Bool

/-- A value as its serializer sees it: its JSON, and what that JSON loses. -/
structure Serialized where
  toVec : Except String (List UInt8)
  jsonLoss : Except String JsonLoss

def nullBytes : List UInt8 := [110, 117, 108, 108]

/-- The payload, or none when its JSON would not read back as the value. -/
def serializePayload (value : Serialized) : Except String (Option (List UInt8)) := do
  let data ← value.toVec
  if ¬ nullBytes <:+: data then
    return some data
  let loss ← value.jsonLoss
  return if !loss.nonFinite && !loss.nullInSome then some data else none

def toAsciiLowercase (s : String) : String := String.ofList (s.toList.map Char.toLower)

structure QueryCache where
  config : CacheConfig
  /-- mirror of `config.enabled`, read without the lock -/
  enabled : Bool
  cache : CacheStore
  orderCounter : ℕ
  hits : ℕ
  misses : ℕ
  evictions : ℕ
  invalidations : ℕ

namespace QueryCache

def withConfig (config : CacheConfig) : QueryCache where
  config := config
  enabled := config.enabled
  cache := CacheStore.default
  orderCounter := 1
  hits := 0
  misses := 0
  evictions := 0
  invalidations := 0

def generateKey (c : QueryCache) (table : String) (queryHash : ℕ) : String :=
  let keyPrefix := c.config.keyPrefix.getD ""
  if keyPrefix = "" then s!"{table}:{queryHash}" else s!"{keyPrefix}:{table}:{queryHash}"

/-- Serve a hit without a lock upgrade, unless it is expired or has to be touched. -/
def readPayload (c : QueryCache) (now : Instant) (key : String) :
    Option (List UInt8) × QueryCache :=
  match c.cache.get key with
  | none => (none, c)
  | some entry =>
    if !entry.isExpired now && decide (c.config.strategy ≠ .lru) then (some entry.data, c)
    else if entry.isExpired now then (none, { c with cache := (c.cache.remove key).2 })
    else if c.config.strategy = .lru then
      let touched := c.cache.touch key c.orderCounter
      (touched.1, { c with cache := touched.2, orderCounter := c.orderCounter + 1 })
    else (some entry.data, c)

/-- Get a cached value; a payload `fromSlice` cannot read is dropped. -/
def get {T : Type} (c : QueryCache) (now : Instant) (key : String)
    (fromSlice : List UInt8 → Option T) : Option T × QueryCache :=
  if !c.enabled then (none, c)
  else
    match c.readPayload now key with
    | (none, c') => (none, { c' with misses := c'.misses + 1 })
    | (some payload, c') =>
      match fromSlice payload with
      | some value => (some value, { c' with hits := c'.hits + 1 })
      | none =>
        (none,
          { c' with
            misses := c'.misses + 1
            cache := if (c'.cache.get key).any fun entry => entry.data == payload
              then (c'.cache.remove key).2 else c'.cache })

def fillPointForDatabase (c : QueryCache) (database : Option String) : FillPoint where
  sequence := c.cache.invalidationSeq
  database := database

/-- Evict while `full` and an entry can be evicted, counting the evictions. -/
def makeRoom (strategy : CacheStrategy) (full : CacheStore → Bool) (s : CacheStore)
    (evictions : ℕ) : CacheStore × ℕ :=
  if full s then
    match h : (s.evict strategy).1 with
    | none => ((s.evict strategy).2, evictions)
    | some _ => makeRoom strategy full (s.evict strategy).2 (evictions + 1)
  else (s, evictions)
termination_by s.len
decreasing_by exact CacheStore.len_evict h

def cacheable (config : CacheConfig) (ttl : Duration) (data : List UInt8) : Bool :=
  decide (ttl ≠ 0) && decide (0 < config.maxEntries)
    && (config.cacheEmptyResults || decide (data ≠ [91, 93]))
    && (decide (config.maxSizeBytes = 0) || decide (data.length ≤ config.maxSizeBytes))

/-- Insert an accepted entry once the entry and byte budgets have room for it. -/
def insertWithinBudget (c : QueryCache) (key : String) (entry : CacheEntry) : QueryCache :=
  let config := c.config
  let (cache, evictions) := makeRoom config.strategy
    (fun s => decide (config.maxEntries ≤ s.len)) c.cache c.evictions
  let (cache, evictions) := makeRoom config.strategy
    (fun s => decide (0 < config.maxSizeBytes) &&
      decide (config.maxSizeBytes < s.sizeBytes + entry.data.length)) cache evictions
  { c with cache := cache.insert key entry, evictions := evictions }

/-- Store one entry tagged with every table it reads, unless it was read before
an invalidation of one of them. -/
def store (c : QueryCache) (now : Instant) (key : String) (value : Serialized)
    (ttl : Option Duration) (tables : List String) (fillPoint : Option FillPoint) :
    Except Error Unit × QueryCache :=
  if !c.enabled then (.ok (), c)
  else
    let tables := (tables.map toAsciiLowercase).toFinset
    match serializePayload value with
    | .error e => (.error (.internal s!"Failed to serialize cache value: {e}"), c)
    | .ok data =>
      let ttl := ttl.getD c.config.defaultTtl
      let data := data.filter (cacheable c.config ttl)
      -- The fill point comes first: a stale read must not remove a newer entry.
      if fillPoint.any fun point => c.cache.invalidatedSince point tables then (.ok (), c)
      else
        let removed := c.cache.remove key
        let c := { c with cache := removed.2 }
        match data with
        | none =>
          (.ok (), { c with
            invalidations := if removed.1.isSome then c.invalidations + 1 else c.invalidations })
        | some data =>
          let entry := { CacheEntry.new now data ttl tables c.orderCounter with
            database := fillPoint.bind FillPoint.database }
          (.ok (), { c with orderCounter := c.orderCounter + 1 }.insertWithinBudget key entry)

def set (c : QueryCache) (now : Instant) (key : String) (value : Serialized)
    (ttl : Option Duration) (modelName : String) : Except Error Unit × QueryCache :=
  c.store now key value ttl [modelName] none

def setTagged (c : QueryCache) (now : Instant) (key : String) (value : Serialized)
    (ttl : Option Duration) (tables : List String) : Except Error Unit × QueryCache :=
  c.store now key value ttl tables none

/-- `setTagged` for rows read since `fillPoint`. -/
def fillTagged (c : QueryCache) (now : Instant) (fillPoint : FillPoint) (key : String)
    (value : Serialized) (ttl : Option Duration) (tables : List String) :
    Except Error Unit × QueryCache :=
  c.store now key value ttl tables (some fillPoint)

def invalidate (c : QueryCache) (key : String) : Bool × QueryCache :=
  let removed := c.cache.remove key
  (removed.1.isSome, { c with
    cache := removed.2
    invalidations := if removed.1.isSome then c.invalidations + 1 else c.invalidations })

def invalidateModel (c : QueryCache) (modelName : String) : QueryCache :=
  let modelName := toAsciiLowercase modelName
  let removed := (c.cache.noteInvalidated modelName).removeWhere fun entry =>
    entry.readsTable modelName
  { c with cache := removed.2, invalidations := c.invalidations + removed.1 }

def clear (c : QueryCache) : QueryCache :=
  let removed := c.cache.clear
  { c with cache := removed.2, invalidations := c.invalidations + removed.1 }

/-- Entries without a database are invalidated by any database's write. -/
def invalidateDatabase (c : QueryCache) (database : String) : QueryCache :=
  let removed := (c.cache.noteDatabaseInvalidated database).removeWhere fun entry =>
    entry.database.all fun scope => scope == database
  { c with cache := removed.2, invalidations := c.invalidations + removed.1 }

def evictExpired (c : QueryCache) (now : Instant) : QueryCache :=
  let removed := c.cache.removeWhere fun entry => entry.isExpired now
  { c with cache := removed.2, evictions := c.evictions + removed.1 }

def resetStats (c : QueryCache) : QueryCache :=
  { c with hits := 0, misses := 0, evictions := 0, invalidations := 0 }

def applyConfig (c : QueryCache) (config : CacheConfig) : QueryCache :=
  { c with config := config, enabled := config.enabled }

def setEnabled (c : QueryCache) (enabled : Bool) : QueryCache :=
  { c with config := { c.config with enabled := enabled }, enabled := enabled }

end QueryCache

/-- One public operation of the cache, as a client calls it. -/
inductive CacheOp where
  | get (key : String) (decodes : List UInt8 → Bool)
  | set (key : String) (value : Serialized) (ttl : Option Duration) (modelName : String)
  | setTagged (key : String) (value : Serialized) (ttl : Option Duration) (tables : List String)
  | fillPointForDatabase (database : Option String)
  | fillTagged (point : FillPoint) (key : String) (value : Serialized) (ttl : Option Duration)
      (tables : List String)
  | invalidate (key : String)
  | invalidateModel (modelName : String)
  | invalidateDatabase (database : String)
  | clear
  | evictExpired
  | resetStats
  | applyConfig (config : CacheConfig)
  | setEnabled (enabled : Bool)

def CacheOp.apply (now : Instant) (c : QueryCache) : CacheOp → QueryCache
  | .get key decodes => (c.get now key fun data => if decodes data then some data else none).2
  | .set key value ttl modelName => (c.set now key value ttl modelName).2
  | .setTagged key value ttl tables => (c.setTagged now key value ttl tables).2
  | .fillPointForDatabase _ => c
  | .fillTagged point key value ttl tables => (c.fillTagged now point key value ttl tables).2
  | .invalidate key => (c.invalidate key).2
  | .invalidateModel modelName => c.invalidateModel modelName
  | .invalidateDatabase database => c.invalidateDatabase database
  | .clear => c.clear
  | .evictExpired => c.evictExpired now
  | .resetStats => c.resetStats
  | .applyConfig config => c.applyConfig config
  | .setEnabled enabled => c.setEnabled enabled

/-- A run of the cache: the clients' operations in the order they took effect,
each with the clock it read. -/
def QueryCache.run (c : QueryCache) (ops : List (Instant × CacheOp)) : QueryCache :=
  ops.foldl (fun c op => op.2.apply op.1 c) c

end TideOrm
