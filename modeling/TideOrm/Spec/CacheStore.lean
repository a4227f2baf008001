import TideOrm.Lib.HashMap
import TideOrm.Lib.MinHeap
import Mathlib.Data.Finset.Insert
import Mathlib.Data.Prod.Lex
import Mathlib.Data.String.Basic

/-! The entries of the query cache with one eviction index per strategy
(`cache/query_cache/store.rs`). A clock reading is an argument of the operation
that makes it, in nanoseconds. -/

namespace TideOrm

open Lib

abbrev Instant := ℕ
abbrev Duration := ℕ

/-- First nanosecond count past what an `Instant` holds: its seconds are an `i64`. -/
def instantLimit : ℕ := 2 ^ 63 * 1000000000

def Instant.checkedAdd (at_ : Instant) (ttl : Duration) : Option Instant :=
  if at_ + ttl < instantLimit then some (at_ + ttl) else none

def century : Duration := 100 * 365 * 24 * 60 * 60 * 1000000000

/-- Where a read that may fill the cache starts: the generation it saw and the
database it reads. -/
structure FillPoint where
  sequence : ℕ
  database : Option String
deriving DecidableEq

inductive CacheStrategy where
  | lru
  | fifo
  | ttl
deriving DecidableEq

structure CacheEntry where
  data : List UInt8
  expiresAt : Instant
  tables : Finset String
  database : Option String
  insertOrder : ℕ
  accessOrder : ℕ
deriving DecidableEq

namespace CacheEntry

/-- A TTL past what an `Instant` reaches lasts a century instead. -/
def new (now : Instant) (data : List UInt8) (ttl : Duration) (tables : Finset String)
    (order : ℕ) : CacheEntry where
  data := data
  expiresAt := ((now.checkedAdd ttl).orElse fun _ => now.checkedAdd century).getD now
  tables := tables
  database := none
  insertOrder := order
  accessOrder := order

def readsTable (entry : CacheEntry) (table : String) : Bool := decide (table ∈ entry.tables)

def isExpired (entry : CacheEntry) (now : Instant) : Bool := decide (entry.expiresAt ≤ now)

def lruPriority (entry : CacheEntry) : ℕ := entry.accessOrder

def fifoPriority (entry : CacheEntry) : ℕ := entry.insertOrder

def ttlPriority (entry : CacheEntry) : ℕ ×ₗ ℕ := toLex (entry.expiresAt, entry.insertOrder)

end CacheEntry

/-- One slot of an eviction index: the entry's priority when it was pushed. -/
structure Candidate (P : Type) where
  priority : P
  key : String
deriving DecidableEq

namespace Candidate

variable {P : Type}

theorem toLex_injective :
    Function.Injective fun c : Candidate P => (toLex (c.priority, c.key) : P ×ₗ String) := by
  rintro ⟨p, k⟩ ⟨p', k'⟩ h
  cases h
  rfl

/-- Candidates compare by priority, then by key. -/
instance [LinearOrder P] : LinearOrder (Candidate P) :=
  LinearOrder.lift' (fun c => (toLex (c.priority, c.key) : P ×ₗ String)) toLex_injective

theorem le_def [LinearOrder P] {a b : Candidate P} :
    a ≤ b ↔ (toLex (a.priority, a.key) : P ×ₗ String) ≤ toLex (b.priority, b.key) := Iff.rfl

end Candidate

def usizeMax : ℕ := 2 ^ 64 - 1

def saturatingMul (a b : ℕ) : ℕ := min (a * b) usizeMax

def saturatingAdd (a b : ℕ) : ℕ := min (a + b) usizeMax

def invalidationHistoryLimit : ℕ := 1024

structure CacheStore where
  entries : HashMap String CacheEntry
  lruHeap : MinHeap (Candidate ℕ)
  fifoHeap : MinHeap (Candidate ℕ)
  ttlHeap : MinHeap (Candidate (ℕ ×ₗ ℕ))
  sizeBytes : ℕ
  invalidationSeq : ℕ
  invalidatedAt : HashMap String ℕ
  invalidatedDatabases : HashMap String ℕ
  unscopedInvalidatedAt : ℕ
  clearedAt : ℕ

/-- Pop candidates until one still matches its entry's priority, and return
that entry's key. -/
def popCurrent {P : Type} [LinearOrder P] (heap : MinHeap (Candidate P))
    (entries : HashMap String CacheEntry) (priorityOf : CacheEntry → P) :
    Option String × MinHeap (Candidate P) :=
  let popped := heap.popUntil fun candidate =>
    (entries.lookup candidate.key).any fun entry => priorityOf entry == candidate.priority
  (popped.1.map Candidate.key, popped.2)

namespace CacheStore

def default : CacheStore where
  entries := ∅
  lruHeap := MinHeap.empty
  fifoHeap := MinHeap.empty
  ttlHeap := MinHeap.empty
  sizeBytes := 0
  invalidationSeq := 0
  invalidatedAt := ∅
  invalidatedDatabases := ∅
  unscopedInvalidatedAt := 0
  clearedAt := 0

def get (s : CacheStore) (key : String) : Option CacheEntry := s.entries.lookup key

def len (s : CacheStore) : ℕ := s.entries.len

def indexOf {P : Type} [LinearOrder P] (entries : HashMap String CacheEntry)
    (priorityOf : CacheEntry → P) : MinHeap (Candidate P) :=
  MinHeap.ofList (entries.entries.map fun e => ⟨priorityOf e.2, e.1⟩)

def rebuildIndexes (s : CacheStore) : CacheStore :=
  { s with
    lruHeap := indexOf s.entries CacheEntry.lruPriority
    fifoHeap := indexOf s.entries CacheEntry.fifoPriority
    ttlHeap := indexOf s.entries CacheEntry.ttlPriority }

def indexRebuildMultiplier : ℕ := 4
def indexRebuildSlack : ℕ := 64

def maybeRebuildIndexes (s : CacheStore) : CacheStore :=
  let entryCount := s.entries.len
  let threshold := saturatingAdd (saturatingMul entryCount indexRebuildMultiplier) indexRebuildSlack
  if entryCount = 0 ∨ threshold < s.lruHeap.len ∨ threshold < s.fifoHeap.len ∨
      threshold < s.ttlHeap.len then
    s.rebuildIndexes
  else s

/-- Store `entry` under `key`, replacing whatever was there. -/
def insert (s : CacheStore) (key : String) (entry : CacheEntry) : CacheStore :=
  let sizeBytes := s.sizeBytes + entry.data.length
  maybeRebuildIndexes
    { s with
      lruHeap := s.lruHeap.push ⟨entry.lruPriority, key⟩
      fifoHeap := s.fifoHeap.push ⟨entry.fifoPriority, key⟩
      ttlHeap := s.ttlHeap.push ⟨entry.ttlPriority, key⟩
      entries := s.entries.insert key entry
      sizeBytes := match s.entries.lookup key with
        | some previous => sizeBytes - previous.data.length
        | none => sizeBytes }

def remove (s : CacheStore) (key : String) : Option CacheEntry × CacheStore :=
  match s.entries.lookup key with
  | none => (none, s)
  | some removed =>
    (some removed,
      maybeRebuildIndexes
        { s with entries := s.entries.erase key, sizeBytes := s.sizeBytes - removed.data.length })

/-- Remove every entry `predicate` selects, returning how many there were. -/
def removeWhere (s : CacheStore) (predicate : CacheEntry → Bool) : ℕ × CacheStore :=
  let before := s.entries.len
  let freed := (s.entries.retain fun _ entry => predicate entry).total fun entry => entry.data.length
  let kept := s.entries.retain fun _ entry => !predicate entry
  let s' := { s with entries := kept, sizeBytes := s.sizeBytes - freed }
  let removed := before - kept.len
  (removed, if 0 < removed then maybeRebuildIndexes s' else s')

/-- Remove every entry, returning how many there were. -/
def clear (s : CacheStore) : ℕ × CacheStore :=
  (s.entries.len,
    { s with
      entries := ∅
      lruHeap := MinHeap.empty
      fifoHeap := MinHeap.empty
      ttlHeap := MinHeap.empty
      sizeBytes := 0
      invalidationSeq := s.invalidationSeq + 1
      clearedAt := s.invalidationSeq + 1
      invalidatedAt := ∅
      invalidatedDatabases := ∅ })

/-- Record that the entries reading `table` were invalidated. -/
def noteInvalidated (s : CacheStore) (table : String) : CacheStore :=
  let seq := s.invalidationSeq + 1
  -- Old names are forgotten only behind a fill barrier.
  let compact := decide (invalidationHistoryLimit ≤ s.invalidatedAt.len ∧ table ∉ s.invalidatedAt)
  { s with
    invalidationSeq := seq
    clearedAt := if compact then seq else s.clearedAt
    invalidatedAt := (if compact then ∅ else s.invalidatedAt).insert table seq }

def noteDatabaseInvalidated (s : CacheStore) (database : String) : CacheStore :=
  let seq := s.invalidationSeq + 1
  let compact := decide
    (invalidationHistoryLimit ≤ s.invalidatedDatabases.len ∧ database ∉ s.invalidatedDatabases)
  { s with
    invalidationSeq := seq
    unscopedInvalidatedAt := seq
    clearedAt := if compact then seq else s.clearedAt
    invalidatedDatabases := (if compact then ∅ else s.invalidatedDatabases).insert database seq }

/-- Whether `point`'s database, or any of `tables`, was invalidated after it. -/
def invalidatedSince (s : CacheStore) (point : FillPoint) (tables : Finset String) : Bool :=
  let seq := point.sequence
  decide (seq < s.clearedAt)
    || (match point.database with
        | some database => (s.invalidatedDatabases.lookup database).any fun at_ => decide (seq < at_)
        | none => decide (seq < s.unscopedInvalidatedAt))
    || decide (∃ table ∈ tables, (s.invalidatedAt.lookup table).any fun at_ => decide (seq < at_))

/-- Mark `key` as the most recently used entry and return its data. -/
def touch (s : CacheStore) (key : String) (accessOrder : ℕ) : Option (List UInt8) × CacheStore :=
  match s.entries.lookup key with
  | none => (none, s)
  | some entry =>
    (some entry.data,
      maybeRebuildIndexes
        { s with
          entries := s.entries.insert key { entry with accessOrder := accessOrder }
          lruHeap := s.lruHeap.push ⟨accessOrder, key⟩ })

/-- The key `strategy`'s index names first, with the candidates popped to find it gone. -/
def popStrategy (s : CacheStore) : CacheStrategy → Option String × CacheStore
  | .lru =>
    let popped := popCurrent s.lruHeap s.entries CacheEntry.lruPriority
    (popped.1, { s with lruHeap := popped.2 })
  | .fifo =>
    let popped := popCurrent s.fifoHeap s.entries CacheEntry.fifoPriority
    (popped.1, { s with fifoHeap := popped.2 })
  | .ttl =>
    let popped := popCurrent s.ttlHeap s.entries CacheEntry.ttlPriority
    (popped.1, { s with ttlHeap := popped.2 })

/-- Remove and return the entry `strategy` evicts first. -/
def evict (s : CacheStore) (strategy : CacheStrategy) : Option CacheEntry × CacheStore :=
  match s.popStrategy strategy with
  | (none, s') => (none, s')
  | (some key, s') => s'.remove key

end CacheStore

/-- The operations that change the stored entries. -/
inductive StoreOp where
  | insert (key : String) (entry : CacheEntry)
  | touch (key : String) (accessOrder : ℕ)
  | remove (key : String)
  | removeWhere (predicate : CacheEntry → Bool)
  | clear
  | evict (strategy : CacheStrategy)

def StoreOp.apply (s : CacheStore) : StoreOp → CacheStore
  | .insert key entry => s.insert key entry
  | .touch key accessOrder => (s.touch key accessOrder).2
  | .remove key => (s.remove key).2
  | .removeWhere predicate => (s.removeWhere predicate).2
  | .clear => s.clear.2
  | .evict strategy => (s.evict strategy).2

def CacheStore.run (s : CacheStore) (ops : List StoreOp) : CacheStore := ops.foldl StoreOp.apply s

end TideOrm
