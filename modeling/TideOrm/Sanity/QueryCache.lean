import TideOrm.Spec.QueryCache
import Mathlib.Logic.Relation

/-! Every operation of the cache is a chain of operations of its store, so what those keep
holds along any run. -/

namespace TideOrm

namespace CacheStore

/-- One operation of the store, or a note of an invalidation. -/
inductive StoreStep : CacheStore → CacheStore → Prop
  | op (s : CacheStore) (op : StoreOp) : StoreStep s (op.apply s)
  | noteInvalidated (s : CacheStore) (table : String) : StoreStep s (s.noteInvalidated table)
  | noteDatabaseInvalidated (s : CacheStore) (database : String) : StoreStep s (s.noteDatabaseInvalidated database)

abbrev Steps := Relation.ReflTransGen StoreStep

theorem steps_op (s : CacheStore) (op : StoreOp) : Steps s (op.apply s) := Relation.ReflTransGen.single (.op s op)

end CacheStore

namespace QueryCache

open CacheStore Relation

theorem steps_makeRoom (strategy : CacheStrategy) (full : CacheStore → Bool) (s : CacheStore) (evictions : ℕ) :
    Steps s (makeRoom strategy full s evictions).1 := by
  fun_induction makeRoom strategy full s evictions with
  | case1 s evictions hfull hnone => exact steps_op s (.evict strategy)
  | case2 s evictions hfull entry hsome ih => exact (steps_op s (.evict strategy)).trans ih
  | case3 s evictions hfull => exact ReflTransGen.refl

theorem steps_insertWithinBudget (c : QueryCache) (key : String) (entry : CacheEntry) :
    Steps c.cache (c.insertWithinBudget key entry).cache :=
  ((steps_makeRoom _ _ _ _).trans (steps_makeRoom _ _ _ _)).trans (steps_op _ (.insert key entry))

theorem steps_store (c : QueryCache) (now : Instant) (key : String) (value : Serialized)
    (ttl : Option Duration) (tables : List String) (fillPoint : Option FillPoint) :
    Steps c.cache (c.store now key value ttl tables fillPoint).2.cache := by
  unfold store
  split_ifs
  · exact ReflTransGen.refl
  cases serializePayload value with
  | error e => exact ReflTransGen.refl
  | ok data =>
    have hremove : Steps c.cache (c.cache.remove key).2 := steps_op c.cache (.remove key)
    by_cases hguard : (fillPoint.any fun point =>
        c.cache.invalidatedSince point (tables.map toAsciiLowercase).toFinset) = true
    · simp only [hguard, if_true]
      exact ReflTransGen.refl
    · simp only [hguard, if_false, Bool.false_eq_true]
      cases data.filter (cacheable c.config (ttl.getD c.config.defaultTtl)) with
      | none => exact hremove
      | some data =>
        refine hremove.trans ?_
        exact steps_insertWithinBudget
          { c with cache := (c.cache.remove key).2, orderCounter := c.orderCounter + 1 } key _

theorem steps_readPayload (c : QueryCache) (now : Instant) (key : String) :
    Steps c.cache (c.readPayload now key).2.cache := by
  unfold readPayload
  cases c.cache.get key with
  | none => exact ReflTransGen.refl
  | some entry =>
    dsimp only
    split_ifs
    · exact ReflTransGen.refl
    · exact steps_op c.cache (.remove key)
    · exact steps_op c.cache (.touch key _)
    · exact ReflTransGen.refl

theorem steps_get {T : Type} (c : QueryCache) (now : Instant) (key : String)
    (fromSlice : List UInt8 → Option T) : Steps c.cache (c.get now key fromSlice).2.cache := by
  unfold get
  split_ifs
  · exact ReflTransGen.refl
  have hread := steps_readPayload c now key
  rcases hr : c.readPayload now key with ⟨_ | payload, c'⟩ <;> rw [hr] at hread
  · exact hread
  · dsimp only
    cases fromSlice payload with
    | some value => exact hread
    | none =>
      dsimp only
      split_ifs
      · exact hread.trans (steps_op c'.cache (.remove key))
      · exact hread

end QueryCache

open CacheStore Relation

theorem CacheOp.steps (now : Instant) (c : QueryCache) (op : CacheOp) : Steps c.cache (op.apply now c).cache := by
  cases op with
  | get key decodes => exact QueryCache.steps_get c now key _
  | set key value ttl modelName => exact QueryCache.steps_store c now key value ttl _ _
  | setTagged key value ttl tables => exact QueryCache.steps_store c now key value ttl _ _
  | fillPointForDatabase database => exact ReflTransGen.refl
  | fillTagged point key value ttl tables => exact QueryCache.steps_store c now key value ttl _ _
  | invalidate key => exact steps_op c.cache (.remove key)
  | invalidateModel modelName =>
    exact (ReflTransGen.single (.noteInvalidated c.cache _)).trans (steps_op _ (.removeWhere _))
  | invalidateDatabase database =>
    exact (ReflTransGen.single (.noteDatabaseInvalidated c.cache database)).trans (steps_op _ (.removeWhere _))
  | clear => exact steps_op c.cache .clear
  | evictExpired => exact steps_op c.cache (.removeWhere _)
  | resetStats => exact ReflTransGen.refl
  | applyConfig config => exact ReflTransGen.refl
  | setEnabled enabled => exact ReflTransGen.refl

theorem QueryCache.steps_run (c : QueryCache) (ops : List (Instant × CacheOp)) : Steps c.cache (c.run ops).cache := by
  unfold QueryCache.run
  induction ops generalizing c with
  | nil => exact ReflTransGen.refl
  | cons op rest ih => exact (op.2.steps op.1 c).trans (ih _)

end TideOrm
