import TideOrm.Spec.CacheStore

/-! What the store's operations do to the entries, and that none of them but the
invalidations themselves touches the invalidation history. -/

namespace TideOrm.CacheStore

open Lib

theorem maybeRebuildIndexes_cases (s : CacheStore) :
    s.maybeRebuildIndexes = s.rebuildIndexes ∨ s.maybeRebuildIndexes = s := by
  unfold maybeRebuildIndexes
  dsimp only
  split_ifs
  · exact Or.inl rfl
  · exact Or.inr rfl

theorem maybeRebuildIndexes_entries (s : CacheStore) :
    s.maybeRebuildIndexes.entries = s.entries := by
  rcases maybeRebuildIndexes_cases s with h | h <;> rw [h]
  rfl

theorem popStrategy_entries (s : CacheStore) (strategy : CacheStrategy) :
    (s.popStrategy strategy).2.entries = s.entries := by
  cases strategy <;> rfl

theorem remove_entries (s : CacheStore) (key : String) :
    (s.remove key).1 = s.entries.lookup key ∧ (s.remove key).2.entries = s.entries.erase key := by
  unfold remove
  rcases hlook : s.entries.lookup key with _ | removed
  · exact ⟨rfl, (AList.erase_of_lookup_none hlook).symm⟩
  · exact ⟨rfl, maybeRebuildIndexes_entries _⟩

theorem evict_cases (s : CacheStore) (strategy : CacheStrategy) :
    (s.evict strategy = (none, (s.popStrategy strategy).2)) ∨
      ∃ key, s.evict strategy = (s.popStrategy strategy).2.remove key := by
  unfold evict
  rcases s.popStrategy strategy with ⟨_ | key, s'⟩
  · exact Or.inl rfl
  · exact Or.inr ⟨key, rfl⟩

theorem len_evict {s : CacheStore} {strategy : CacheStrategy} {entry : CacheEntry}
    (h : (s.evict strategy).1 = some entry) : (s.evict strategy).2.len < s.len := by
  rcases evict_cases s strategy with he | ⟨key, he⟩ <;> rw [he] at h ⊢
  · cases h
  · obtain ⟨hret, herase⟩ := remove_entries (s.popStrategy strategy).2 key
    rw [popStrategy_entries] at hret herase
    have := AList.len_erase (hret.symm.trans h)
    unfold len
    rw [herase]
    omega

/-- Two stores with the same invalidation history. -/
structure SameHistory (s s' : CacheStore) : Prop where
  invalidationSeq : s'.invalidationSeq = s.invalidationSeq
  invalidatedAt : s'.invalidatedAt = s.invalidatedAt
  invalidatedDatabases : s'.invalidatedDatabases = s.invalidatedDatabases
  unscopedInvalidatedAt : s'.unscopedInvalidatedAt = s.unscopedInvalidatedAt
  clearedAt : s'.clearedAt = s.clearedAt

theorem SameHistory.refl (s : CacheStore) : SameHistory s s := ⟨rfl, rfl, rfl, rfl, rfl⟩

theorem SameHistory.trans {a b c : CacheStore} (h1 : SameHistory a b) (h2 : SameHistory b c) :
    SameHistory a c :=
  ⟨h2.1.trans h1.1, h2.2.trans h1.2, h2.3.trans h1.3, h2.4.trans h1.4, h2.5.trans h1.5⟩

theorem SameHistory.rebuild {s t : CacheStore} (h : SameHistory s t) :
    SameHistory s t.maybeRebuildIndexes := by
  rcases maybeRebuildIndexes_cases t with hr | hr <;> rw [hr]
  · exact ⟨h.1, h.2, h.3, h.4, h.5⟩
  · exact h

theorem sameHistory_insert (s : CacheStore) (key : String) (entry : CacheEntry) :
    SameHistory s (s.insert key entry) := by
  apply SameHistory.rebuild
  exact ⟨rfl, rfl, rfl, rfl, rfl⟩

theorem sameHistory_remove (s : CacheStore) (key : String) : SameHistory s (s.remove key).2 := by
  unfold remove
  cases s.entries.lookup key with
  | none => exact SameHistory.refl s
  | some removed =>
    apply SameHistory.rebuild
    exact ⟨rfl, rfl, rfl, rfl, rfl⟩

theorem sameHistory_removeWhere (s : CacheStore) (predicate : CacheEntry → Bool) :
    SameHistory s (s.removeWhere predicate).2 := by
  unfold removeWhere
  dsimp only
  split_ifs
  · apply SameHistory.rebuild
    exact ⟨rfl, rfl, rfl, rfl, rfl⟩
  · exact ⟨rfl, rfl, rfl, rfl, rfl⟩

theorem sameHistory_touch (s : CacheStore) (key : String) (accessOrder : ℕ) :
    SameHistory s (s.touch key accessOrder).2 := by
  unfold touch
  cases s.entries.lookup key with
  | none => exact SameHistory.refl s
  | some entry =>
    apply SameHistory.rebuild
    exact ⟨rfl, rfl, rfl, rfl, rfl⟩

theorem sameHistory_evict (s : CacheStore) (strategy : CacheStrategy) :
    SameHistory s (s.evict strategy).2 := by
  have hpop : SameHistory s (s.popStrategy strategy).2 := by
    cases strategy <;> exact ⟨rfl, rfl, rfl, rfl, rfl⟩
  rcases evict_cases s strategy with he | ⟨key, he⟩ <;> rw [he]
  · exact hpop
  · exact hpop.trans (sameHistory_remove _ key)

end TideOrm.CacheStore
