import TideOrm.Spec.Managed

/-! How the manager's primitives change its parts: the entry they write, the key
they file or unfile, and nothing else. -/

namespace TideOrm

open Lib

variable {Field Val Rel : Type}

namespace Manager

variable (m : Manager Field Val Rel) (a : ℕ) (e : ManagedEntry Field Val Rel) (key : Option String)

@[simp] theorem entry_setEntry : (m.setEntry a e).entry = Function.update m.entry a e := rfl
@[simp] theorem next_setEntry : (m.setEntry a e).next = m.next := rfl
@[simp] theorem managedEntries_setEntry : (m.setEntry a e).managedEntries = m.managedEntries := rfl
@[simp] theorem inFlight_setEntry : (m.setEntry a e).inFlight = m.inFlight := rfl
@[simp] theorem undo_setEntry : (m.setEntry a e).undo = m.undo := rfl
@[simp] theorem getManagedByKey_setEntry (k : String) :
    (m.setEntry a e).getManagedByKey k = m.getManagedByKey k := rfl

@[simp] theorem entry_pushUndo (step : UndoStep Field Val Rel) : (m.pushUndo step).entry = m.entry := rfl
@[simp] theorem undo_pushUndo (step : UndoStep Field Val Rel) : (m.pushUndo step).undo = step :: m.undo := rfl
@[simp] theorem getManagedByKey_pushUndo (step : UndoStep Field Val Rel) (k : String) :
    (m.pushUndo step).getManagedByKey k = m.getManagedByKey k := rfl

@[simp] theorem entry_unfile : (m.unfile key).entry = m.entry := by cases key <;> rfl
@[simp] theorem next_unfile : (m.unfile key).next = m.next := by cases key <;> rfl
@[simp] theorem managedEntries_unfile : (m.unfile key).managedEntries = m.managedEntries := by cases key <;> rfl
@[simp] theorem inFlight_unfile : (m.unfile key).inFlight = m.inFlight := by cases key <;> rfl
@[simp] theorem undo_unfile : (m.unfile key).undo = m.undo := by cases key <;> rfl

@[simp] theorem entry_refile : (m.refile key a).entry = m.entry := by cases key <;> rfl
@[simp] theorem next_refile : (m.refile key a).next = m.next := by cases key <;> rfl
@[simp] theorem managedEntries_refile : (m.refile key a).managedEntries = m.managedEntries := by
  cases key <;> rfl
@[simp] theorem inFlight_refile : (m.refile key a).inFlight = m.inFlight := by cases key <;> rfl
@[simp] theorem undo_refile : (m.refile key a).undo = m.undo := by cases key <;> rfl

theorem getManagedByKey_unfile (k : String) :
    (m.unfile key).getManagedByKey k = if key = some k then none else m.getManagedByKey k := by
  cases key with
  | none => rfl
  | some k' =>
    simp only [unfile, removeManagedEntry, getManagedByKey, AList.lookup_erase_cases, Option.some.injEq,
      eq_comm]

theorem getManagedByKey_refile (k : String) :
    (m.refile key a).getManagedByKey k = if key = some k then some a else m.getManagedByKey k := by
  cases key with
  | none => rfl
  | some k' =>
    simp only [refile, putManagedEntry, getManagedByKey, AList.lookup_insert_cases, Option.some.injEq,
      eq_comm]

section

variable (before after : Option String)

@[simp] theorem entry_moveManagedEntry : (m.moveManagedEntry a before after).entry = m.entry := by
  simp only [moveManagedEntry, entry_refile]; split_ifs <;> simp
@[simp] theorem next_moveManagedEntry : (m.moveManagedEntry a before after).next = m.next := by
  simp only [moveManagedEntry, next_refile]; split_ifs <;> simp
@[simp] theorem inFlight_moveManagedEntry : (m.moveManagedEntry a before after).inFlight = m.inFlight := by
  simp only [moveManagedEntry, inFlight_refile]; split_ifs <;> simp
@[simp] theorem undo_moveManagedEntry : (m.moveManagedEntry a before after).undo = m.undo := by
  simp only [moveManagedEntry, undo_refile]; split_ifs <;> simp

theorem getManagedByKey_moveManagedEntry (k : String) :
    (m.moveManagedEntry a before after).getManagedByKey k =
      if after = some k then some a else if before = some k then none else m.getManagedByKey k := by
  rw [moveManagedEntry, getManagedByKey_refile]
  split_ifs with h1 h2 h3 h3
  · rfl
  · exact absurd (h2 ▸ h3) h1
  · rfl
  · rw [getManagedByKey_unfile, if_pos h3]
  · rw [getManagedByKey_unfile, if_neg h3]

end

@[simp] theorem entry_removeManagedOpsEntry : (m.removeManagedOpsEntry a).entry = m.entry := rfl
@[simp] theorem next_removeManagedOpsEntry : (m.removeManagedOpsEntry a).next = m.next := rfl
@[simp] theorem inFlight_removeManagedOpsEntry : (m.removeManagedOpsEntry a).inFlight = m.inFlight := rfl
@[simp] theorem undo_removeManagedOpsEntry : (m.removeManagedOpsEntry a).undo = m.undo := rfl
@[simp] theorem getManagedByKey_removeManagedOpsEntry (k : String) :
    (m.removeManagedOpsEntry a).getManagedByKey k = m.getManagedByKey k := rfl

/-- Registering an entry again changes the list of entries only. -/
theorem reregisterManagedEntry_eq :
    ∃ entries, m.reregisterManagedEntry a = { m with managedEntries := entries } := by
  unfold reregisterManagedEntry
  split_ifs
  · exact ⟨m.managedEntries, rfl⟩
  · exact ⟨_, rfl⟩

theorem getManagedByKey_evict (k : String) : (m.evict a).getManagedByKey k =
    if (m.entry a).identityKey = some k then none else m.getManagedByKey k := by
  rw [evict, getManagedByKey_setEntry, getManagedByKey_unfile]

@[simp] theorem entry_evict : (m.evict a).entry = Function.update m.entry a (m.entry a).evicted := by
  simp [evict]

@[simp] theorem next_evict : (m.evict a).next = m.next := by simp [evict]
@[simp] theorem inFlight_evict : (m.evict a).inFlight = m.inFlight := by simp [evict]
@[simp] theorem undo_evict : (m.evict a).undo = m.undo := by simp [evict]

/-- Evicting the entries of a list evicts each of them and no other. -/
theorem foldl_evict (l : List ℕ) : ∀ m : Manager Field Val Rel,
    (∀ b, (l.foldl evict m).entry b = if b ∈ l then (m.entry b).evicted else m.entry b) ∧
      (l.foldl evict m).next = m.next ∧ (l.foldl evict m).inFlight = m.inFlight ∧
      (l.foldl evict m).undo = m.undo := by
  induction l with
  | nil => intro m; simp
  | cons a rest ih =>
    intro m
    obtain ⟨h1, h2, h3, h4⟩ := ih (m.evict a)
    refine ⟨?_, by simp [h2], by simp [h3], by simp [h4]⟩
    intro b
    rw [List.foldl_cons, h1 b, entry_evict]
    by_cases hb : b = a
    · subst hb
      simp [ManagedEntry.evicted]
    · simp [hb]

section

variable {model : EntityModel Field Val Rel}
  {m m' : Manager Field Val Rel} {a : ℕ}

/-- What the checks before a flush's statements lead to. -/
theorem flushBegin_cases (h : m.flushBegin model a = .ok m') :
    m' = m ∨ ((m.entry a).state = .removed ∧ m' = { m with inFlight := some (.removal a) }) ∨
      (((m.entry a).state = .new ∨ (m.entry a).state = .managed) ∧
        m' = { m with inFlight := some (.write a (m.entry a).current (m.entry a).identityKey) }) := by
  unfold flushBegin at h
  dsimp only at h
  cases hs : (m.entry a).state <;> simp only [hs] at h
  case detached => exact Or.inl (Except.ok.inj h).symm
  case removed =>
    refine Or.inr (Or.inl ⟨rfl, ?_⟩)
    cases hk : (m.entry a).persistedKey <;> simp only [hk] at h
    · exact (Except.ok.inj h).symm
    · split_ifs at h
      exact (Except.ok.inj h).symm
  all_goals
    refine Or.inr (Or.inr ⟨by simp, ?_⟩)
    cases hk : (m.entry a).persistedKey <;> simp only [hk] at h
    · exact (Except.ok.inj h).symm
    · split_ifs at h
      exact (Except.ok.inj h).symm

variable [DecidableEq Field] [DecidableEq Val] [DecidableEq Rel]

variable (model) (m) (a)

theorem undoFlush_rest (u : FlushUndo Field Val Rel) : (m.undoFlush model a u).undo = m.undo ∧
    (m.undoFlush model a u).next = m.next ∧ (m.undoFlush model a u).inFlight = m.inFlight ∧
    (m.undoFlush model a u).entry = Function.update m.entry a ((m.entry a).undone model u) := by
  unfold undoFlush
  dsimp only
  split
  · obtain ⟨entries, heq⟩ := reregisterManagedEntry_eq (m := _) (a := a)
    rw [heq]
    split_ifs <;> simp
  · split_ifs <;> simp

theorem runUndo_rest (step : UndoStep Field Val Rel) : (m.runUndo model step).undo = m.undo ∧
    (m.runUndo model step).next = m.next ∧ (m.runUndo model step).inFlight = m.inFlight := by
  cases step with
  | flush b u =>
    obtain ⟨h1, h2, h3, -⟩ := undoFlush_rest model m b u
    exact ⟨h1, h2, h3⟩
  | rebase b changes loaded => exact ⟨rfl, rfl, rfl⟩
  | attach key b =>
    simp only [runUndo]
    split_ifs
    · simp [detach]
    · exact ⟨rfl, rfl, rfl⟩

end

end Manager

/-- Rows of one text field, which is the key. -/
def keyedModel : EntityModel Unit String Unit where
  tableName := "items"
  fieldNames := [()]
  complete := by simp
  pkKey := fun row => row.fields ()
  pkIsNew := fun row => decide (row.fields () = "")
  columnsEq := fun a b => decide (a.fields () = b.fields ())

def keyedRow (key : String) : Row Unit String Unit := ⟨fun _ => key, ()⟩

end TideOrm
