import TideOrm.Sanity.Managed

/-! The managed map is consistent: what it files under a key has that key and is not
detached, whatever the steps. It also finds every entry that has a key, as long as
no flush and no undo of one files its entry under a key another entry has; then an
operation on one entry never unfiles another. -/

namespace TideOrm

open Lib

variable {Field Val Rel : Type}

/-- An entry the flush found detached kept its keys, and only an eviction leaves an
entry without the key it had. -/
def FlushUndo.Ok (u : FlushUndo Field Val Rel) : Prop :=
  (u.state.1 = .detached → u.state.2 = .detached ∧ u.identityKey.1 = u.identityKey.2) ∧
    (u.identityKey.2 = none → u.identityKey.1 ≠ none → u.state.2 = .detached)

namespace Manager

structure Inv (m : Manager Field Val Rel) : Prop where
  filed : ∀ k a, m.getManagedByKey k = some a → (m.entry a).identityKey = some k
  detached : ∀ a, (m.entry a).state = .detached → (m.entry a).identityKey = none
  unused : ∀ a, m.next ≤ a → (m.entry a).identityKey = none
  flight : ∀ a read previousKey, m.inFlight = some (.write a read previousKey) →
    a < m.next ∧ ((m.entry a).identityKey = previousKey ∨ (m.entry a).identityKey = none)
  deleting : ∀ a, m.inFlight = some (.removal a) → a < m.next
  undoOk : ∀ a u, UndoStep.flush a u ∈ m.undo → a < m.next ∧ u.Ok

theorem inv_new (blank : Row Field Val Rel) : Inv (new blank) where
  filed := by intro k a h; cases h
  detached := fun _ _ => rfl
  unused := fun _ _ => rfl
  flight := by intro a read key h; cases h
  deleting := by intro a h; cases h
  undoOk := by intro a u h; cases h

section

variable {m : Manager Field Val Rel} {a : ℕ}

theorem Inv.lt_next (h : Inv m) {k : String} (hk : (m.entry a).identityKey = some k) : a < m.next := by
  by_contra hle
  rw [h.unused a (not_lt.1 hle)] at hk
  cases hk

/-- Writing an entry under the key it has. -/
theorem Inv.setEntry (h : Inv m) {e : ManagedEntry Field Val Rel}
    (hkey : e.identityKey = (m.entry a).identityKey)
    (hstate : e.state = .detached → (m.entry a).identityKey = none) : Inv (m.setEntry a e) := by
  have hall : ∀ b, ((m.setEntry a e).entry b).identityKey = (m.entry b).identityKey := by
    intro b
    by_cases hb : b = a
    · subst hb; simpa using hkey
    · simp [Function.update_of_ne hb]
  refine ⟨?_, ?_, ?_, ?_, h.deleting, h.undoOk⟩
  · intro k b hb
    rw [hall]
    exact h.filed k b hb
  · intro b hb
    rw [hall]
    by_cases hba : b = a
    · subst hba
      exact hstate (by simpa using hb)
    · rw [entry_setEntry, Function.update_of_ne hba] at hb
      exact h.detached b hb
  · intro b hb
    rw [hall]
    exact h.unused b hb
  · intro b read key hf
    rw [hall]
    exact h.flight b read key hf

theorem Inv.evict (h : Inv m) : Inv (m.evict a) := by
  have hkey : ∀ b, b ≠ a → (m.evict a).entry b = m.entry b := fun b hb => by simp [Function.update_of_ne hb]
  have hself : ((m.evict a).entry a).identityKey = none := by simp [ManagedEntry.evicted]
  refine ⟨?_, ?_, ?_, ?_, by simpa using h.deleting, ?_⟩
  · intro k b hb
    rw [getManagedByKey_evict] at hb
    split_ifs at hb with hk
    have hfiled := h.filed k b hb
    have hne : b ≠ a := fun heq => hk (heq ▸ hfiled)
    rw [hkey b hne]
    exact hfiled
  · intro b hb
    by_cases hba : b = a
    · rw [hba]; exact hself
    · rw [hkey b hba] at hb ⊢
      exact h.detached b hb
  · intro b hb
    by_cases hba : b = a
    · rw [hba]; exact hself
    · rw [hkey b hba]
      exact h.unused b (by simpa using hb)
  · intro b read key hf
    simp only [inFlight_evict] at hf
    obtain ⟨hlt, hid⟩ := h.flight b read key hf
    refine ⟨by simpa using hlt, ?_⟩
    by_cases hba : b = a
    · right; rw [hba]; exact hself
    · rw [hkey b hba]
      exact hid
  · intro b u hu
    simp only [undo_evict] at hu
    simpa using h.undoOk b u hu

theorem Inv.detach (h : Inv m) : Inv (m.detach a) := by
  have he := h.evict (a := a)
  exact ⟨he.filed, he.detached, he.unused, he.flight, he.deleting, he.undoOk⟩

/-- A new entry, filed under a key nothing is filed under. -/
theorem Inv.fileManaged (h : Inv m) {entity : Row Field Val Rel} {snapshot : Option (Row Field Val Rel)}
    {state : EntityState} {persistedKey identityKey : Option String} (hstate : state ≠ .detached)
    (hkey : persistedKey = none ∨ persistedKey = identityKey) :
    Inv (m.fileManaged entity snapshot state persistedKey identityKey) := by
  have hor : identityKey.or persistedKey = identityKey := by
    rcases hkey with rfl | rfl
    · exact Option.or_none
    · exact Option.or_self
  unfold Manager.fileManaged
  simp only [hor]
  refine ⟨?_, ?_, ?_, ?_, ?_, ?_⟩
  · intro k b hb
    rw [getManagedByKey_refile] at hb
    simp only [entry_refile, entry_setEntry]
    split_ifs at hb with hk
    · cases hb
      rw [Function.update_self]
      exact hk
    · have hfiled := h.filed k b hb
      have hne : b ≠ m.next := fun heq => by
        rw [heq, h.unused _ le_rfl] at hfiled
        cases hfiled
      rw [Function.update_of_ne hne]
      exact hfiled
  · intro b hb
    simp only [entry_refile, entry_setEntry] at hb ⊢
    by_cases hba : b = m.next
    · subst hba
      rw [Function.update_self] at hb
      exact absurd hb hstate
    · rw [Function.update_of_ne hba] at hb ⊢
      exact h.detached b hb
  · intro b hb
    simp only [entry_refile, entry_setEntry, next_refile] at hb ⊢
    have hne : b ≠ m.next := by omega
    rw [Function.update_of_ne hne]
    exact h.unused b (by omega)
  · intro b read key hf
    simp only [inFlight_refile, inFlight_setEntry, entry_refile, entry_setEntry, next_refile] at hf ⊢
    obtain ⟨hlt, hid⟩ := h.flight b read key hf
    have hne : b ≠ m.next := by omega
    rw [Function.update_of_ne hne]
    exact ⟨by omega, hid⟩
  · intro b hb
    simp only [inFlight_refile, inFlight_setEntry, next_refile] at hb ⊢
    have := h.deleting b hb
    omega
  · intro b u hu
    simp only [undo_refile, undo_setEntry, next_refile] at hu ⊢
    have := h.undoOk b u hu
    exact ⟨by omega, this.2⟩

theorem Inv.overwrite (h : Inv m) (entity : Row Field Val Rel) :
    Inv (m.setEntry a ((m.entry a).overwriteMerged entity)) := by
  refine h.setEntry rfl fun hs => ?_
  simp only [ManagedEntry.overwriteMerged] at hs
  split_ifs at hs

theorem Inv.pushUndo (h : Inv m) {step : UndoStep Field Val Rel}
    (hstep : ∀ b u, step = .flush b u → b < m.next ∧ u.Ok) : Inv (m.pushUndo step) := by
  refine ⟨h.filed, h.detached, h.unused, h.flight, h.deleting, ?_⟩
  intro b u hu
  rcases List.mem_cons.1 hu with hu | hu
  · exact hstep b u hu.symm
  · exact h.undoOk b u hu

theorem Inv.clear (h : Inv m) : Inv m.clear := by
  obtain ⟨hentry, hnext, hflight, hundo⟩ := foldl_evict m.managedEntries m
  have hkey : ∀ b, (m.clear.entry b).identityKey = (m.entry b).identityKey ∨
      (m.clear.entry b).identityKey = none := by
    intro b
    simp only [Manager.clear, hentry b]
    split_ifs
    · exact Or.inr rfl
    · exact Or.inl rfl
  refine ⟨?_, ?_, ?_, ?_, ?_, ?_⟩
  · intro k b hb
    cases hb
  · intro b hb
    simp only [Manager.clear, hentry b] at hb ⊢
    split_ifs at hb ⊢ with hmem
    · rfl
    · exact h.detached b hb
  · intro b hb
    simp only [Manager.clear, hnext] at hb
    rcases hkey b with hk | hk
    · rw [hk]; exact h.unused b hb
    · exact hk
  · intro b read key hf
    simp only [Manager.clear, hflight] at hf
    obtain ⟨hlt, hid⟩ := h.flight b read key hf
    refine ⟨by simpa only [Manager.clear, hnext] using hlt, ?_⟩
    rcases hkey b with hk | hk
    · rwa [hk]
    · exact Or.inr hk
  · intro b hb
    simp only [Manager.clear, hflight] at hb
    simpa only [Manager.clear, hnext] using h.deleting b hb
  · intro b u hu
    simp only [Manager.clear, hundo] at hu
    simpa only [Manager.clear, hnext] using h.undoOk b u hu

theorem Inv.setInFlight (h : Inv m) (flight : Option (InFlight Field Val Rel))
    (hwrite : ∀ b read key, flight = some (.write b read key) →
      b < m.next ∧ ((m.entry b).identityKey = key ∨ (m.entry b).identityKey = none))
    (hremoval : ∀ b, flight = some (.removal b) → b < m.next) : Inv { m with inFlight := flight } :=
  ⟨h.filed, h.detached, h.unused, hwrite, hremoval, h.undoOk⟩

theorem Inv.endFlight (h : Inv m) : Inv { m with inFlight := none } :=
  h.setInFlight none (by simp) (by simp)

variable {model : EntityModel Field Val Rel}

theorem Inv.persist (h : Inv m) (entity : Row Field Val Rel) : Inv (m.persist model entity) := by
  unfold Manager.persist
  dsimp only
  split
  · exact h.overwrite entity
  · exact h.fileManaged (by simp) (Or.inl rfl)

theorem Inv.merge (h : Inv m) (entity : Row Field Val Rel) (tracked : Option (Row Field Val Rel)) :
    Inv (m.merge model entity tracked) := by
  unfold Manager.merge
  split
  · exact h.persist entity
  · dsimp only
    split
    · exact h.overwrite entity
    · exact h.fileManaged (by simp) (Or.inr rfl)

theorem Inv.attachPersistedManaged (h : Inv m) (entity : Row Field Val Rel) (recorded : Bool) :
    Inv (m.attachPersistedManaged model entity recorded) := by
  unfold Manager.attachPersistedManaged
  dsimp only
  split
  · exact h
  · have hfiled : Inv (m.fileManaged entity (some entity) .managed (some (model.pkKey entity))
        (some (model.pkKey entity))) := h.fileManaged (by simp) (Or.inr rfl)
    split
    · exact hfiled.pushUndo (by simp)
    · exact hfiled

theorem Inv.flushBegin (h : Inv m) (ha : a < m.next) {m' : Manager Field Val Rel}
    (hm : m.flushBegin model a = .ok m') : Inv m' := by
  rcases flushBegin_cases hm with rfl | ⟨-, rfl⟩ | ⟨-, rfl⟩
  · exact h
  · apply h.setInFlight
    · simp
    · rintro b ⟨⟩
      exact ha
  · apply h.setInFlight
    · rintro b read key ⟨⟩
      exact ⟨ha, Or.inl rfl⟩
    · simp

/-- Filing an entry under a new key, and writing it so, where it was filed under the
old key only. -/
theorem Inv.move (h : Inv m) (ha : a < m.next) {e : ManagedEntry Field Val Rel} {before after : Option String}
    (hbefore : (m.entry a).identityKey = before ∨ (m.entry a).identityKey = none)
    (hkey : e.identityKey = after) (hstate : e.state ≠ .detached)
    (hflight : m.inFlight = none) :
    Inv ((m.moveManagedEntry a before after).setEntry a e) := by
  refine ⟨?_, ?_, ?_, ?_, ?_, ?_⟩
  · intro k b hb
    rw [getManagedByKey_setEntry, getManagedByKey_moveManagedEntry] at hb
    simp only [entry_setEntry, entry_moveManagedEntry]
    split_ifs at hb with hafter hold
    · cases hb
      rw [Function.update_self, hkey, hafter]
    · have hfiled := h.filed k b hb
      have hne : b ≠ a := by
        rintro rfl
        rcases hbefore with hk | hk
        · exact hold (hk ▸ hfiled)
        · rw [hk] at hfiled; cases hfiled
      rw [Function.update_of_ne hne]
      exact hfiled
  · intro b hb
    simp only [entry_setEntry, entry_moveManagedEntry] at hb ⊢
    by_cases hba : b = a
    · subst hba
      rw [Function.update_self] at hb
      exact absurd hb hstate
    · rw [Function.update_of_ne hba] at hb ⊢
      exact h.detached b hb
  · intro b hb
    simp only [entry_setEntry, entry_moveManagedEntry, next_setEntry, next_moveManagedEntry] at hb ⊢
    rw [Function.update_of_ne (by omega)]
    exact h.unused b hb
  · intro b read key hf
    simp [hflight] at hf
  · intro b hf
    simp [hflight] at hf
  · intro b u hu
    simp only [undo_setEntry, undo_moveManagedEntry] at hu
    simpa using h.undoOk b u hu

theorem removal_ok (e : ManagedEntry Field Val Rel) (h : e.state = .detached → e.identityKey = none) :
    e.removalUndo.Ok :=
  ⟨fun hs => ⟨rfl, h hs⟩, fun _ _ => rfl⟩

theorem Inv.flushRemoval (h : Inv m) (ha : a < m.next) : Inv (m.flushRemoval a) := by
  apply Inv.pushUndo
  · apply Inv.setEntry
    · exact h.endFlight.evict
    · rfl
    · intro _
      simp [ManagedEntry.evicted]
  · rintro b u ⟨⟩
    exact ⟨by simpa using ha, removal_ok _ (h.detached a)⟩

variable [DecidableEq Field] [DecidableEq Val]

theorem Inv.rebase (h : Inv m) (saved : Row Field Val Rel) : Inv (m.rebase model a saved) := by
  unfold Manager.rebase
  split
  · exact h
  · apply Inv.pushUndo
    · exact h.setEntry rfl (h.detached a)
    · intro b u hu
      cases hu

theorem Inv.stored (h : Inv m) (saved : Row Field Val Rel) : Inv (m.stored model saved) := by
  unfold Manager.stored
  split
  · exact h.rebase saved
  · exact h

theorem written_ok (e : ManagedEntry Field Val Rel) (read saved : Row Field Val Rel) :
    (e.written model read saved).2.Ok := by
  constructor
  · intro hs
    have hs' : e.state = .detached := hs
    simp [ManagedEntry.written, hs']
  · intro hnone hsome
    simp only [ManagedEntry.written] at hnone hsome ⊢
    split_ifs at hnone with hs
    exact absurd hnone hsome

variable [DecidableEq Rel]

theorem Inv.flushWrite (h : Inv m) {read saved : Row Field Val Rel} {previousKey : Option String}
    (hflight : m.inFlight = some (.write a read previousKey)) {m' : Manager Field Val Rel}
    (hm : m.flushWrite model a read previousKey saved = .ok m') : Inv m' := by
  obtain ⟨ha, hid⟩ := h.flight a read previousKey hflight
  have hnone := h.endFlight
  unfold Manager.flushWrite at hm
  dsimp only at hm
  split_ifs at hm with hrel hs
  all_goals cases hm; apply Inv.pushUndo
  · -- the entry was detached meanwhile and has no key
    refine hnone.setEntry ?_ fun _ => h.detached a hs
    simp [ManagedEntry.written, hs]
  · rintro b u ⟨⟩
    exact ⟨ha, written_ok _ _ _⟩
  · apply hnone.move ha hid
    · simp [ManagedEntry.written, hs]
    · simp only [ManagedEntry.written]
      split_ifs with hor
      · exact hs
      · simp
    · rfl
  · rintro b u ⟨⟩
    exact ⟨by simpa using ha, written_ok _ _ _⟩

theorem Inv.undoFlush (h : Inv m) (ha : a < m.next) (hflight : m.inFlight = none)
    {u : FlushUndo Field Val Rel} (hu : u.Ok) : Inv (m.undoFlush model a u) := by
  have hm : Inv ((if (m.entry a).identityKey = u.identityKey.2 ∧ u.identityKey.1 ≠ u.identityKey.2 then
      m.moveManagedEntry a u.identityKey.2 u.identityKey.1 else m).setEntry a
        ((m.entry a).undone model u)) := by
    by_cases hmove : (m.entry a).identityKey = u.identityKey.2 ∧ u.identityKey.1 ≠ u.identityKey.2
    · rw [if_pos hmove]
      have hbefore : u.state.1 ≠ .detached := fun hs => hmove.2 (hu.1 hs).2
      apply h.move ha (Or.inl hmove.1)
      · simp [ManagedEntry.undone, hmove.1]
      · simp only [ManagedEntry.undone]
        split_ifs with hs
        · exact hbefore
        · -- a detached entry has no key, and only an eviction leaves none
          intro hd
          have hnone : u.identityKey.2 = none := hmove.1.symm.trans (h.detached a hd)
          exact hs (hd.trans (hu.2 hnone (hnone ▸ hmove.2)).symm)
      · exact hflight
    · rw [if_neg hmove]
      have hkey : ((m.entry a).undone model u).identityKey = (m.entry a).identityKey := by
        simp only [ManagedEntry.undone]
        split_ifs with hk
        · by_contra hne
          exact hmove ⟨hk, fun heq => hne (heq.trans hk.symm)⟩
        · rfl
      refine h.setEntry hkey fun hs => ?_
      simp only [ManagedEntry.undone] at hs
      split_ifs at hs with hafter
      · exact h.detached a (hafter.trans (hu.1 hs).1)
      · exact h.detached a hs
  unfold Manager.undoFlush
  dsimp only
  split
  · obtain ⟨entries, heq⟩ := reregisterManagedEntry_eq (m := _) (a := a)
    rw [heq]
    exact ⟨hm.filed, hm.detached, hm.unused, hm.flight, hm.deleting, hm.undoOk⟩
  · exact hm

theorem Inv.runUndo (h : Inv m) (hflight : m.inFlight = none) {step : UndoStep Field Val Rel}
    (hstep : ∀ b u, step = .flush b u → b < m.next ∧ u.Ok) : Inv (m.runUndo model step) := by
  cases step with
  | flush b u => exact h.undoFlush (hstep b u rfl).1 hflight (hstep b u rfl).2
  | rebase b changes loaded => exact h.setEntry rfl (h.detached b)
  | attach key b =>
    simp only [Manager.runUndo]
    split_ifs
    · exact h.detach
    · exact h

theorem Inv.undoLast (h : Inv m) (hflight : m.inFlight = none) : Inv (m.undoLast model) := by
  unfold Manager.undoLast
  cases hundo : m.undo with
  | nil => exact h
  | cons step rest =>
    have hr : Inv (m.runUndo model step) := by
      refine h.runUndo hflight fun b u hs => h.undoOk b u ?_
      rw [hundo, hs]
      exact List.mem_cons_self
    obtain ⟨-, hnext, -⟩ := runUndo_rest model m step
    refine ⟨hr.filed, hr.detached, hr.unused, hr.flight, hr.deleting, ?_⟩
    intro b u hu
    simp only [hnext]
    exact h.undoOk b u (hundo ▸ List.mem_cons_of_mem _ hu)

theorem Inv.step (h : Inv m) (op : ManagerOp Field Val Rel) : Inv (m.step model op) := by
  cases op with
  | persist entity => exact h.persist entity
  | merge entity tracked => exact h.merge entity tracked
  | attach entity recorded => exact h.attachPersistedManaged entity recorded
  | edit b changes => exact h.setEntry rfl (h.detached b)
  | editRelations b relations => exact h.setEntry rfl (h.detached b)
  | remove b => exact h.setEntry rfl (by simp [ManagedEntry.markRemoved])
  | detach b => exact h.detach
  | clear => exact h.clear
  | flushBegin b =>
    simp only [Manager.step]
    split_ifs with hbusy
    · exact h
    · cases hm : m.flushBegin model b with
      | error e => exact h
      | ok m' => exact h.flushBegin (by omega) hm
  | stored saved => exact h.stored saved
  | flushWritten saved =>
    simp only [Manager.step]
    split
    · next b read previousKey hflight =>
      cases hm : m.flushWrite model b read previousKey saved with
      | error e => exact h
      | ok m' => exact h.flushWrite hflight hm
    · exact h
  | flushDeleted =>
    simp only [Manager.step]
    split
    · next b hflight => exact h.flushRemoval (h.deleting b hflight)
    · exact h
  | flushAbandoned => exact h.endFlight
  | flushEnd => exact ⟨h.filed, h.detached, h.unused, h.flight, h.deleting, h.undoOk⟩
  | undoLast =>
    simp only [Manager.step]
    split_ifs with hbusy
    · exact h
    · exact h.undoLast (by simpa using hbusy)
  | commit =>
    simp only [Manager.step]
    split_ifs
    · exact h
    · exact ⟨h.filed, h.detached, h.unused, h.flight, h.deleting, by simp⟩

theorem Inv.run (h : Inv m) (ops : List (ManagerOp Field Val Rel)) : Inv (m.run model ops) := by
  induction ops generalizing m with
  | nil => exact h
  | cons op rest ih => exact ih (h.step op)

end

/-- Every entry that has a key is found under it. -/
def Found (m : Manager Field Val Rel) : Prop :=
  ∀ a k, (m.entry a).identityKey = some k → m.getManagedByKey k = some a

section

variable {m : Manager Field Val Rel} {a : ℕ}

theorem Found.setEntry (h : Found m) {e : ManagedEntry Field Val Rel}
    (hkey : e.identityKey = (m.entry a).identityKey) : Found (m.setEntry a e) := by
  intro b k hb
  apply h b k
  by_cases hba : b = a
  · subst hba
    rw [← hkey]
    simpa using hb
  · simpa [Function.update_of_ne hba] using hb

/-- Moving an entry from its key to one no other entry has. -/
theorem Found.move (h : Found m) {e : ManagedEntry Field Val Rel} {before after : Option String}
    (hkey : e.identityKey = after)
    (hfree : ∀ b, b ≠ a → ∀ k, (m.entry b).identityKey = some k → after ≠ some k ∧ before ≠ some k) :
    Found ((m.moveManagedEntry a before after).setEntry a e) := by
  intro b k hb
  rw [getManagedByKey_setEntry, getManagedByKey_moveManagedEntry]
  by_cases hba : b = a
  · subst hba
    rw [entry_setEntry, Function.update_self, hkey] at hb
    rw [if_pos hb]
  · rw [entry_setEntry, entry_moveManagedEntry, Function.update_of_ne hba] at hb
    obtain ⟨h1, h2⟩ := hfree b hba k hb
    rw [if_neg h1, if_neg h2]
    exact h b k hb

/-- In a map that finds every entry, two entries do not share a key. -/
theorem Found.ne_of_ne (h : Found m) {b : ℕ} (hne : b ≠ a) {k : String}
    (hb : (m.entry b).identityKey = some k) : (m.entry a).identityKey ≠ some k := by
  intro ha
  have := (h b k hb).symm.trans (h a k ha)
  exact hne (Option.some.inj this)

theorem Found.evict (h : Found m) : Found (m.evict a) := by
  intro b k hb
  rw [entry_evict] at hb
  by_cases hba : b = a
  · subst hba
    simp [ManagedEntry.evicted] at hb
  · rw [Function.update_of_ne hba] at hb
    rw [getManagedByKey_evict, if_neg (h.ne_of_ne hba hb)]
    exact h b k hb

theorem Found.fileManaged (h : Found m) {entity : Row Field Val Rel} {snapshot : Option (Row Field Val Rel)}
    {state : EntityState} {persistedKey identityKey : Option String}
    (hkey : persistedKey = none ∨ persistedKey = identityKey)
    (hfree : ∀ k, identityKey = some k → m.getManagedByKey k = none) :
    Found (m.fileManaged entity snapshot state persistedKey identityKey) := by
  have hor : identityKey.or persistedKey = identityKey := by
    rcases hkey with rfl | rfl
    · exact Option.or_none
    · exact Option.or_self
  intro b k hb
  unfold Manager.fileManaged at hb ⊢
  simp only [hor, entry_refile, entry_setEntry] at hb
  rw [getManagedByKey_refile]
  by_cases hba : b = m.next
  · subst hba
    rw [Function.update_self] at hb
    simp only at hb
    rw [if_pos hb]
  · rw [Function.update_of_ne hba] at hb
    have hfound := h b k hb
    rw [if_neg ?_]
    · exact hfound
    · intro hk
      rw [hfree k hk] at hfound
      cases hfound

theorem found_clear (hall : ∀ b, (m.entry b).identityKey ≠ none → b ∈ m.managedEntries) :
    Found m.clear := by
  obtain ⟨hentry, -⟩ := foldl_evict m.managedEntries m
  intro b k hb
  simp only [Manager.clear, hentry b] at hb
  split_ifs at hb with hmem
  · cases hb
  · exact absurd (hall b (by rw [hb]; simp)) hmem

theorem keepsOthers_evict (h : Inv m) (hf : Found m) {b : ℕ} {k : String} (hne : b ≠ a)
    (hb : m.getManagedByKey k = some b) : (m.evict a).getManagedByKey k = some b := by
  rw [getManagedByKey_evict, if_neg (hf.ne_of_ne hne (h.filed k b hb))]
  exact hb

theorem Found.pushUndo (h : Found m) (step : UndoStep Field Val Rel) : Found (m.pushUndo step) := h

theorem Found.flushRemoval (h : Found m) : Found (m.flushRemoval a) := by
  apply Found.pushUndo
  apply Found.setEntry
  · exact Found.evict (m := { m with inFlight := none }) h
  · rfl

variable {model : EntityModel Field Val Rel}

theorem Found.persist (h : Found m) (entity : Row Field Val Rel) : Found (m.persist model entity) := by
  unfold Manager.persist
  dsimp only
  split
  · exact h.setEntry rfl
  · next hnone =>
    refine h.fileManaged (Or.inl rfl) fun k hk => ?_
    rw [hk] at hnone
    exact hnone

theorem Found.merge (h : Found m) (entity : Row Field Val Rel) (tracked : Option (Row Field Val Rel)) :
    Found (m.merge model entity tracked) := by
  unfold Manager.merge
  split
  · exact h.persist entity
  · dsimp only
    split
    · exact h.setEntry rfl
    · next hnone =>
      refine h.fileManaged (Or.inr rfl) fun k hk => ?_
      cases hk
      exact hnone

theorem Found.attachPersistedManaged (h : Found m) (entity : Row Field Val Rel) (recorded : Bool) :
    Found (m.attachPersistedManaged model entity recorded) := by
  unfold Manager.attachPersistedManaged
  dsimp only
  split
  · exact h
  · next hnone =>
    have hfiled : Found (m.fileManaged entity (some entity) .managed (some (model.pkKey entity))
        (some (model.pkKey entity))) := by
      refine h.fileManaged (Or.inr rfl) fun k hk => ?_
      cases hk
      exact hnone
    split
    · exact hfiled
    · exact hfiled

variable [DecidableEq Field] [DecidableEq Val]

theorem Found.stored (h : Found m) (saved : Row Field Val Rel) : Found (m.stored model saved) := by
  unfold Manager.stored Manager.rebase
  split
  · split
    · exact h
    · exact Found.setEntry h rfl
  · exact h

variable [DecidableEq Rel] (model)

/-- A step that files no entry under a key another entry has, and clears no entry
that is not registered. -/
def Safe (m : Manager Field Val Rel) : ManagerOp Field Val Rel → Prop
  | .flushWritten saved => ∀ a read previousKey, m.inFlight = some (.write a read previousKey) →
      ∀ b, b ≠ a → ∀ k, (m.entry b).identityKey = some k → k ≠ model.pkKey saved ∧ previousKey ≠ some k
  | .undoLast => ∀ a u rest, m.undo = .flush a u :: rest →
      -- only an undo step that files its entry again can meet another entry's key
      (m.entry a).identityKey = u.identityKey.2 → u.identityKey.1 ≠ u.identityKey.2 →
      ∀ b, b ≠ a → ∀ k, (m.entry b).identityKey = some k → u.identityKey.1 ≠ some k
  | .clear => ∀ b, (m.entry b).identityKey ≠ none → b ∈ m.managedEntries
  | _ => True

/-- Every step of the run is safe where it happens. -/
def SafeRun (m : Manager Field Val Rel) : List (ManagerOp Field Val Rel) → Prop
  | [] => True
  | op :: rest => Safe model m op ∧ SafeRun (m.step model op) rest

/-- The entry an operation detaches, evicts or undoes. -/
def target (m : Manager Field Val Rel) : ManagerOp Field Val Rel → Option ℕ
  | .detach a => some a
  | .flushDeleted =>
    match m.inFlight with
    | some (.removal a) => some a
    | _ => none
  | .undoLast =>
    match m.undo with
    | .flush a _ :: _ => some a
    | .rebase a _ _ :: _ => some a
    | .attach _ a :: _ => some a
    | [] => none
  | _ => none

/-- The operation leaves every entry but its own filed where it was. -/
def KeepsOthers (m : Manager Field Val Rel) (op : ManagerOp Field Val Rel) : Prop :=
  ∀ a, m.target op = some a → ∀ b k, b ≠ a → m.getManagedByKey k = some b →
    (m.step model op).getManagedByKey k = some b

variable {model}

theorem Found.flushWrite (h : Found m) {read saved : Row Field Val Rel} {previousKey : Option String}
    (hfree : ∀ b, b ≠ a → ∀ k, (m.entry b).identityKey = some k → k ≠ model.pkKey saved ∧ previousKey ≠ some k)
    {m' : Manager Field Val Rel} (hm : m.flushWrite model a read previousKey saved = .ok m') : Found m' := by
  unfold Manager.flushWrite at hm
  dsimp only at hm
  split_ifs at hm with hrel hs
  · cases hm
    apply Found.setEntry (m := { m with inFlight := none }) h
    simp [ManagedEntry.written, hs]
  · cases hm
    apply Found.move (m := { m with inFlight := none }) h
    · simp [ManagedEntry.written, hs]
    · intro b hb k hk
      obtain ⟨h1, h2⟩ := hfree b hb k hk
      exact ⟨fun heq => h1 (Option.some.inj heq).symm, h2⟩

theorem getManagedByKey_undoFlush (u : FlushUndo Field Val Rel) (k : String) :
    (m.undoFlush model a u).getManagedByKey k =
      if (m.entry a).identityKey = u.identityKey.2 ∧ u.identityKey.1 ≠ u.identityKey.2 then
        (m.moveManagedEntry a u.identityKey.2 u.identityKey.1).getManagedByKey k
      else m.getManagedByKey k := by
  have hset : ∀ m' : Manager Field Val Rel, (m'.reregisterManagedEntry a).getManagedByKey k =
      m'.getManagedByKey k := by
    intro m'
    obtain ⟨entries, heq⟩ := reregisterManagedEntry_eq m' a
    rw [heq]
    rfl
  unfold Manager.undoFlush
  dsimp only
  split_ifs <;> simp [hset]

theorem Found.undoFlush (h : Found m) {u : FlushUndo Field Val Rel}
    (hfree : (m.entry a).identityKey = u.identityKey.2 → u.identityKey.1 ≠ u.identityKey.2 →
      ∀ b, b ≠ a → ∀ k, (m.entry b).identityKey = some k → u.identityKey.1 ≠ some k) :
    Found (m.undoFlush model a u) := by
  obtain ⟨-, -, -, hentry⟩ := undoFlush_rest model m a u
  intro b k hb
  rw [hentry] at hb
  rw [getManagedByKey_undoFlush]
  by_cases hmove : (m.entry a).identityKey = u.identityKey.2 ∧ u.identityKey.1 ≠ u.identityKey.2
  · rw [if_pos hmove]
    have hfound : Found ((m.moveManagedEntry a u.identityKey.2 u.identityKey.1).setEntry a
        ((m.entry a).undone model u)) :=
      h.move (by simp [ManagedEntry.undone, hmove.1])
        fun b hb k hk => ⟨hfree hmove.1 hmove.2 b hb k hk, hmove.1 ▸ h.ne_of_ne hb hk⟩
    exact hfound b k (by simpa using hb)
  · rw [if_neg hmove]
    refine h.setEntry (a := a) (e := (m.entry a).undone model u) ?_ b k (by simpa using hb)
    simp only [ManagedEntry.undone]
    split_ifs with hk
    · by_contra hne
      exact hmove ⟨hk, fun heq => hne (heq.trans hk.symm)⟩
    · rfl

theorem Found.undoLast (h : Found m) (hsafe : Safe model m .undoLast) : Found (m.undoLast model) := by
  unfold Manager.undoLast
  cases hundo : m.undo with
  | nil => exact h
  | cons step rest =>
    cases step with
    | flush b u => exact Found.undoFlush h (hsafe b u rest hundo)
    | rebase b changes loaded => exact Found.setEntry h rfl
    | attach key b =>
      simp only [Manager.runUndo]
      split_ifs
      · exact Found.evict h
      · exact h

theorem Found.step (h : Found m) (op : ManagerOp Field Val Rel) (hsafe : Safe model m op) :
    Found (m.step model op) := by
  cases op with
  | persist entity => exact h.persist entity
  | merge entity tracked => exact h.merge entity tracked
  | attach entity recorded => exact h.attachPersistedManaged entity recorded
  | edit b changes => exact h.setEntry rfl
  | editRelations b relations => exact h.setEntry rfl
  | remove b => exact h.setEntry rfl
  | detach b => exact h.evict
  | clear => exact found_clear hsafe
  | flushBegin b =>
    simp only [Manager.step]
    split_ifs
    · exact h
    · cases hm : m.flushBegin model b with
      | error e => exact h
      | ok m' => rcases flushBegin_cases hm with rfl | ⟨-, rfl⟩ | ⟨-, rfl⟩ <;> exact h
  | stored saved => exact h.stored saved
  | flushWritten saved =>
    simp only [Manager.step]
    split
    · next b read previousKey hflight =>
      cases hm : m.flushWrite model b read previousKey saved with
      | error e => exact h
      | ok m' => exact h.flushWrite (hsafe b read previousKey hflight) hm
    · exact h
  | flushDeleted =>
    simp only [Manager.step]
    split
    · exact h.flushRemoval
    · exact h
  | flushAbandoned => exact h
  | flushEnd => exact h
  | undoLast =>
    simp only [Manager.step]
    split_ifs
    · exact h
    · exact h.undoLast hsafe
  | commit =>
    simp only [Manager.step]
    split_ifs
    · exact h
    · exact h

theorem keepsOthers (h : Inv m) (hf : Found m) {op : ManagerOp Field Val Rel} (hsafe : Safe model m op) :
    KeepsOthers model m op := by
  intro a ht b k hne hb
  have hkey := h.filed k b hb
  cases op with
  | detach a' =>
    cases ht
    exact keepsOthers_evict h hf hne hb
  | flushDeleted =>
    cases hflight : m.inFlight with
    | none => simp [target, hflight] at ht
    | some flight =>
      cases flight with
      | write _ _ _ => simp [target, hflight] at ht
      | removal a' =>
        simp only [target, hflight, Option.some.injEq] at ht
        subst ht
        simp only [Manager.step, hflight]
        exact keepsOthers_evict (m := { m with inFlight := none }) h.endFlight hf hne hb
  | undoLast =>
    simp only [Manager.step]
    split_ifs with hbusy
    · exact hb
    · cases hundo : m.undo with
      | nil => simp [target, hundo] at ht
      | cons step rest =>
        simp only [Manager.undoLast, hundo]
        cases step with
        | flush a' u =>
          simp only [target, hundo, Option.some.injEq] at ht
          subst ht
          refine (getManagedByKey_undoFlush (m := m) (a := a') u k).trans ?_
          split_ifs with hmove
          · rw [getManagedByKey_moveManagedEntry, if_neg (hsafe a' u rest hundo hmove.1 hmove.2 b hne k hkey),
              if_neg (hmove.1 ▸ hf.ne_of_ne hne hkey)]
            exact hb
          · exact hb
        | rebase a' changes loaded => exact hb
        | attach key a' =>
          simp only [target, hundo, Option.some.injEq] at ht
          subst ht
          simp only [Manager.runUndo]
          split_ifs
          · exact keepsOthers_evict h hf hne hb
          · exact hb
  | _ => cases ht

theorem inv_found_run (h : Inv m) (hf : Found m) (ops : List (ManagerOp Field Val Rel))
    (hsafe : SafeRun model m ops) : Inv (m.run model ops) ∧ Found (m.run model ops) := by
  induction ops generalizing m with
  | nil => exact ⟨h, hf⟩
  | cons op rest ih => exact ih (h.step op) (hf.step op hsafe.1) hsafe.2

theorem safeRun_append {ops ops' : List (ManagerOp Field Val Rel)} :
    SafeRun model m (ops ++ ops') ↔ SafeRun model m ops ∧ SafeRun model (m.run model ops) ops' := by
  induction ops generalizing m with
  | nil => simp [SafeRun, Manager.run]
  | cons op rest ih => simp only [List.cons_append, SafeRun, ih, and_assoc]; rfl

end

end Manager

section

variable [DecidableEq Field] [DecidableEq Val] [DecidableEq Rel]

/-- In every state of every run, what the map files under a key has that key and is
not detached; and in a run of safe steps no operation that detaches, evicts or undoes
one entry unfiles another. -/
theorem managed_map_consistent (model : EntityModel Field Val Rel) (blank : Row Field Val Rel)
    (ops : List (ManagerOp Field Val Rel)) :
    (∀ k a, ((Manager.new blank).run model ops).getManagedByKey k = some a →
      (((Manager.new blank).run model ops).entry a).identityKey = some k ∧
        (((Manager.new blank).run model ops).entry a).state ≠ .detached) ∧
    ∀ op, Manager.SafeRun model (Manager.new blank) (ops ++ [op]) →
      Manager.KeepsOthers model ((Manager.new blank).run model ops) op := by
  constructor
  · intro k a hk
    have hinv : Manager.Inv ((Manager.new blank).run model ops) := (Manager.inv_new blank).run ops
    have hid := hinv.filed k a hk
    refine ⟨hid, fun hs => ?_⟩
    rw [hinv.detached a hs] at hid
    cases hid
  · intro op hsafe
    obtain ⟨hops, hop, -⟩ := Manager.safeRun_append.1 hsafe
    have hfound : Manager.Found (Manager.new blank) := by
      intro a k hk
      cases hk
    obtain ⟨hinv, hf⟩ := Manager.inv_found_run (Manager.inv_new blank) hfound ops hops
    exact Manager.keepsOthers hinv hf hop

/-- Two rows loaded, the second saved, the first removed, and that removal undone. -/
def removalUndone : List (ManagerOp Unit String Unit) :=
  [.attach (keyedRow "j") false, .attach (keyedRow "k") false, .flushBegin 1, .flushWritten (keyedRow "k"),
    .flushEnd, .remove 0, .flushBegin 0, .flushDeleted, .flushEnd, .undoLast]

theorem removalUndone_safe :
    Manager.SafeRun keyedModel (Manager.new (keyedRow "")) (removalUndone ++ [.detach 0]) := by
  refine ⟨trivial, trivial, trivial, ?saved, trivial, trivial, trivial, trivial, trivial, ?undone, trivial, trivial⟩
  case saved =>
    -- the save moves the second entry under the key it has
    intro a read previousKey hflight b hne k hk
    obtain ⟨rfl, -, rfl⟩ := InFlight.write.inj (Option.some.inj hflight)
    have hinv : Manager.Inv ((Manager.new (keyedRow "")).run keyedModel (removalUndone.take 3)) :=
      (Manager.inv_new _).run _
    have hlt : b < 2 := hinv.lt_next hk
    obtain rfl : b = 0 := by omega
    obtain rfl : "j" = k := Option.some.inj hk
    decide
  case undone =>
    -- the undo files the first entry again, and the second has another key
    intro a u rest hundo _ _ b hne k hk
    obtain ⟨rfl, rfl⟩ := UndoStep.flush.inj (List.cons.inj hundo).1
    have hinv : Manager.Inv ((Manager.new (keyedRow "")).run keyedModel (removalUndone.take 9)) :=
      (Manager.inv_new _).run _
    have hlt : b < 2 := hinv.lt_next hk
    obtain rfl : b = 1 := by omega
    obtain rfl : "k" = k := Option.some.inj hk
    decide

/-- Detaching the entry the undo filed again keeps the other filed. -/
theorem loaded_detach_keeps :
    Manager.KeepsOthers keyedModel ((Manager.new (keyedRow "")).run keyedModel removalUndone) (.detach 0) :=
  (managed_map_consistent keyedModel (keyedRow "") removalUndone).2 (.detach 0) removalUndone_safe

/-- A row removed and flushed, then persisted again under the same key: two handles
now have that key once the flush is rolled back. -/
def repersisted : List (ManagerOp Unit String Unit) :=
  [.attach (keyedRow "k") false, .remove 0, .flushBegin 0, .flushDeleted, .flushEnd,
    .persist (keyedRow "k"), .undoLast]

/-- Detaching the second handle then unfiles the first. -/
theorem repersisted_detach_unfiles :
    ((Manager.new (keyedRow "")).run keyedModel repersisted).getManagedByKey "k" = some 0 ∧
      (((Manager.new (keyedRow "")).run keyedModel repersisted).step keyedModel
        (.detach 1)).getManagedByKey "k" = none ∧
      ¬ Manager.KeepsOthers keyedModel ((Manager.new (keyedRow "")).run keyedModel repersisted) (.detach 1) := by
  have hbefore : ((Manager.new (keyedRow "")).run keyedModel repersisted).getManagedByKey "k" = some 0 := by
    decide
  have hafter : (((Manager.new (keyedRow "")).run keyedModel repersisted).step keyedModel
      (.detach 1)).getManagedByKey "k" = none := by
    decide
  refine ⟨hbefore, hafter, fun h => ?_⟩
  have := h 1 rfl 0 "k" (by decide) hbefore
  rw [hafter] at this
  cases this

end

end TideOrm
