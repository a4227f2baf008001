import TideOrm.Spec.IdentityMap
import Mathlib.Data.List.Induction

/-! A unit of work rolled back gives the identity map back, key by key, unless a key
that was not held is first registered and then put or removed: the log then takes the
row read inside the unit for what the key held before it. -/

namespace TideOrm

open Lib

variable {Key Entity : Type} [DecidableEq Key]

section Condition

variable (info : IdentityMeta Key Entity) (k : Key)

def IdentityOp.Registers : IdentityOp Key Entity → Prop
  | .register entity => info.pkIsNew (info.attachDatabase entity) = false ∧
      info.identityKey (info.attachDatabase entity) = k
  | _ => False

/-- The operations that the log covers. -/
def IdentityOp.Writes : IdentityOp Key Entity → Prop
  | .put entity => info.pkIsNew (info.attachDatabase entity) = false ∧
      info.identityKey (info.attachDatabase entity) = k
  | .remove key => key = k
  | _ => False

/-- A registration of the key comes before the first `put` or `remove` of it. -/
def RegisteredThenWritten (ops : List (IdentityOp Key Entity)) : Prop :=
  ∃ before op after, ops = before ++ op :: after ∧ op.Writes info k ∧
    (∃ o ∈ before, o.Registers info k) ∧ ∀ o ∈ before, ¬ o.Writes info k

omit [DecidableEq Key] in
theorem registeredThenWritten_snoc (ops : List (IdentityOp Key Entity)) (op : IdentityOp Key Entity) :
    RegisteredThenWritten info k (ops ++ [op]) ↔ RegisteredThenWritten info k ops ∨
      (op.Writes info k ∧ (∃ o ∈ ops, o.Registers info k) ∧ ∀ o ∈ ops, ¬ o.Writes info k) := by
  constructor
  · rintro ⟨before, first, after, heq, hw, hr, hn⟩
    rcases List.eq_nil_or_concat after with rfl | ⟨after', last, rfl⟩
    · obtain ⟨rfl, hlast⟩ := List.append_inj' heq rfl
      obtain rfl := List.singleton_inj.1 hlast
      exact Or.inr ⟨hw, hr, hn⟩
    · refine Or.inl ⟨before, first, after', ?_, hw, hr, hn⟩
      rw [List.concat_eq_append, ← List.cons_append, ← List.append_assoc] at heq
      exact (List.append_inj' heq rfl).1
  · rintro (⟨before, first, after, rfl, hw, hr, hn⟩ | ⟨hw, hr, hn⟩)
    · exact ⟨before, first, after ++ [op], by simp, hw, hr, hn⟩
    · exact ⟨ops, op, [], rfl, hw, hr, hn⟩

omit [DecidableEq Key] in
theorem RegisteredThenWritten.writes {info : IdentityMeta Key Entity} {k : Key}
    {ops : List (IdentityOp Key Entity)} (h : RegisteredThenWritten info k ops) :
    ∃ op ∈ ops, op.Writes info k := by
  obtain ⟨before, op, after, rfl, hw, -, -⟩ := h
  exact ⟨op, by simp, hw⟩

def IdentityOp.isClear : IdentityOp Key Entity → Bool
  | .clear => true
  | _ => false

/-- The operations since the last `clear`. -/
def sinceClear (ops : List (IdentityOp Key Entity)) : List (IdentityOp Key Entity) :=
  ops.foldl (fun since op => if op.isClear then [] else since ++ [op]) []

omit [DecidableEq Key] in
theorem sinceClear_snoc (ops : List (IdentityOp Key Entity)) (op : IdentityOp Key Entity) :
    sinceClear (ops ++ [op]) = if op.isClear then [] else sinceClear ops ++ [op] := by
  simp [sinceClear]

end Condition

namespace IdentityContext

/-- What the map held before the unit, or nothing once it was cleared. -/
def heldBefore (c : IdentityContext Key Entity) (ops : List (IdentityOp Key Entity)) (k : Key) :
    Option (Shared Entity) :=
  if ops.any IdentityOp.isClear then none else c.identityMap.lookup k

variable {info : IdentityMeta Key Entity} {c : IdentityContext Key Entity} {k : Key}

@[simp] theorem identityMap_record (key : Key) : (c.recordIdentityMapRollback key).identityMap = c.identityMap := by
  unfold recordIdentityMapRollback
  dsimp only
  split_ifs <;> rfl

@[simp] theorem identityGeneration_record (key : Key) :
    (c.recordIdentityMapRollback key).identityGeneration = c.identityGeneration := by
  unfold recordIdentityMapRollback
  dsimp only
  split_ifs <;> rfl

@[simp] theorem undo_record (key : Key) : (c.recordIdentityMapRollback key).undo = c.undo := by
  unfold recordIdentityMapRollback
  dsimp only
  split_ifs <;> rfl

/-- The log keeps the first value it records for a key of a generation. -/
theorem rollbackLog_record (key : Key) (logKey : Key × ℕ) :
    (c.recordIdentityMapRollback key).rollbackLog.lookup logKey =
      if logKey = (key, c.identityGeneration) then
        some ((c.rollbackLog.lookup logKey).getD (c.identityMap.lookup key))
      else c.rollbackLog.lookup logKey := by
  unfold recordIdentityMapRollback
  dsimp only
  split_ifs with hsome heq heq
  · obtain ⟨original, horiginal⟩ := Option.isSome_iff_exists.1 hsome
    subst heq
    rw [horiginal, Option.getD_some]
  · rfl
  · subst heq
    rw [AList.lookup_insert, Option.not_isSome_iff_eq_none.1 hsome, Option.getD_none]
  · rw [AList.lookup_insert_ne heq]

theorem step_writes {op : IdentityOp Key Entity} (h : op.Writes info k) :
    (c.step info op).identityGeneration = c.identityGeneration ∧
    (c.step info op).rollbackLog.lookup (k, c.identityGeneration) =
      some ((c.rollbackLog.lookup (k, c.identityGeneration)).getD (c.identityMap.lookup k)) := by
  cases op with
  | put entity =>
    obtain ⟨hnew, rfl⟩ := h
    simp [step, put, hnew, rollbackLog_record]
  | remove key =>
    obtain rfl := h
    simp [step, remove, rollbackLog_record]
  | register _ | clear => exact h.elim

theorem step_registers {op : IdentityOp Key Entity} (h : op.Registers info k) :
    (∃ e, c.identityMap.lookup k = some e) ∧ c.step info op = c ∨
    c.identityMap.lookup k = none ∧ (c.step info op).identityGeneration = c.identityGeneration ∧
      (c.step info op).rollbackLog = c.rollbackLog ∧
      ∃ e, (c.step info op).identityMap.lookup k = some e ∧ .registered k e.pointer ∈ (c.step info op).undo := by
  cases op with
  | register entity =>
    obtain ⟨hnew, rfl⟩ := h
    cases hheld : c.identityMap.lookup (info.identityKey (info.attachDatabase entity)) with
    | some e => exact Or.inl ⟨⟨e, rfl⟩, by simp [step, register, hnew, hheld]⟩
    | none => exact Or.inr ⟨rfl, by simp [step, register, hnew, hheld]⟩
  | put _ | remove _ | clear => exact h.elim

/-- Everything an undo of `k` reads is as it was. -/
structure SameAt (k : Key) (c c' : IdentityContext Key Entity) : Prop where
  generation : c'.identityGeneration = c.identityGeneration
  map : c'.identityMap.lookup k = c.identityMap.lookup k
  log : c'.rollbackLog.lookup (k, c.identityGeneration) = c.rollbackLog.lookup (k, c.identityGeneration)
  undo : ∀ p, IdentityUndo.registered k p ∈ c'.undo ↔ .registered k p ∈ c.undo

theorem SameAt.refl (k : Key) (c : IdentityContext Key Entity) : SameAt k c c :=
  ⟨rfl, rfl, rfl, fun _ => Iff.rfl⟩

theorem step_sameAt {op : IdentityOp Key Entity} (hw : ¬ op.Writes info k) (hr : ¬ op.Registers info k)
    (hc : op.isClear = false) : SameAt k c (c.step info op) := by
  cases op with
  | register entity =>
    cases hnew : info.pkIsNew (info.attachDatabase entity) with
    | true => simpa [step, register, hnew] using SameAt.refl k c
    | false =>
      have hkey : info.identityKey (info.attachDatabase entity) ≠ k := fun heq => hr ⟨hnew, heq⟩
      cases hheld : c.identityMap.lookup (info.identityKey (info.attachDatabase entity)) with
      | some e => simpa [step, register, hnew, hheld] using SameAt.refl k c
      | none =>
        constructor <;>
          simp [step, register, hnew, hheld, hkey.symm]
  | put entity =>
    cases hnew : info.pkIsNew (info.attachDatabase entity) with
    | true => simpa [step, put, hnew] using SameAt.refl k c
    | false =>
      have hkey : info.identityKey (info.attachDatabase entity) ≠ k := fun heq => hw ⟨hnew, heq⟩
      constructor <;>
        simp [step, put, hnew, rollbackLog_record, hkey.symm]
  | remove key =>
    have hkey : key ≠ k := hw
    constructor <;>
      simp [step, remove, rollbackLog_record, hkey.symm]
  | clear => cases hc

/-- What is known of a key after some operations, none a `clear`; `held` is what the key
held before them. -/
inductive KeyState (info : IdentityMeta Key Entity) (c : IdentityContext Key Entity)
    (ops : List (IdentityOp Key Entity)) (held : Option (Shared Entity)) (k : Key) : Prop
  | untouched (hwrites : ∀ op ∈ ops, ¬ op.Writes info k)
      (hregisters : held = none → ∀ op ∈ ops, ¬ op.Registers info k)
      (hlog : c.rollbackLog.lookup (k, c.identityGeneration) = none)
      (hmap : c.identityMap.lookup k = held)
      (hundo : ∀ e, held = some e → .registered k e.pointer ∉ c.undo)
  | registered (e : Shared Entity) (hheld : held = none) (hwrites : ∀ op ∈ ops, ¬ op.Writes info k)
      (hregisters : ∃ op ∈ ops, op.Registers info k)
      (hlog : c.rollbackLog.lookup (k, c.identityGeneration) = none)
      (hmap : c.identityMap.lookup k = some e) (hundo : .registered k e.pointer ∈ c.undo)
  | recorded (hwrites : ∃ op ∈ ops, op.Writes info k)
      (hfirst : held = none → ¬ RegisteredThenWritten info k ops)
      (hlog : c.rollbackLog.lookup (k, c.identityGeneration) = some held)
  | mistaken (e : Shared Entity) (hheld : held = none) (hwrites : ∃ op ∈ ops, op.Writes info k)
      (hfirst : RegisteredThenWritten info k ops)
      (hlog : c.rollbackLog.lookup (k, c.identityGeneration) = some (some e))

section

variable {ops : List (IdentityOp Key Entity)} {held : Option (Shared Entity)}

theorem KeyState.write {op : IdentityOp Key Entity} (h : KeyState info c ops held k)
    (hw : op.Writes info k) : KeyState info (c.step info op) (ops ++ [op]) held k := by
  obtain ⟨hgen, hlog'⟩ := step_writes (c := c) hw
  rw [← hgen] at hlog'
  have hex : ∃ o ∈ ops ++ [op], o.Writes info k := ⟨op, by simp, hw⟩
  cases h with
  | untouched hwrites hregisters hlog hmap hundo =>
    refine .recorded hex (fun hnone hfirst => ?_) (by rw [hlog', hgen, hlog, hmap, Option.getD_none])
    rcases (registeredThenWritten_snoc info k ops op).1 hfirst with hfirst | ⟨-, ⟨o, ho, hr⟩, -⟩
    · obtain ⟨o, ho, hwo⟩ := hfirst.writes
      exact hwrites o ho hwo
    · exact hregisters hnone o ho hr
  | registered e hheld hwrites hregisters hlog hmap hundo =>
    exact .mistaken e hheld hex ((registeredThenWritten_snoc info k ops op).2 (Or.inr ⟨hw, hregisters, hwrites⟩))
      (by rw [hlog', hgen, hlog, hmap, Option.getD_none])
  | recorded hwrites hfirst hlog =>
    refine .recorded hex (fun hnone hfirst' => ?_) (by rw [hlog', hgen, hlog, Option.getD_some])
    rcases (registeredThenWritten_snoc info k ops op).1 hfirst' with hfirst' | ⟨-, -, hn⟩
    · exact hfirst hnone hfirst'
    · obtain ⟨o, ho, hwo⟩ := hwrites
      exact hn o ho hwo
  | mistaken e hheld hwrites hfirst hlog =>
    exact .mistaken e hheld hex ((registeredThenWritten_snoc info k ops op).2 (Or.inl hfirst))
      (by rw [hlog', hgen, hlog, Option.getD_some])

/-- An operation that does not write the key keeps what is known of its writes. -/
theorem KeyState.logged {op : IdentityOp Key Entity} {c' : IdentityContext Key Entity}
    (hw : ¬ op.Writes info k)
    (hlog : c'.rollbackLog.lookup (k, c'.identityGeneration) = c.rollbackLog.lookup (k, c.identityGeneration))
    (hwrites : ∃ o ∈ ops, o.Writes info k) (h : KeyState info c ops held k) :
    KeyState info c' (ops ++ [op]) held k := by
  have hsnoc : RegisteredThenWritten info k (ops ++ [op]) ↔ RegisteredThenWritten info k ops := by
    rw [registeredThenWritten_snoc]
    exact or_iff_left fun h => hw h.1
  have hex : ∃ o ∈ ops ++ [op], o.Writes info k := by
    obtain ⟨o, ho, hwo⟩ := hwrites
    exact ⟨o, by simp [ho], hwo⟩
  obtain ⟨o, ho, hwo⟩ := hwrites
  cases h with
  | untouched hn | registered _ _ hn => exact absurd hwo (hn o ho)
  | recorded _ hfirst hlog0 => exact .recorded hex (fun hnone => hsnoc.not.2 (hfirst hnone)) (hlog.trans hlog0)
  | mistaken e hheld _ hfirst hlog0 => exact .mistaken e hheld hex (hsnoc.2 hfirst) (hlog.trans hlog0)

omit [DecidableEq Key] in
theorem not_writes_snoc {op : IdentityOp Key Entity} (h : ∀ o ∈ ops, ¬ o.Writes info k)
    (hw : ¬ op.Writes info k) : ∀ o ∈ ops ++ [op], ¬ o.Writes info k := by
  intro o ho
  rcases List.mem_append.1 ho with ho | ho
  · exact h o ho
  · rwa [List.mem_singleton.1 ho]

theorem KeyState.register {op : IdentityOp Key Entity} (h : KeyState info c ops held k)
    (hw : ¬ op.Writes info k) (hr : op.Registers info k) :
    KeyState info (c.step info op) (ops ++ [op]) held k := by
  have hex : ∃ o ∈ ops ++ [op], o.Registers info k := ⟨op, by simp, hr⟩
  have hlog : (c.step info op).rollbackLog.lookup (k, (c.step info op).identityGeneration) =
      c.rollbackLog.lookup (k, c.identityGeneration) := by
    rcases step_registers (c := c) hr with ⟨-, heq⟩ | ⟨-, hgen, hlog, -⟩
    · rw [heq]
    · rw [hgen, hlog]
  cases h with
  | untouched hwrites hregisters hlog0 hmap hundo =>
    rcases step_registers (c := c) hr with ⟨⟨e, he⟩, heq⟩ | ⟨hnone, -, -, e, he, hmem⟩
    · have hsome : held = some e := hmap.symm.trans he
      rw [heq]
      exact .untouched (not_writes_snoc hwrites hw) (by simp [hsome]) hlog0 hmap hundo
    · exact .registered e (hmap.symm.trans hnone) (not_writes_snoc hwrites hw) hex (hlog.trans hlog0) he hmem
  | registered e hheld hwrites _ hlog0 hmap hundo =>
    rcases step_registers (c := c) hr with ⟨-, heq⟩ | ⟨hnone, -⟩
    · rw [heq]
      exact .registered e hheld (not_writes_snoc hwrites hw) hex hlog0 hmap hundo
    · rw [hmap] at hnone
      cases hnone
  | recorded hwrites hfirst hlog0 => exact (KeyState.recorded hwrites hfirst hlog0).logged hw hlog hwrites
  | mistaken e hheld hwrites hfirst hlog0 =>
    exact (KeyState.mistaken e hheld hwrites hfirst hlog0).logged hw hlog hwrites

theorem KeyState.frame {op : IdentityOp Key Entity} {c' : IdentityContext Key Entity}
    (h : KeyState info c ops held k) (hw : ¬ op.Writes info k) (hr : ¬ op.Registers info k)
    (hsame : SameAt k c c') : KeyState info c' (ops ++ [op]) held k := by
  have hlog : c'.rollbackLog.lookup (k, c'.identityGeneration) =
      c.rollbackLog.lookup (k, c.identityGeneration) := by
    rw [hsame.generation, hsame.log]
  cases h with
  | untouched hwrites hregisters hlog0 hmap hundo =>
    refine .untouched (not_writes_snoc hwrites hw) (fun hnone o ho => ?_) (hlog.trans hlog0)
      (hsame.map.trans hmap) fun e he => mt (hsame.undo e.pointer).1 (hundo e he)
    rcases List.mem_append.1 ho with ho | ho
    · exact hregisters hnone o ho
    · rwa [List.mem_singleton.1 ho]
  | registered e hheld hwrites hregisters hlog0 hmap hundo =>
    obtain ⟨o, ho, hro⟩ := hregisters
    exact .registered e hheld (not_writes_snoc hwrites hw) ⟨o, by simp [ho], hro⟩ (hlog.trans hlog0)
      (hsame.map.trans hmap) ((hsame.undo e.pointer).2 hundo)
  | recorded hwrites hfirst hlog0 => exact (KeyState.recorded hwrites hfirst hlog0).logged hw hlog hwrites
  | mistaken e hheld hwrites hfirst hlog0 =>
    exact (KeyState.mistaken e hheld hwrites hfirst hlog0).logged hw hlog hwrites

theorem KeyState.step (op : IdentityOp Key Entity) (h : KeyState info c ops held k)
    (hc : op.isClear = false) : KeyState info (c.step info op) (ops ++ [op]) held k := by
  by_cases hw : op.Writes info k
  · exact h.write hw
  · by_cases hr : op.Registers info k
    · exact h.register hw hr
    · exact h.frame hw hr (step_sameAt hw hr hc)

end

/-- What every step of a unit keeps: the log holds no generation yet to come, and the
unit's own undo step is the oldest. -/
structure UnitOpen (c : IdentityContext Key Entity) : Prop where
  log : ∀ k generation, c.identityGeneration < generation → c.rollbackLog.lookup (k, generation) = none
  undo : ∃ steps, c.undo = steps ++ [.identityMap] ∧ ∀ u ∈ steps, ∃ key p, u = .registered key p

theorem UnitOpen.record (h : c.UnitOpen) (key : Key) : (c.recordIdentityMapRollback key).UnitOpen := by
  constructor
  · intro k generation hlt
    rw [identityGeneration_record] at hlt
    have hne : (k, generation) ≠ (key, c.identityGeneration) := fun heq => by
      obtain ⟨-, rfl⟩ := Prod.mk.inj heq
      exact lt_irrefl _ hlt
    rw [rollbackLog_record, if_neg hne, h.log k generation hlt]
  · rw [undo_record]
    exact h.undo

theorem UnitOpen.step (h : c.UnitOpen) (op : IdentityOp Key Entity) : (c.step info op).UnitOpen := by
  cases op with
  | register entity =>
    simp only [IdentityContext.step, register]
    split_ifs
    · exact h
    · cases c.identityMap.lookup (info.identityKey (info.attachDatabase entity)) with
      | some e => exact h
      | none =>
        obtain ⟨steps, hundo, hall⟩ := h.undo
        refine ⟨h.log, .registered (info.identityKey (info.attachDatabase entity)) c.next :: steps,
          by simp [hundo], ?_⟩
        intro u hu
        rcases List.mem_cons.1 hu with rfl | hu
        · exact ⟨_, _, rfl⟩
        · exact hall u hu
  | put entity =>
    simp only [IdentityContext.step, put]
    split_ifs
    · exact h
    · exact ⟨(h.record _).log, (h.record _).undo⟩
  | remove key => exact ⟨(h.record key).log, (h.record key).undo⟩
  | clear => exact ⟨fun k generation hlt => h.log k generation (Nat.lt_of_succ_lt hlt), h.undo⟩

theorem run_snoc (ops : List (IdentityOp Key Entity)) (op : IdentityOp Key Entity) :
    c.run info (ops ++ [op]) = (c.run info ops).step info op := by
  simp [run]

theorem unitOpen_inUnitOfWork (c : IdentityContext Key Entity) : c.inUnitOfWork.UnitOpen :=
  ⟨fun _ _ _ => rfl, [], rfl, by simp⟩

theorem unitOpen_run (info : IdentityMeta Key Entity) (c : IdentityContext Key Entity)
    (ops : List (IdentityOp Key Entity)) : (c.inUnitOfWork.run info ops).UnitOpen := by
  induction ops using List.reverseRecOn with
  | nil => exact unitOpen_inUnitOfWork c
  | append_singleton ops op ih =>
    rw [run_snoc]
    exact ih.step op

/-- A whole unit, from the map it began with or from its last `clear`. -/
theorem keyState_run (info : IdentityMeta Key Entity) (c : IdentityContext Key Entity) (k : Key)
    (ops : List (IdentityOp Key Entity)) :
    KeyState info (c.inUnitOfWork.run info ops) (sinceClear ops) (c.heldBefore ops k) k := by
  induction ops using List.reverseRecOn with
  | nil => exact .untouched (by simp [sinceClear]) (by simp [sinceClear]) rfl rfl (by simp [run, inUnitOfWork])
  | append_singleton ops op ih =>
    rw [run_snoc, sinceClear_snoc]
    cases hc : op.isClear with
    | true =>
      cases op with
      | clear =>
        have hlog := (unitOpen_run info c ops).log k _ (Nat.lt_succ_self _)
        simp only [heldBefore, List.any_append, List.any_cons, hc, Bool.or_true, Bool.true_or, if_true]
        exact .untouched (by simp) (by simp) hlog rfl (by simp)
      | register _ | put _ | remove _ => cases hc
    | false =>
      have hheld : c.heldBefore (ops ++ [op]) k = c.heldBefore ops k := by
        simp [heldBefore, hc]
      rw [hheld]
      simpa using ih.step op hc

/-- The restored map holds what the log has for its generation, in whatever order the
log is walked. -/
theorem lookup_restore (generation : ℕ) (k : Key) (entries : List ((_ : Key × ℕ) × Option (Shared Entity)))
    (hnodup : entries.NodupKeys) (map : HashMap Key (Shared Entity)) :
    (entries.foldl (restore generation) map).lookup k =
      (entries.dlookup (k, generation)).getD (map.lookup k) := by
  induction entries generalizing map with
  | nil => rfl
  | cons entry rest ih =>
    obtain ⟨⟨key, g⟩, original⟩ := entry
    obtain ⟨hnotin, hrest⟩ := List.nodupKeys_cons.1 hnodup
    rw [List.foldl_cons, ih hrest]
    by_cases heq : (k, generation) = (key, g)
    · obtain ⟨rfl, rfl⟩ := Prod.mk.inj heq
      rw [List.dlookup_eq_none.2 hnotin, List.dlookup_cons_eq, Option.getD_none, Option.getD_some]
      cases original <;> simp [restore]
    · rw [List.dlookup_cons_ne _ _ heq]
      congr 1
      simp only [restore]
      split_ifs with hg
      · rfl
      · obtain rfl := not_not.1 hg
        have hkey : k ≠ key := fun h => heq (by rw [h])
        cases original <;> simp [hkey]

theorem runUndo_registered (key : Key) (p : ℕ) (c : IdentityContext Key Entity) :
    (c.runUndo (.registered key p)).rollbackLog = c.rollbackLog ∧
    (c.runUndo (.registered key p)).identityGeneration = c.identityGeneration ∧
    (c.runUndo (.registered key p)).identityMap.lookup k =
      if key = k ∧ ∃ e, c.identityMap.lookup k = some e ∧ e.pointer = p then none
      else c.identityMap.lookup k := by
  simp only [runUndo, Option.any_eq_true, decide_eq_true_eq]
  by_cases hkey : key = k
  · subst hkey
    split_ifs with h1 h2 h2
    · simp
    · exact absurd ⟨rfl, h1⟩ h2
    · exact absurd h2.2 h1
    · simp
  · have hnot : ¬ (key = k ∧ ∃ e, c.identityMap.lookup k = some e ∧ e.pointer = p) := fun h => hkey h.1
    split_ifs
    · simp [Ne.symm hkey]
    · simp

/-- The undo steps of registrations take away what is still the registered instance. -/
theorem lookup_unregister (k : Key) (steps : List (IdentityUndo Key))
    (hsteps : ∀ u ∈ steps, ∃ key p, u = .registered key p) : ∀ c : IdentityContext Key Entity,
    (steps.foldl runUndo c).rollbackLog = c.rollbackLog ∧
    (steps.foldl runUndo c).identityGeneration = c.identityGeneration ∧
    (∀ e, c.identityMap.lookup k = some e → .registered k e.pointer ∈ steps →
      (steps.foldl runUndo c).identityMap.lookup k = none) ∧
    ((∀ e, c.identityMap.lookup k = some e → .registered k e.pointer ∉ steps) →
      (steps.foldl runUndo c).identityMap.lookup k = c.identityMap.lookup k) := by
  induction steps with
  | nil => intro c; simp
  | cons u rest ih =>
    intro c
    obtain ⟨key, p, rfl⟩ := hsteps u List.mem_cons_self
    obtain ⟨hlog, hgen, hmap⟩ := runUndo_registered (k := k) key p c
    obtain ⟨hlog', hgen', hgone, hkept⟩ :=
      ih (fun v hv => hsteps v (List.mem_cons_of_mem _ hv)) (c.runUndo (.registered key p))
    refine ⟨hlog'.trans hlog, hgen'.trans hgen, fun e he hmem => ?_, fun hnot => ?_⟩
    · by_cases hthis : key = k ∧ ∃ e, c.identityMap.lookup k = some e ∧ e.pointer = p
      · rw [if_pos hthis] at hmap
        exact (hkept (by simp [hmap])).trans hmap
      · rw [if_neg hthis] at hmap
        refine hgone e (hmap.trans he) ?_
        rcases List.mem_cons.1 hmem with heq | hmem
        · obtain ⟨rfl, rfl⟩ := IdentityUndo.registered.inj heq
          exact absurd ⟨rfl, e, he, rfl⟩ hthis
        · exact hmem
    · have hthis : ¬ (key = k ∧ ∃ e, c.identityMap.lookup k = some e ∧ e.pointer = p) := by
        rintro ⟨rfl, e, he, rfl⟩
        exact hnot e he List.mem_cons_self
      rw [if_neg hthis] at hmap
      exact (hkept fun e he => fun hmem =>
        hnot e (hmap.symm.trans he) (List.mem_cons_of_mem _ hmem)).trans hmap

/-- What a rolled-back unit leaves under a key. -/
theorem lookup_rollback (h : c.UnitOpen) :
    (∀ original, c.rollbackLog.lookup (k, c.identityGeneration) = some original →
      c.rollback.identityMap.lookup k = original) ∧
    (c.rollbackLog.lookup (k, c.identityGeneration) = none →
      (∀ e, c.identityMap.lookup k = some e → .registered k e.pointer ∈ c.undo →
        c.rollback.identityMap.lookup k = none) ∧
      ((∀ e, c.identityMap.lookup k = some e → .registered k e.pointer ∉ c.undo) →
        c.rollback.identityMap.lookup k = c.identityMap.lookup k)) := by
  obtain ⟨steps, hundo, hsteps⟩ := h.undo
  obtain ⟨hlog, hgen, hgone, hkept⟩ := lookup_unregister k steps hsteps c
  have hmap : c.rollback.identityMap.lookup k =
      (c.rollbackLog.lookup (k, c.identityGeneration)).getD ((steps.foldl runUndo c).identityMap.lookup k) := by
    simp only [rollback, hundo, List.foldl_append, List.foldl_cons, List.foldl_nil, runUndo,
      rollbackIdentityMap, hlog, hgen]
    exact lookup_restore c.identityGeneration k c.rollbackLog.entries c.rollbackLog.nodupKeys _
  have hmem : ∀ p, IdentityUndo.registered k p ∈ c.undo ↔ .registered k p ∈ steps := by
    simp [hundo]
  constructor
  · intro original horiginal
    rw [hmap, horiginal, Option.getD_some]
  · intro hnone
    rw [hmap, hnone, Option.getD_none]
    simp only [hmem]
    exact ⟨hgone, hkept⟩

/-- A unit of work that rolls back leaves every key as it was before the unit, or held by
nothing once the map was cleared, exactly when no key that was not held is registered
before it is first put or removed. -/
theorem rollback_restores_identity_map (info : IdentityMeta Key Entity) (c : IdentityContext Key Entity)
    (ops : List (IdentityOp Key Entity)) :
    (∀ k, (c.inUnitOfWork.run info ops).rollback.identityMap.lookup k = c.heldBefore ops k) ↔
      ∀ k, c.heldBefore ops k = none → ¬ RegisteredThenWritten info k (sinceClear ops) := by
  refine forall_congr' fun k => ?_
  obtain ⟨hlogged, hunlogged⟩ := lookup_rollback (k := k) (unitOpen_run info c ops)
  cases keyState_run info c k ops with
  | untouched hwrites hregisters hlog hmap hundo =>
    obtain ⟨-, hkept⟩ := hunlogged hlog
    refine iff_of_true ?_ fun _ hfirst => ?_
    · rw [hkept fun e he => hundo e (hmap.symm.trans he), hmap]
    · obtain ⟨o, ho, hw⟩ := hfirst.writes
      exact hwrites o ho hw
  | registered e hheld hwrites hregisters hlog hmap hundo =>
    obtain ⟨hgone, -⟩ := hunlogged hlog
    refine iff_of_true ?_ fun _ hfirst => ?_
    · rw [hgone e hmap hundo, hheld]
    · obtain ⟨o, ho, hw⟩ := hfirst.writes
      exact hwrites o ho hw
  | recorded hwrites hfirst hlog => exact iff_of_true (hlogged _ hlog) hfirst
  | mistaken e hheld hwrites hfirst hlog =>
    refine iff_of_false ?_ fun h => h hheld hfirst
    rw [hlogged _ hlog, hheld]
    exact Option.some_ne_none e

end IdentityContext

/-- Rows that are their own key. -/
def namedIdentity : IdentityMeta String String where
  identityKey := id
  pkIsNew := fun name => decide (name = "")
  attachDatabase := id
  unloadRelations := id

/-- A row read in a unit of work and then saved in it: the rollback leaves the row as read
in a map that held nothing. -/
theorem registered_put_left :
    let c : IdentityContext String String := ⟨∅, 0, 0, ∅, []⟩
    c.identityMap.lookup "k" = none ∧
    (c.inUnitOfWork.run namedIdentity [.register "k", .put "k"]).rollback.identityMap.lookup "k" =
      some ⟨0, "k"⟩ := by
  decide

end TideOrm
