import TideOrm.Sanity.Managed

/-! A rolled-back flush leaves no trace. Undoing a step right after it gives back the
entry it was made on, and what the holder does to an entry commutes with every undo
step that does not take it for what a flush left. So a run that is rolled back leaves
each entry as the holder's own steps alone would have. -/

namespace TideOrm

open Lib

variable {Field Val Rel : Type} [DecidableEq Field] [DecidableEq Val]

section Fields

theorem mergeFields_foldl (holder base saved : Row Field Val Rel) (names : List Field) :
    ∀ (target : Row Field Val Rel) (changed : List Field) (result : Row Field Val Rel × List Field),
      result = names.foldl (fun (target, changed) field =>
        let held := holder.fields field
        if held = base.fields field then
          (target.copyField saved field, if held = saved.fields field then changed else changed ++ [field])
        else (target.copyField holder field, changed)) (target, changed) →
      result.1.relations = target.relations ∧
      (∀ f, result.1.fields f = if f ∈ names then
        (if holder.fields f = base.fields f then saved.fields f else holder.fields f)
        else target.fields f) ∧
      ∀ f, f ∈ result.2 ↔ f ∈ changed ∨
        (f ∈ names ∧ holder.fields f = base.fields f ∧ holder.fields f ≠ saved.fields f) := by
  induction names with
  | nil => rintro target changed _ rfl; simp
  | cons name rest ih =>
    rintro target changed _ rfl
    simp only [List.foldl_cons]
    by_cases hheld : holder.fields name = base.fields name
    · rw [if_pos hheld]
      obtain ⟨hrel, hfields, hchanged⟩ := ih (target.copyField saved name)
        (if holder.fields name = saved.fields name then changed else changed ++ [name]) _ rfl
      refine ⟨hrel, ?_, ?_⟩
      · intro f
        rw [hfields f]
        by_cases hrest : f ∈ rest
        · simp [hrest]
        · by_cases hf : f = name
          · subst hf; simp [hrest, hheld, Row.copyField]
          · simp [hrest, hf, Row.copyField]
      · intro f
        rw [hchanged f]
        by_cases hsame : holder.fields name = saved.fields name
        · simp only [hsame, if_true, List.mem_cons]
          grind
        · simp only [hsame, if_false, List.mem_append, List.mem_cons, List.not_mem_nil, or_false]
          grind
    · rw [if_neg hheld]
      obtain ⟨hrel, hfields, hchanged⟩ := ih (target.copyField holder name) changed _ rfl
      refine ⟨hrel, ?_, ?_⟩
      · intro f
        rw [hfields f]
        by_cases hrest : f ∈ rest
        · simp [hrest]
        · by_cases hf : f = name
          · subst hf; simp [hrest, hheld, Row.copyField]
          · simp [hrest, hf, Row.copyField]
      · intro f
        rw [hchanged f, List.mem_cons]
        grind

/-- What a merge gives each field, and which fields it says it changed. -/
theorem mergeFields_spec (model : EntityModel Field Val Rel) (target holder base saved : Row Field Val Rel) :
    (mergeFields model target holder base saved).1.relations = target.relations ∧
    (∀ f, (mergeFields model target holder base saved).1.fields f =
      if holder.fields f = base.fields f then saved.fields f else holder.fields f) ∧
    ∀ f, f ∈ (mergeFields model target holder base saved).2 ↔
      holder.fields f = base.fields f ∧ holder.fields f ≠ saved.fields f := by
  obtain ⟨hrel, hfields, hchanged⟩ :=
    mergeFields_foldl holder base saved model.fieldNames target [] _ rfl
  refine ⟨hrel, fun f => ?_, fun f => ?_⟩
  · rw [mergeFields, hfields f, if_pos (model.complete f)]
  · rw [mergeFields, hchanged f]
    simp [model.complete f]

theorem FieldChanges.undo_foldl (before after : Row Field Val Rel) (names : List Field) :
    ∀ target result : Row Field Val Rel,
      result = names.foldl (fun target field =>
        if target.fields field = after.fields field then target.copyField before field else target) target →
      result.relations = target.relations ∧ ∀ f, result.fields f =
        if f ∈ names ∧ target.fields f = after.fields f then before.fields f else target.fields f := by
  induction names with
  | nil => rintro target _ rfl; simp
  | cons name rest ih =>
    rintro target _ rfl
    simp only [List.foldl_cons]
    obtain ⟨hrel, hfields⟩ := ih (if target.fields name = after.fields name then
      target.copyField before name else target) _ rfl
    refine ⟨?_, fun f => ?_⟩
    · rw [hrel]
      split_ifs <;> rfl
    · rw [hfields f]
      by_cases hname : target.fields name = after.fields name
      · by_cases hf : f = name
        · subst hf
          simp [hname, Row.copyField]
        · simp [hname, hf, Row.copyField]
      · by_cases hf : f = name
        · subst hf
          simp [hname]
        · simp [hname, hf]

theorem FieldChanges.undo_spec (changes : FieldChanges Field Val Rel) (target : Row Field Val Rel) :
    (changes.undo target).relations = target.relations ∧
    ∀ f, (changes.undo target).fields f =
      if f ∈ changes.fields ∧ target.fields f = changes.after.fields f then changes.before.fields f
      else target.fields f :=
  FieldChanges.undo_foldl changes.before changes.after changes.fields target _ rfl

end Fields

namespace ManagedEntry

section Inverse

variable (model : EntityModel Field Val Rel)

theorem unrebased_rebased (e : ManagedEntry Field Val Rel) {loaded : Row Field Val Rel}
    (hloaded : e.snapshot = some loaded) (saved : Row Field Val Rel) :
    (e.rebased model loaded saved).1.unrebased (e.rebased model loaded saved).2 loaded = e := by
  obtain ⟨hrel, hfields, hchanged⟩ := mergeFields_spec model e.current e.current loaded saved
  obtain ⟨hrel', hfields'⟩ := (e.rebased model loaded saved).2.undo_spec (e.rebased model loaded saved).1.current
  have hcurrent : (e.rebased model loaded saved).2.undo (e.rebased model loaded saved).1.current = e.current := by
    apply Row.ext
    · funext f
      rw [hfields' f]
      simp only [rebased, hchanged f, hfields f]
      by_cases hheld : e.current.fields f = loaded.fields f
      · by_cases hsame : e.current.fields f = saved.fields f
        · simp [hheld, ← hsame]
        · simp [hheld, hheld ▸ hsame]
      · simp [hheld]
    · exact hrel'.trans hrel
  apply ManagedEntry.ext
  · exact hcurrent
  · exact hloaded.symm
  · rfl
  · rfl
  · rfl

variable [DecidableEq Rel]

theorem undone_written (e : ManagedEntry Field Val Rel) {read saved : Row Field Val Rel}
    (hrelations : e.current.relations = read.relations) (hsaved : model.columnsEq saved saved = true) :
    (e.written model read saved).1.undone model (e.written model read saved).2 = e := by
  obtain ⟨hrel, hfields, hchanged⟩ := mergeFields_spec model saved e.current read saved
  apply ManagedEntry.ext
  · -- every field that took a stored value goes back to what the flush read
    simp only [undone, undoneCurrent, written, hrel, if_true]
    obtain ⟨hrel', hfields'⟩ := FieldChanges.undo_spec
      ⟨(mergeFields model saved e.current read saved).2, read, saved⟩
      { (mergeFields model saved e.current read saved).1 with relations := read.relations }
    apply Row.ext
    · funext f
      rw [hfields' f]
      simp only [hchanged f, hfields f]
      by_cases hheld : e.current.fields f = read.fields f
      · by_cases hsame : e.current.fields f = saved.fields f
        · simp [hheld, ← hsame]
        · simp [hheld, hheld ▸ hsame]
      · simp [hheld]
    · exact hrel'.trans hrelations.symm
  · simp [undone, written, hsaved]
  · simp [undone, written]
  · simp [undone, written]
  · simp [undone, written]

theorem undone_removal (e : ManagedEntry Field Val Rel) :
    ({ e.evicted with snapshot := none, persistedKey := none } : ManagedEntry Field Val Rel).undone model
      e.removalUndo = e := by
  apply ManagedEntry.ext
  · rfl
  · rfl
  · simp [undone, removalUndo, evicted]
  · simp [undone, removalUndo]
  · simp [undone, removalUndo, evicted]

end Inverse

end ManagedEntry

section Patch

omit [DecidableEq Val] in
/-- A patch gives a field one of its values, or leaves it. -/
theorem patch_cases (changes : List (Field × Val)) (f : Field) :
    (∃ x, (f, x) ∈ changes ∧ ∀ row : Row Field Val Rel, (row.patch changes).fields f = x) ∨
    ∀ row : Row Field Val Rel, (row.patch changes).fields f = row.fields f := by
  have hfold : (∃ x, (f, x) ∈ changes ∧ ∀ g : Field → Val,
        changes.foldl (fun fields change => Function.update fields change.1 change.2) g f = x) ∨
      ∀ g : Field → Val,
        changes.foldl (fun fields change => Function.update fields change.1 change.2) g f = g f := by
    induction changes with
    | nil => exact Or.inr fun _ => rfl
    | cons change rest ih =>
      obtain ⟨name, value⟩ := change
      rcases ih with ⟨x, hx, hset⟩ | hkeep
      · exact Or.inl ⟨x, List.mem_cons_of_mem _ hx, fun g => hset _⟩
      · by_cases hf : f = name
        · subst hf
          exact Or.inl ⟨value, List.mem_cons_self, fun g => by rw [List.foldl_cons, hkeep]; simp⟩
        · exact Or.inr fun g => by rw [List.foldl_cons, hkeep]; simp [hf]
  rcases hfold with ⟨x, hx, hset⟩ | hkeep
  · exact Or.inl ⟨x, hx, fun row => hset row.fields⟩
  · exact Or.inr fun row => hkeep row.fields

/-- No value of the patch is one the changes stored in its field. -/
def FieldChanges.Apart (changes : FieldChanges Field Val Rel) (patch : List (Field × Val)) : Prop :=
  ∀ f x, (f, x) ∈ patch → f ∈ changes.fields → x ≠ changes.after.fields f

theorem undo_patch {changes : FieldChanges Field Val Rel} {patch : List (Field × Val)}
    (h : changes.Apart patch) (row : Row Field Val Rel) :
    changes.undo (row.patch patch) = (changes.undo row).patch patch := by
  obtain ⟨hrel, hfields⟩ := changes.undo_spec row
  obtain ⟨hrel', hfields'⟩ := changes.undo_spec (row.patch patch)
  apply Row.ext
  · funext f
    rw [hfields' f]
    obtain ⟨x, hx, hset⟩ | hkeep : (∃ x, (f, x) ∈ patch ∧
        ∀ row : Row Field Val Rel, (row.patch patch).fields f = x) ∨ _ := patch_cases patch f
    · rw [hset, hset, if_neg fun hp => h f x hx hp.1 hp.2]
    · rw [hkeep, hkeep, hfields f]
  · exact hrel'.trans hrel.symm

theorem undo_relations (changes : FieldChanges Field Val Rel) (row : Row Field Val Rel) (relations : Rel) :
    changes.undo { row with relations } = { changes.undo row with relations } := by
  obtain ⟨-, hfields⟩ := changes.undo_spec row
  obtain ⟨hrel', hfields'⟩ := changes.undo_spec { row with relations }
  apply Row.ext
  · funext f
    rw [hfields' f, hfields f]
  · exact hrel'

variable [DecidableEq Rel]

theorem undoneCurrent_patch {fields : Option (FieldChanges Field Val Rel)} {patch : List (Field × Val)}
    (h : ∀ changes, fields = some changes → changes.Apart patch) (row : Row Field Val Rel) :
    ManagedEntry.undoneCurrent fields (row.patch patch) = (ManagedEntry.undoneCurrent fields row).patch patch := by
  cases fields with
  | none => rfl
  | some changes =>
    have hapart := h changes rfl
    by_cases hrel : row.relations = changes.after.relations
    · have hrel' : (row.patch patch).relations = changes.after.relations := hrel
      simp only [ManagedEntry.undoneCurrent, if_pos hrel, if_pos hrel']
      exact undo_patch hapart { row with relations := changes.before.relations }
    · have hrel' : ¬ (row.patch patch).relations = changes.after.relations := hrel
      simp only [ManagedEntry.undoneCurrent, if_neg hrel, if_neg hrel']
      exact undo_patch hapart row

theorem undoneCurrent_relations {fields : Option (FieldChanges Field Val Rel)} {relations : Rel}
    (h : ∀ changes, fields = some changes → relations ≠ changes.after.relations) (row : Row Field Val Rel) :
    ManagedEntry.undoneCurrent fields { row with relations } =
      { ManagedEntry.undoneCurrent fields row with relations } := by
  cases fields with
  | none => rfl
  | some changes =>
    simp only [ManagedEntry.undoneCurrent, if_neg (h changes rfl)]
    split_ifs
    · exact (undo_relations changes row relations).trans (by rw [undo_relations changes row changes.before.relations])
    · exact undo_relations changes row relations

end Patch

section Step

variable [DecidableEq Rel]

def UndoStep.address : UndoStep Field Val Rel → ℕ
  | .flush a _ => a
  | .rebase a _ _ => a
  | .attach _ a => a

/-- The fields an undo step may put back. -/
def UndoStep.changes : UndoStep Field Val Rel → Option (FieldChanges Field Val Rel)
  | .flush _ u => u.fields
  | .rebase _ changes _ => some changes
  | .attach _ _ => none

/-- What an undo step of a flush does to its own entry. -/
def UndoStep.onEntry (model : EntityModel Field Val Rel) (e : ManagedEntry Field Val Rel) :
    UndoStep Field Val Rel → ManagedEntry Field Val Rel
  | .flush _ u => e.undone model u
  | .rebase _ changes loaded => e.unrebased changes loaded
  | .attach _ _ => e

/-- The flush took the entry out of the context. -/
def FlushUndo.Evicts (u : FlushUndo Field Val Rel) : Prop :=
  (u.state.2 = .detached ∧ u.state.1 ≠ .detached) ∨ (u.identityKey.2 = none ∧ u.identityKey.1 ≠ none)

variable {model : EntityModel Field Val Rel} {e : ManagedEntry Field Val Rel} {step : UndoStep Field Val Rel}

theorem onEntry_edit {patch : List (Field × Val)}
    (h : ∀ changes, step.changes = some changes → changes.Apart patch) :
    step.onEntry model (e.edit patch) = (step.onEntry model e).edit patch := by
  cases step with
  | flush a u => exact ManagedEntry.ext (undoneCurrent_patch h e.current) rfl rfl rfl rfl
  | rebase a changes loaded =>
    exact ManagedEntry.ext (undo_patch (h changes rfl) e.current) rfl rfl rfl rfl
  | attach key a => rfl

theorem onEntry_editRelations {relations : Rel}
    (h : ∀ a u changes, step = .flush a u → u.fields = some changes → relations ≠ changes.after.relations) :
    step.onEntry model (e.editRelations relations) = (step.onEntry model e).editRelations relations := by
  cases step with
  | flush a u =>
    exact ManagedEntry.ext (undoneCurrent_relations (fun changes => h a u changes rfl) e.current)
      rfl rfl rfl rfl
  | rebase a changes loaded => exact ManagedEntry.ext (undo_relations changes e.current _) rfl rfl rfl rfl
  | attach key a => rfl

omit [DecidableEq Field] [DecidableEq Val] [DecidableEq Rel] in
/-- A part that is put back only where it already is as it should be. -/
theorem ite_keep {α : Type} [DecidableEq α] {x before after : α} (h : after = x → before = x) :
    (if x = after then before else x) = x := by
  split_ifs with hx
  · exact h hx.symm
  · rfl

theorem onEntry_markRemoved
    (h : ∀ a u, step = .flush a u → u.state.2 = .removed → u.state.1 = .removed) :
    step.onEntry model e.markRemoved = (step.onEntry model e).markRemoved := by
  cases step with
  | flush a u => exact ManagedEntry.ext rfl rfl (ite_keep (h a u rfl)) rfl rfl
  | rebase a changes loaded => rfl
  | attach key a => rfl

theorem onEntry_evicted (h : ∀ a u, step = .flush a u → ¬ u.Evicts) :
    step.onEntry model e.evicted = (step.onEntry model e).evicted := by
  cases step with
  | flush a u =>
    have hu := h a u rfl
    simp only [FlushUndo.Evicts, not_or, not_and, not_not] at hu
    exact ManagedEntry.ext rfl rfl (ite_keep hu.1) rfl (ite_keep hu.2)
  | rebase a changes loaded => rfl
  | attach key a => rfl

end Step

section Run

variable [DecidableEq Rel] {model : EntityModel Field Val Rel}

/-- What a step of the holder does to the entry at `a`. -/
def ManagedEntry.holder (a : ℕ) (e : ManagedEntry Field Val Rel) : ManagerOp Field Val Rel →
    ManagedEntry Field Val Rel
  | .edit b changes => if b = a then e.edit changes else e
  | .editRelations b relations => if b = a then e.editRelations relations else e
  | .remove b => if b = a then e.markRemoved else e
  | .detach b => if b = a then e.evicted else e
  | _ => e

namespace Manager

/-- The steps of a flush and its holders, where a rollback can tell them apart: an edit
gives no field a value a pending flush stored there, and nothing replaces the relations
by those a pending flush stored; an entry a pending flush evicted is not detached
again; a stored row compares equal to itself. -/
def Undoable (model : EntityModel Field Val Rel) (m : Manager Field Val Rel) : ManagerOp Field Val Rel → Prop
  | .edit a patch => ∀ step ∈ m.undo, step.address = a →
      ∀ changes, step.changes = some changes → changes.Apart patch
  | .editRelations a relations => ∀ u, UndoStep.flush a u ∈ m.undo →
      ∀ changes, u.fields = some changes → relations ≠ changes.after.relations
  | .detach a => ∀ u, UndoStep.flush a u ∈ m.undo → ¬ u.Evicts
  | .flushWritten saved => model.columnsEq saved saved = true
  | .remove _ | .flushBegin _ | .stored _ | .flushDeleted | .flushAbandoned | .flushEnd => True
  | .persist _ | .merge _ _ | .attach _ _ | .clear | .undoLast | .commit => False

def UndoableRun (model : EntityModel Field Val Rel) (m : Manager Field Val Rel) :
    List (ManagerOp Field Val Rel) → Prop
  | [] => True
  | op :: rest => Undoable model m op ∧ UndoableRun model (m.step model op) rest

/-- The entry at `a` once every pending step is undone. -/
def restored (model : EntityModel Field Val Rel) (m : Manager Field Val Rel) (a : ℕ) :
    ManagedEntry Field Val Rel :=
  m.undo.foldl (fun e step => if step.address = a then step.onEntry model e else e) (m.entry a)

/-- The pending steps are those of flushes, and none makes a removal of its own. -/
structure Pending (m : Manager Field Val Rel) : Prop where
  flushes : ∀ key a, UndoStep.attach key a ∉ m.undo
  removals : ∀ a u, UndoStep.flush a u ∈ m.undo → u.state.2 = .removed → u.state.1 = .removed

variable {m : Manager Field Val Rel}

theorem foldl_commute {α β : Type} (f : α → β → α) (h : α → α) (l : List β)
    (hcomm : ∀ b ∈ l, ∀ x, f (h x) b = h (f x b)) (x : α) : l.foldl f (h x) = h (l.foldl f x) := by
  induction l generalizing x with
  | nil => rfl
  | cons b rest ih =>
    rw [List.foldl_cons, List.foldl_cons, hcomm b List.mem_cons_self,
      ih fun c hc => hcomm c (List.mem_cons_of_mem _ hc)]

/-- A step of the holder that commutes with every pending undo of its entry. -/
theorem restored_setEntry (b : ℕ) (h : ManagedEntry Field Val Rel → ManagedEntry Field Val Rel)
    (hcomm : ∀ step ∈ m.undo, step.address = b → ∀ e, step.onEntry model (h e) = h (step.onEntry model e))
    (a : ℕ) : restored model (m.setEntry b (h (m.entry b))) a =
      if b = a then h (restored model m a) else restored model m a := by
  unfold restored
  by_cases hab : b = a
  · subst hab
    simp only [undo_setEntry, entry_setEntry, Function.update_self, if_true]
    apply foldl_commute
    intro step hstep e
    split_ifs with haddr
    · exact hcomm step hstep haddr e
    · rfl
  · simp only [undo_setEntry, entry_setEntry, Function.update_of_ne (Ne.symm hab), if_neg hab]

/-- A flush step whose own undo gives back the entry. -/
theorem restored_pushUndo {b : ℕ} {e : ManagedEntry Field Val Rel} {step : UndoStep Field Val Rel}
    {m' : Manager Field Val Rel} (haddr : step.address = b) (hentry : m'.entry = Function.update m.entry b e)
    (hundo : m'.undo = step :: m.undo) (hinv : step.onEntry model e = m.entry b) (a : ℕ) :
    restored model m' a = restored model m a := by
  unfold restored
  rw [hundo, hentry, List.foldl_cons, haddr]
  by_cases hab : b = a
  · subst hab
    rw [if_pos rfl, Function.update_self, hinv]
  · rw [if_neg hab, Function.update_of_ne (Ne.symm hab)]

/-- A step that touches neither the entries nor the pending steps. -/
theorem restored_congr {m' : Manager Field Val Rel} (hentry : m'.entry = m.entry) (hundo : m'.undo = m.undo)
    (a : ℕ) : restored model m' a = restored model m a := by
  simp only [restored, hentry, hundo]

omit [DecidableEq Field] [DecidableEq Val] [DecidableEq Rel] in
theorem Pending.congr {m' : Manager Field Val Rel} (h : m.Pending) (hundo : m'.undo = m.undo) : m'.Pending :=
  ⟨hundo ▸ h.flushes, hundo ▸ h.removals⟩

omit [DecidableEq Field] [DecidableEq Val] [DecidableEq Rel] in
theorem Pending.push {m' : Manager Field Val Rel} {step : UndoStep Field Val Rel} (h : m.Pending)
    (hundo : m'.undo = step :: m.undo) (hflush : ∀ key a, step ≠ .attach key a)
    (hremoval : ∀ a u, step = .flush a u → u.state.2 = .removed → u.state.1 = .removed) : m'.Pending := by
  constructor
  · intro key a hmem
    rw [hundo, List.mem_cons] at hmem
    rcases hmem with heq | hmem
    · exact hflush key a heq.symm
    · exact h.flushes key a hmem
  · intro a u hmem
    rw [hundo, List.mem_cons] at hmem
    rcases hmem with heq | hmem
    · exact hremoval a u heq.symm
    · exact h.removals a u hmem

omit [DecidableEq Field] [DecidableEq Val] [DecidableEq Rel] in
theorem flushBegin_rest (model : EntityModel Field Val Rel) (m : Manager Field Val Rel) (a : ℕ) :
    ((m.flushBegin model a).toOption.getD m).entry = m.entry ∧
    ((m.flushBegin model a).toOption.getD m).undo = m.undo := by
  cases h : m.flushBegin model a with
  | error err => exact ⟨rfl, rfl⟩
  | ok m' =>
    rcases flushBegin_cases h with rfl | ⟨-, rfl⟩ | ⟨-, rfl⟩ <;> exact ⟨rfl, rfl⟩

/-- A flush that wrote its row, when nothing edited the relations meanwhile. -/
theorem flushWrite_cases {m' : Manager Field Val Rel} {a : ℕ} {read saved : Row Field Val Rel}
    {previousKey : Option String} (h : m.flushWrite model a read previousKey saved = .ok m') :
    (m.entry a).current.relations = read.relations ∧
    m'.entry = Function.update m.entry a ((m.entry a).written model read saved).1 ∧
    m'.undo = .flush a ((m.entry a).written model read saved).2 :: m.undo := by
  unfold flushWrite at h
  dsimp only at h
  split at h
  · cases h
  · next hrel =>
    cases h
    refine ⟨not_not.1 hrel, ?_, ?_⟩
    · split_ifs <;> simp
    · split_ifs <;> simp

omit [DecidableEq Field] [DecidableEq Val] [DecidableEq Rel] in
theorem flushRemoval_rest (a : ℕ) : (m.flushRemoval a).entry = Function.update m.entry a
      { (m.entry a).evicted with snapshot := none, persistedKey := none } ∧
    (m.flushRemoval a).undo = .flush a (m.entry a).removalUndo :: m.undo := by
  constructor
  · simp [flushRemoval]
  · simp [flushRemoval]

/-- One step: the entry an undo of everything pending would leave moves by what the
holder did, and by nothing else. -/
theorem step_restored {op : ManagerOp Field Val Rel} (hp : m.Pending) (hop : Undoable model m op) (a : ℕ) :
    restored model (m.step model op) a = (restored model m a).holder a op ∧ (m.step model op).Pending := by
  cases op with
  | edit b patch =>
    exact ⟨restored_setEntry b (·.edit patch) (fun step hstep haddr _ => onEntry_edit (hop step hstep haddr)) a,
      hp.congr rfl⟩
  | editRelations b relations =>
    refine ⟨restored_setEntry b (·.editRelations relations) (fun step hstep haddr _ => ?_) a, hp.congr rfl⟩
    refine onEntry_editRelations fun c u changes heq hchanges => ?_
    subst heq
    exact hop u (haddr ▸ hstep) changes hchanges
  | remove b =>
    refine ⟨restored_setEntry b (·.markRemoved) (fun step hstep _ _ => ?_) a, hp.congr rfl⟩
    exact onEntry_markRemoved fun c u heq => hp.removals c u (heq ▸ hstep)
  | detach b =>
    have hset : restored model (m.setEntry b (m.entry b).evicted) a = _ :=
      restored_setEntry b (·.evicted) (fun step hstep haddr _ => onEntry_evicted fun c u heq => by
        subst heq
        exact hop u (haddr ▸ hstep)) a
    refine ⟨(restored_congr ?_ ?_ a).trans hset, hp.congr ?_⟩ <;> simp [step, detach]
  | flushBegin b =>
    simp only [step]
    split_ifs
    · exact ⟨rfl, hp⟩
    · obtain ⟨hentry, hundo⟩ := flushBegin_rest model m b
      exact ⟨restored_congr hentry hundo a, hp.congr hundo⟩
  | stored saved =>
    simp only [step, stored]
    cases m.getManagedByKey (model.pkKey saved) with
    | none => exact ⟨rfl, hp⟩
    | some b =>
      simp only [rebase]
      cases hloaded : (m.entry b).snapshot with
      | none => exact ⟨rfl, hp⟩
      | some loaded =>
        have hinv := (m.entry b).unrebased_rebased model hloaded saved
        refine ⟨restored_pushUndo (b := b) ?_ rfl rfl ?_ a, hp.push rfl (by simp) (by simp)⟩
        · rfl
        · exact hinv
  | flushWritten saved =>
    simp only [step]
    split
    · next b read previousKey _ =>
      cases h : m.flushWrite model b read previousKey saved with
      | error err => exact ⟨rfl, hp⟩
      | ok m' =>
        obtain ⟨hrel, hentry, hundo⟩ := flushWrite_cases h
        have hinv := (m.entry b).undone_written model hrel hop
        refine ⟨restored_pushUndo rfl hentry hundo hinv a, hp.push hundo (by simp) ?_⟩
        rintro _ _ ⟨⟩ hstate
        simp only [ManagedEntry.written] at hstate ⊢
        split_ifs at hstate
        exact hstate
    · exact ⟨rfl, hp⟩
  | flushDeleted =>
    simp only [step]
    split
    · next b _ =>
      obtain ⟨hentry, hundo⟩ := flushRemoval_rest (m := m) b
      refine ⟨restored_pushUndo rfl hentry hundo ((m.entry b).undone_removal model) a, hp.push hundo (by simp) ?_⟩
      rintro _ _ ⟨⟩ hstate
      cases hstate
    · exact ⟨rfl, hp⟩
  | flushAbandoned => exact ⟨rfl, hp.congr rfl⟩
  | flushEnd => exact ⟨rfl, hp.congr rfl⟩
  | persist _ | merge _ _ | attach _ _ | clear | undoLast | commit => exact hop.elim

theorem run_restored : ∀ (ops : List (ManagerOp Field Val Rel)) (m : Manager Field Val Rel),
    m.Pending → UndoableRun model m ops →
    (m.run model ops).Pending ∧ ∀ a, restored model (m.run model ops) a =
      ops.foldl (fun e op => e.holder a op) (restored model m a)
  | [], m, hp, _ => ⟨hp, fun _ => rfl⟩
  | op :: rest, m, hp, ⟨hop, hrest⟩ => by
    have hstep := step_restored hp hop
    obtain ⟨hpending, hrun⟩ := run_restored rest (m.step model op) (hstep 0).2 hrest
    refine ⟨hpending, fun a => ?_⟩
    rw [List.foldl_cons, ← (hstep a).1]
    exact hrun a

/-- The undo steps, the newest first, leave each entry restored. -/
theorem foldl_runUndo (steps : List (UndoStep Field Val Rel)) :
    ∀ m : Manager Field Val Rel, (∀ key a, UndoStep.attach key a ∉ steps) → ∀ a,
      (steps.foldl (runUndo model) m).entry a =
        steps.foldl (fun e step => if step.address = a then step.onEntry model e else e) (m.entry a) := by
  induction steps with
  | nil => intro m _ a; rfl
  | cons step rest ih =>
    intro m hflush a
    rw [List.foldl_cons, List.foldl_cons, ih _ fun key b hmem => hflush key b (List.mem_cons_of_mem _ hmem)]
    congr 1
    cases step with
    | flush b u =>
      obtain ⟨-, -, -, hentry⟩ := undoFlush_rest model m b u
      simp only [runUndo, hentry, UndoStep.address, UndoStep.onEntry, Function.update_apply, eq_comm]
      split_ifs with h
      · rw [h]
      · rfl
    | rebase b changes loaded =>
      simp only [runUndo, entry_setEntry, UndoStep.address, UndoStep.onEntry, Function.update_apply, eq_comm]
      split_ifs with h
      · rw [h]
      · rfl
    | attach key b => exact absurd List.mem_cons_self (hflush key b)

/-- A transaction's flushes rolled back: each entry is what the holder's own steps make
of the entry as it was before the first flush. -/
theorem rollback_leaves_holder_steps (model : EntityModel Field Val Rel) (m : Manager Field Val Rel)
    (hstart : m.undo = []) (ops : List (ManagerOp Field Val Rel)) (hops : UndoableRun model m ops) (a : ℕ) :
    ((m.run model ops).rollback model).entry a = ops.foldl (fun e op => e.holder a op) (m.entry a) := by
  have hpending : m.Pending := ⟨by simp [hstart], by simp [hstart]⟩
  obtain ⟨hp, hrun⟩ := run_restored ops m hpending hops
  have hentry : restored model m a = m.entry a := by simp [restored, hstart]
  rw [← hentry, ← hrun a]
  exact foldl_runUndo _ _ hp.flushes a

end Manager

end Run

inductive NoteField where
  | id
  | title
  | body
deriving DecidableEq

/-- Notes, whose key is their id. -/
def noteModel : EntityModel NoteField String Unit where
  tableName := "notes"
  fieldNames := [.id, .title, .body]
  complete := by intro field; cases field <;> decide
  pkKey := fun row => row.fields .id
  pkIsNew := fun row => decide (row.fields .id = "")
  columnsEq := fun a b => [NoteField.id, .title, .body].all fun field => decide (a.fields field = b.fields field)

def noteRow (title body : String) : Row NoteField String Unit where
  fields
    | .id => "1"
    | .title => title
    | .body => body
  relations := ()

def loadedNote : Manager NoteField String Unit :=
  (Manager.new (noteRow "" "")).run noteModel [.attach (noteRow "Tides" "low") false]

/-- The database trims the title as it stores the row; the holder edits the body
meanwhile and then detaches the handle. -/
def savedEdited : List (ManagerOp NoteField String Unit) :=
  [.edit 0 [(.title, "Moon ")], .flushBegin 0, .flushWritten (noteRow "Moon" "low"), .edit 0 [(.body, "high")],
    .detach 0]

/-- The rollback puts back the title the flush gave the handle, and keeps the edit of
the body and the detachment. -/
theorem saved_edited_rolled_back :
    Manager.UndoableRun noteModel loadedNote savedEdited ∧
    ((loadedNote.run noteModel (savedEdited.take 3)).entry 0).current = noteRow "Moon" "low" ∧
    ((loadedNote.run noteModel savedEdited).rollback noteModel).entry 0 =
      ⟨noteRow "Moon " "high", some (noteRow "Tides" "low"), .detached, some "1", none⟩ := by
  have hrun : Manager.UndoableRun noteModel loadedNote savedEdited := by
    refine ⟨?_, trivial, rfl, ?_, ?_, trivial⟩
    · intro step hstep
      cases hstep
    · intro step hstep _ changes hchanges
      obtain rfl := List.mem_singleton.1 hstep
      obtain rfl := Option.some.inj hchanges
      -- the flush changed the title alone
      rintro f x hpatch hf
      obtain ⟨rfl, rfl⟩ := Prod.mk.inj (List.mem_singleton.1 hpatch)
      exact absurd hf (by decide)
    · intro u hu
      obtain ⟨-, rfl⟩ := UndoStep.flush.inj (List.mem_singleton.1 hu)
      unfold FlushUndo.Evicts
      decide
  have htitle : ((loadedNote.run noteModel (savedEdited.take 3)).entry 0).current = noteRow "Moon" "low" := by
    apply Row.ext
    · funext f
      cases f <;> rfl
    · rfl
  refine ⟨hrun, htitle, ?_⟩
  rw [Manager.rollback_leaves_holder_steps noteModel loadedNote rfl savedEdited hrun 0]
  refine ManagedEntry.ext (Row.ext ?_ rfl) rfl rfl rfl rfl
  funext f
  cases f <;> rfl

/-- A context that has loaded one row. -/
def loadedOne : Manager Unit String Unit :=
  (Manager.new (keyedRow "")).run keyedModel [.attach (keyedRow "k") false]

/-- A row removed and flushed. Its holder then detaches the handle. -/
def removedDetached : List (ManagerOp Unit String Unit) :=
  [.remove 0, .flushBegin 0, .flushDeleted, .detach 0]

/-- The rollback takes the detached handle for the one the flush left: it is managed
again, and the holder's detachment is lost. -/
theorem removed_detach_lost :
    loadedOne.undo = [] ∧
    (removedDetached.foldl (fun e op => e.holder 0 op) (loadedOne.entry 0)).state = .detached ∧
    (((loadedOne.run keyedModel removedDetached).rollback keyedModel).entry 0).state = .removed ∧
    ((loadedOne.run keyedModel removedDetached).rollback keyedModel).getManagedByKey "k" = some 0 ∧
    0 ∈ ((loadedOne.run keyedModel removedDetached).rollback keyedModel).managedEntries := by
  decide

/-- A holder's edit back to the stored value is taken for the flush's. -/
example : ((((Manager.new (keyedRow "")).run keyedModel [.persist (keyedRow ""), .flushBegin 0,
    .flushWritten (keyedRow "5"), .edit 0 [((), "6")], .edit 0 [((), "5")]]).rollback keyedModel).entry
      0).current.fields () = "" := by
  decide

end TideOrm
