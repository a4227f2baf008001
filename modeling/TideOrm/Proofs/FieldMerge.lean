import Mathlib.Data.List.TakeWhile
import TideOrm.Spec.FieldMerge

/-! Three versions of a row are merged field by field. A field that the holder left as it was loaded takes
the stored value, any other keeps the holder's, and the undo takes back what the merge put in, unless the
field was edited since. -/

namespace TideOrm.FieldCompare

variable {Field Val Rel C : Type} [DecidableEq C] (m : FieldCompare Field Val C)

section Comparison

variable {left right other : Row Field Val Rel} {field : Field}

theorem same_ok_iff (answer : Bool) : m.same left right field = .ok answer ↔
    ∃ value value', m.fieldCompareValue field (left.fields field) = .ok value ∧
      m.fieldCompareValue field (right.fields field) = .ok value' ∧ answer = decide (value = value') := by
  unfold same
  cases hleft : m.fieldCompareValue field (left.fields field) with
  | error error => simp [bind, Except.bind]
  | ok value =>
    cases hright : m.fieldCompareValue field (right.fields field) with
    | error error => simp [bind, Except.bind]
    | ok value' => simp [bind, Except.bind, pure, Except.pure, eq_comm]

theorem agree_iff : m.Agree left right field ↔ ∃ value, m.fieldCompareValue field (left.fields field) = .ok value ∧
    m.fieldCompareValue field (right.fields field) = .ok value := by
  unfold Agree
  rw [same_ok_iff]
  constructor
  · rintro ⟨value, value', hleft, hright, heq⟩
    exact ⟨value, hleft, of_decide_eq_true heq.symm ▸ hright⟩
  · rintro ⟨value, hleft, hright⟩
    exact ⟨value, value, hleft, hright, (decide_eq_true rfl).symm⟩

theorem Agree.not_differ (h : m.Agree left right field) : ¬m.Differ left right field := by
  unfold Differ
  rw [h]
  intro h
  cases h

theorem Agree.compareValue_eq (h : m.Agree left right field) :
    m.fieldCompareValue field (left.fields field) = m.fieldCompareValue field (right.fields field) := by
  obtain ⟨value, hleft, hright⟩ := m.agree_iff.1 h
  rw [hleft, hright]

/-- What a comparison answers depends on the fields' values alone. -/
theorem same_congr (h : other.fields field = left.fields field) : m.same other right field = m.same left right field := by
  unfold same
  rw [h]

theorem not_differ_self (row : Row Field Val Rel) : ¬m.Differ row row field := by
  intro h
  obtain ⟨value, value', hvalue, hvalue', heq⟩ := (m.same_ok_iff false).1 h
  rw [hvalue, Except.ok.injEq] at hvalue'
  exact of_decide_eq_false heq.symm hvalue'

theorem merged_of_agree {holder base saved : Row Field Val Rel} (h : m.Agree holder base field) :
    (m.merged holder base saved).fields field = saved.fields field :=
  if_pos h

theorem merged_of_not_agree {holder base saved : Row Field Val Rel} (h : ¬m.Agree holder base field) :
    (m.merged holder base saved).fields field = holder.fields field :=
  if_neg h

end Comparison

section Merge

variable [DecidableEq Field] (holder base saved : Row Field Val Rel)

/-- The fields that take a stored value which differs. -/
def taken (field : Field) : Bool := decide (m.Agree holder base field ∧ m.Differ holder saved field)

theorem mergeField_eq (field : Field) (target : Row Field Val Rel) (changed : List Field) :
    m.mergeField holder base saved field target changed = (m.same holder base field).bind fun agree =>
      if agree then (m.same holder saved field).map fun same =>
        (target.copyField saved field, if same then changed else changed ++ [field])
      else .ok (target.copyField holder field, changed) := by
  unfold mergeField same
  cases m.fieldCompareValue field (holder.fields field) with
  | error error => rfl
  | ok held =>
    cases m.fieldCompareValue field (base.fields field) with
    | error error => rfl
    | ok loaded =>
      by_cases heq : held = loaded
      · cases hsaved : m.fieldCompareValue field (saved.fields field) with
        | error error => simp [bind, Except.bind, pure, Except.pure, heq, Except.map]
        | ok stored => simp [bind, Except.bind, pure, Except.pure, heq, Except.map]
      · simp [bind, Except.bind, pure, Except.pure, heq]

theorem copyField_merged (target : Row Field Val Rel) (field : Field) :
    target.copyField (m.merged holder base saved) field =
      target.copyField (if m.Agree holder base field then saved else holder) field := by
  unfold Row.copyField merged
  split_ifs with h <;> simp [h]

theorem mergeField_ok {field : Field} (h : m.Mergeable holder base saved field) (target : Row Field Val Rel)
    (changed : List Field) : m.mergeField holder base saved field target changed =
      .ok (target.copyField (m.merged holder base saved) field,
        changed ++ if m.taken holder base saved field then [field] else []) := by
  rw [mergeField_eq, copyField_merged, taken]
  rcases h with hdiffer | ⟨hagree, hanswer⟩
  · have hagree : ¬m.Agree holder base field := fun h => h.not_differ m hdiffer
    rw [show m.same holder base field = .ok false from hdiffer]
    simp [Except.bind, hagree]
  · rw [show m.same holder base field = .ok true from hagree]
    rcases hanswer with hsame | hdiffer
    · have hnot := hsame.not_differ m
      rw [show m.same holder saved field = .ok true from hsame]
      simp [Except.bind, Except.map, hagree, hnot]
    · rw [show m.same holder saved field = .ok false from hdiffer]
      simp [Except.bind, Except.map, hagree, hdiffer]

theorem mergeField_error {field : Field} (h : ¬m.Mergeable holder base saved field) (target : Row Field Val Rel)
    (changed : List Field) : ∃ error, m.mergeField holder base saved field target changed = .error error := by
  rw [mergeField_eq]
  cases hbase : m.same holder base field with
  | error error => exact ⟨error, rfl⟩
  | ok agree =>
    cases agree with
    | false => exact absurd (.inl hbase) h
    | true =>
      cases hsaved : m.same holder saved field with
      | error error => exact ⟨error, rfl⟩
      | ok same => cases same with
        | false => exact absurd (.inr ⟨hbase, .inr hsaved⟩) h
        | true => exact absurd (.inr ⟨hbase, .inl hsaved⟩) h

/-- The merge copies the fields before the first one that cannot be compared. -/
theorem mergeFrom_fst (names : List Field) (target : Row Field Val Rel) (changed : List Field) :
    (m.mergeFrom holder base saved names target changed).1 =
      (names.takeWhile fun field => m.Mergeable holder base saved field).foldl
        (Row.copyField · (m.merged holder base saved)) target := by
  induction names generalizing target changed with
  | nil => rfl
  | cons field rest ih =>
    rw [mergeFrom, List.takeWhile_cons]
    by_cases h : m.Mergeable holder base saved field
    · rw [m.mergeField_ok holder base saved h, if_pos (decide_eq_true h), List.foldl_cons]
      exact ih _ _
    · obtain ⟨error, herror⟩ := m.mergeField_error holder base saved h target changed
      rw [herror, if_neg (mt of_decide_eq_true h), List.foldl_nil]

theorem mergeFrom_snd_of_mergeable (names : List Field) (h : ∀ field ∈ names, m.Mergeable holder base saved field)
    (target : Row Field Val Rel) (changed : List Field) :
    (m.mergeFrom holder base saved names target changed).2 = .ok (changed ++ names.filter (m.taken holder base saved)) := by
  induction names generalizing target changed with
  | nil => exact congrArg Except.ok (List.append_nil _).symm
  | cons field rest ih =>
    rw [List.forall_mem_cons] at h
    rw [mergeFrom, m.mergeField_ok holder base saved h.1, ih h.2, List.append_assoc, List.filter_cons]
    split_ifs <;> rfl

theorem mergeFrom_snd_ok_iff (names : List Field) (target : Row Field Val Rel) (changed : List Field) :
    (∃ taken, (m.mergeFrom holder base saved names target changed).2 = .ok taken) ↔
      ∀ field ∈ names, m.Mergeable holder base saved field := by
  constructor
  · induction names generalizing target changed with
    | nil => exact fun _ _ h => by cases h
    | cons field rest ih =>
      rw [List.forall_mem_cons, mergeFrom]
      by_cases h : m.Mergeable holder base saved field
      · rw [m.mergeField_ok holder base saved h]
        exact fun hok => ⟨h, ih _ _ hok⟩
      · obtain ⟨error, herror⟩ := m.mergeField_error holder base saved h target changed
        rw [herror]
        exact fun ⟨_, hok⟩ => nomatch hok
  · exact fun h => ⟨_, m.mergeFrom_snd_of_mergeable holder base saved names h target changed⟩

theorem foldl_copyField (source : Row Field Val Rel) (names : List Field) (target : Row Field Val Rel) :
    (names.foldl (Row.copyField · source) target).relations = target.relations ∧
      ∀ field, (names.foldl (Row.copyField · source) target).fields field =
        if field ∈ names then source.fields field else target.fields field := by
  induction names generalizing target with
  | nil => exact ⟨rfl, fun _ => rfl⟩
  | cons name rest ih =>
    obtain ⟨hrelations, hfields⟩ := ih (target.copyField source name)
    refine ⟨hrelations, fun field => ?_⟩
    rw [List.foldl_cons, hfields]
    by_cases hrest : field ∈ rest
    · rw [if_pos hrest, if_pos (List.mem_cons_of_mem _ hrest)]
    · by_cases hname : field = name
      · subst hname
        simp [hrest, Row.copyField]
      · simp [hrest, hname, Row.copyField]

variable {holder base saved} {target : Row Field Val Rel}

/-- What a merge that answers has done. -/
theorem mergeFields_ok {after : Row Field Val Rel} {changed : List Field}
    (h : m.mergeFields target holder base saved = (after, .ok changed)) :
    after.relations = target.relations ∧
      (∀ field, after.fields field =
        if field ∈ m.fieldNames then (m.merged holder base saved).fields field else target.fields field) ∧
      changed = m.fieldNames.filter (m.taken holder base saved) := by
  have hmergeable := (m.mergeFrom_snd_ok_iff holder base saved m.fieldNames target []).1 ⟨changed, congrArg Prod.snd h⟩
  have hafter : (m.mergeFields target holder base saved).1 = after := congrArg Prod.fst h
  have hchanged : (m.mergeFields target holder base saved).2 = .ok changed := congrArg Prod.snd h
  rw [mergeFields, mergeFrom_fst, List.takeWhile_eq_self_iff.2 fun field hfield => decide_eq_true (hmergeable field hfield)]
    at hafter
  rw [mergeFields, m.mergeFrom_snd_of_mergeable holder base saved _ hmergeable, List.nil_append, Except.ok.injEq] at hchanged
  obtain ⟨hrelations, hfields⟩ := foldl_copyField (m.merged holder base saved) m.fieldNames target
  exact ⟨hafter ▸ hrelations, hafter ▸ hfields, hchanged.symm⟩

end Merge

section Undo

variable [DecidableEq Field] (changes : FieldChanges Field Val Rel)

theorem undoField_fields (target : Row Field Val Rel) (field other : Field) : (m.undoField changes target field).fields other =
    if other = field ∧ m.Agree target changes.after field then changes.before.fields other else target.fields other := by
  unfold undoField
  split
  · next hagree =>
    by_cases hother : other = field
    · subst hother
      simp [Row.copyField, Agree, hagree]
    · simp [Row.copyField, hother]
  · next hagree => rw [if_neg fun h => hagree h.2]

theorem undoField_relations (target : Row Field Val Rel) (field : Field) :
    (m.undoField changes target field).relations = target.relations := by
  unfold undoField
  split <;> rfl

/-- Whatever was edited since, the undo takes back the fields that still hold the stored value. -/
theorem undo_spec (target : Row Field Val Rel) : (m.undo changes target).relations = target.relations ∧
    ∀ field, (m.undo changes target).fields field =
      if field ∈ changes.fields ∧ m.Agree target changes.after field then changes.before.fields field
      else target.fields field := by
  unfold undo
  generalize changes.fields = names
  induction names generalizing target with
  | nil => exact ⟨rfl, fun _ => by simp⟩
  | cons name rest ih =>
    obtain ⟨hrelations, hfields⟩ := ih (m.undoField changes target name)
    refine ⟨hrelations.trans (m.undoField_relations changes target name), fun field => ?_⟩
    rw [List.foldl_cons, hfields]
    have hfield := m.undoField_fields changes target name field
    by_cases hback : field = name ∧ m.Agree target changes.after name
    · -- put back already; a second time leaves it so
      rw [if_pos hback] at hfield
      obtain ⟨rfl, hagree⟩ := hback
      rw [hfield, ite_self, if_pos ⟨List.mem_cons_self, hagree⟩]
    · rw [if_neg hback] at hfield
      have hiff : m.Agree (m.undoField changes target name) changes.after field ↔ m.Agree target changes.after field := by
        unfold Agree
        rw [m.same_congr hfield]
      rw [hfield]
      refine if_congr ?_ rfl rfl
      rw [hiff, List.mem_cons]
      constructor
      · exact fun h => ⟨.inr h.1, h.2⟩
      · rintro ⟨hmem, hagree⟩
        refine ⟨hmem.resolve_left ?_, hagree⟩
        rintro rfl
        exact hback ⟨rfl, hagree⟩

end Undo

section Rebase

variable [DecidableEq Field] {e entry : ManagedEntry Field Val Rel} {loaded saved : Row Field Val Rel}
  {undo : Option (FieldChanges Field Val Rel × Row Field Val Rel)}

/-- A rebase that answers is a merge that answers, over the stored row. -/
theorem rebase_ok (hloaded : e.snapshot = some loaded) (h : m.rebase e saved = (entry, .ok undo)) :
    ∃ current fields, m.mergeFields e.current e.current loaded saved = (current, .ok fields) ∧
      entry = { e with current, snapshot := some saved } ∧ undo = some (⟨fields, e.current, saved⟩, loaded) := by
  unfold rebase at h
  rw [hloaded] at h
  dsimp only at h
  split at h
  · exact nomatch congrArg Prod.snd h
  · next current fields hmerge =>
    rw [Prod.mk.injEq, Except.ok.injEq] at h
    exact ⟨current, fields, hmerge, h.1.symm, h.2.symm⟩

/-- Dirty after a rebase are the fields whose edit the stored row does not hold. -/
theorem differ_rebased_iff {current : Row Field Val Rel} {fields : List Field}
    (h : m.mergeFields e.current e.current loaded saved = (current, .ok fields)) {field : Field} (hfield : field ∈ m.fieldNames) :
    m.Differ current saved field ↔ m.Differ e.current loaded field ∧ m.Differ e.current saved field := by
  have hvalue := (m.mergeFields_ok h).2.1 field
  rw [if_pos hfield] at hvalue
  by_cases hagree : m.Agree e.current loaded field
  · rw [m.merged_of_agree hagree] at hvalue
    refine iff_of_false ?_ fun hdiffer => hagree.not_differ m hdiffer.1
    unfold Differ
    rw [m.same_congr hvalue]
    exact m.not_differ_self saved
  · rw [m.merged_of_not_agree hagree] at hvalue
    have hdiffer : m.Differ e.current loaded field := by
      have hmergeable := (m.mergeFrom_snd_ok_iff e.current loaded saved m.fieldNames e.current []).1
        ⟨fields, congrArg Prod.snd h⟩ field hfield
      exact hmergeable.resolve_right fun h => hagree h.1
    unfold Differ at hdiffer ⊢
    rw [m.same_congr hvalue]
    exact ⟨fun h => ⟨hdiffer, h⟩, fun h => h.2⟩

/-- A rebase over the row that the entry was loaded as. -/
theorem rebase_same (hsaved : e.snapshot = some saved) :
    (∃ current, (m.rebase e saved).1 = { e with current } ∧ m.SameRow current e.current ∧
      ∀ field, current.fields field = e.current.fields field ∨
        m.Agree e.current saved field ∧ current.fields field = saved.fields field) ∧
      ∀ undo, (m.rebase e saved).2 = .ok undo → undo = some (⟨[], e.current, saved⟩, saved) := by
  have hcurrent := m.mergeFrom_fst e.current saved saved m.fieldNames e.current []
  have hentry : (m.rebase e saved).1 = { e with current := (m.mergeFields e.current e.current saved saved).1 } := by
    unfold rebase
    rw [hsaved]
    dsimp only
    split
    · next hmerge => rw [hmerge]
    · next hmerge => rw [hmerge, ← hsaved]
  obtain ⟨hrelations, hfields⟩ := foldl_copyField (m.merged e.current saved saved)
    (m.fieldNames.takeWhile fun field => m.Mergeable e.current saved saved field) e.current
  rw [← hcurrent] at hrelations hfields
  have hvalue (field : Field) : (m.mergeFields e.current e.current saved saved).1.fields field = e.current.fields field ∨
      m.Agree e.current saved field ∧ (m.mergeFields e.current e.current saved saved).1.fields field = saved.fields field := by
    unfold mergeFields
    rw [hfields]
    split_ifs with hdone
    · by_cases hagree : m.Agree e.current saved field
      · exact .inr ⟨hagree, m.merged_of_agree hagree⟩
      · exact .inl (m.merged_of_not_agree hagree)
    · exact .inl rfl
  refine ⟨⟨_, hentry, ⟨hrelations, fun field => ?_⟩, hvalue⟩, fun undo hundo => ?_⟩
  · rcases hvalue field with heq | ⟨hagree, heq⟩
    · rw [heq]
    · rw [heq, hagree.compareValue_eq]
  · obtain ⟨current, fields, hmerge, -, rfl⟩ := m.rebase_ok hsaved (Prod.ext rfl hundo)
    have hnone : m.fieldNames.filter (m.taken e.current saved saved) = [] :=
      List.filter_eq_nil_iff.2 fun field _ htaken => (of_decide_eq_true htaken).1.not_differ m (of_decide_eq_true htaken).2
    rw [(m.mergeFields_ok hmerge).2.2, hnone]

end Rebase

/-- The merge of three rows, what it leaves dirty, and its undo. -/
theorem rebase_merges [DecidableEq Field] (m : FieldCompare Field Val C) :
    (∀ target holder base saved : Row Field Val Rel,
      ((∃ changed, (m.mergeFields target holder base saved).2 = .ok changed) ↔
        ∀ field ∈ m.fieldNames, m.Mergeable holder base saved field) ∧
      ∀ after changed, m.mergeFields target holder base saved = (after, .ok changed) →
        after.relations = target.relations ∧
        (∀ field ∈ m.fieldNames,
          after.fields field = if m.Agree holder base field then saved.fields field else holder.fields field) ∧
        (∀ field ∉ m.fieldNames, after.fields field = target.fields field) ∧
        changed = m.fieldNames.filter fun field => m.Agree holder base field ∧ m.Differ holder saved field) ∧
    ∀ (e entry : ManagedEntry Field Val Rel) (loaded saved : Row Field Val Rel)
      (undo : Option (FieldChanges Field Val Rel × Row Field Val Rel)),
      e.snapshot = some loaded → m.rebase e saved = (entry, .ok undo) →
        entry.snapshot = some saved ∧
        (∀ field ∈ m.fieldNames,
          m.Differ entry.current saved field ↔ m.Differ e.current loaded field ∧ m.Differ e.current saved field) ∧
        (∃ current, (m.rebase entry saved).1 = { entry with current } ∧ m.SameRow current entry.current ∧
          ∀ field, current.fields field = entry.current.fields field ∨
            m.Agree entry.current saved field ∧ current.fields field = saved.fields field) ∧
        (∀ undo, (m.rebase entry saved).2 = .ok undo → undo = some (⟨[], entry.current, saved⟩, saved)) ∧
        ∃ changes, undo = some (changes, loaded) ∧
          changes.fields = m.fieldNames.filter (fun field => m.Agree e.current loaded field ∧ m.Differ e.current saved field) ∧
          ∀ now : ManagedEntry Field Val Rel, ∃ current, m.undoRebase now changes loaded = { now with current, snapshot := some loaded } ∧
            current.relations = now.current.relations ∧
            ∀ field, current.fields field =
              if field ∈ changes.fields ∧ m.Agree now.current saved field then e.current.fields field
              else now.current.fields field := by
  constructor
  · intro target holder base saved
    refine ⟨m.mergeFrom_snd_ok_iff holder base saved m.fieldNames target [], fun after changed h => ?_⟩
    obtain ⟨hrelations, hfields, hchanged⟩ := m.mergeFields_ok h
    refine ⟨hrelations, fun field hfield => ?_, fun field hfield => ?_, hchanged⟩
    · rw [hfields, if_pos hfield, merged]
    · rw [hfields, if_neg hfield]
  · intro e entry loaded saved undo hloaded h
    obtain ⟨current, fields, hmerge, rfl, rfl⟩ := m.rebase_ok hloaded h
    obtain ⟨hagain, hnone⟩ := m.rebase_same (e := { e with current, snapshot := some saved }) rfl
    refine ⟨rfl, fun field => m.differ_rebased_iff hmerge, hagain, hnone, _, rfl, (m.mergeFields_ok hmerge).2.2, fun now => ?_⟩
    obtain ⟨hrelations, hfields⟩ := m.undo_spec ⟨fields, e.current, saved⟩ now.current
    exact ⟨_, rfl, hrelations, hfields⟩

/-- Numbers of a sign, true for minus, and a magnitude: the two zeros compare as equal. -/
def signedCompare : FieldCompare Unit (Bool × ℕ) ℤ where
  fieldNames := [()]
  fieldCompareValue _ value := .ok (if value.1 then -value.2 else value.2)

/-- An edit to `-0.0` that survives the rebase over a stored `0.0` is lost to the next one. -/
theorem rebase_again_takes_zero :
    ¬ ∀ (m : FieldCompare Unit (Bool × ℕ) ℤ) (e entry : ManagedEntry Unit (Bool × ℕ) Unit) (loaded saved : Row Unit (Bool × ℕ) Unit)
      (undo : Option (FieldChanges Unit (Bool × ℕ) Unit × Row Unit (Bool × ℕ) Unit)),
      e.snapshot = some loaded → m.rebase e saved = (entry, .ok undo) → (m.rebase entry saved).1 = entry := by
  intro h
  let row : Bool × ℕ → Row Unit (Bool × ℕ) Unit := fun value => ⟨fun _ => value, ()⟩
  have hsame := h signedCompare ⟨row (true, 0), some (row (false, 5)), .managed, none, none⟩ _ _ (row (false, 0)) _ rfl rfl
  have hfield := congrArg (fun entry => entry.current.fields ()) hsame
  exact absurd hfield (by decide)

-- the first field is edited, the second was stored anew, the third is both, and ends as it was stored
example :
    let m : FieldCompare ℕ ℕ ℕ := ⟨[0, 1, 2], fun _ value => .ok value⟩
    let row := fun values : List ℕ => (⟨fun field => values.getD field 0, ()⟩ : Row ℕ ℕ Unit)
    let merge := m.mergeFields (row [9, 0, 7]) (row [9, 0, 7]) (row [0, 0, 0]) (row [0, 5, 7])
    m.fieldNames.map merge.1.fields = [9, 5, 7] ∧ merge.2 = .ok [1] := by
  decide

section Plain

variable [DecidableEq Field] [DecidableEq Val] (model : EntityModel Field Val Rel)

theorem mergeFrom_plain (holder base saved : Row Field Val Rel) (names : List Field) (target : Row Field Val Rel)
    (changed : List Field) : (plain model).mergeFrom holder base saved names target changed =
      (names.foldl (fun (target, changed) field =>
        let held := holder.fields field
        if held = base.fields field then
          (target.copyField saved field, if held = saved.fields field then changed else changed ++ [field])
        else (target.copyField holder field, changed)) (target, changed)).map id .ok := by
  induction names generalizing target changed with
  | nil => rfl
  | cons field rest ih =>
    rw [mergeFrom, List.foldl_cons]
    by_cases heq : holder.fields field = base.fields field
    · simp [mergeField, plain, bind, Except.bind, pure, Except.pure, heq] at ih ⊢
      exact ih _ _
    · simp [mergeField, plain, bind, Except.bind, pure, Except.pure, heq] at ih ⊢
      exact ih _ _

/-- Where no comparison fails and values are compared themselves, the merge is that of the managed
entries. -/
theorem mergeFields_plain (target holder base saved : Row Field Val Rel) :
    (plain model).mergeFields target holder base saved =
      ((TideOrm.mergeFields model target holder base saved).1, .ok (TideOrm.mergeFields model target holder base saved).2) :=
  mergeFrom_plain model holder base saved model.fieldNames target []

theorem undo_plain (changes : FieldChanges Field Val Rel) (target : Row Field Val Rel) :
    (plain model).undo changes target = changes.undo target := by
  unfold undo FieldChanges.undo
  congr
  funext target field
  by_cases heq : target.fields field = changes.after.fields field
  · simp [undoField, same, plain, bind, Except.bind, pure, Except.pure, heq]
  · simp [undoField, same, plain, bind, Except.bind, pure, Except.pure, heq]

end Plain

end TideOrm.FieldCompare
