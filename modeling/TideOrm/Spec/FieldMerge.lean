import TideOrm.Spec.Managed

/-! The three-way merge of a stored row into a managed entity (`entity_manager/managed.rs`), with the
comparison that a derived model makes: fields are compared by `field_compare_value`, which reads their
JSON and may fail, and are copied as values. -/

namespace TideOrm

/-- How a model type compares its fields; `C` is what `field_compare_value` returns. -/
structure FieldCompare (Field Val C : Type) where
  fieldNames : List Field
  fieldCompareValue : Field → Val → Except Error C

namespace FieldCompare

variable {Field Val Rel C : Type} [DecidableEq Field] [DecidableEq C] (m : FieldCompare Field Val C)

/-- `left.field_compare_value(field)? == right.field_compare_value(field)?` -/
def same (left right : Row Field Val Rel) (field : Field) : Except Error Bool := do
  let value ← m.fieldCompareValue field (left.fields field)
  let other ← m.fieldCompareValue field (right.fields field)
  pure (value = other)

section Merge

variable (holder base saved : Row Field Val Rel)

def mergeField (field : Field) (target : Row Field Val Rel) (changed : List Field) :
    Except Error (Row Field Val Rel × List Field) := do
  let held ← m.fieldCompareValue field (holder.fields field)
  let loaded ← m.fieldCompareValue field (base.fields field)
  if held = loaded then
    let stored ← m.fieldCompareValue field (saved.fields field)
    pure (target.copyField saved field, if held = stored then changed else changed ++ [field])
  else pure (target.copyField holder field, changed)

/-- The loop of `merge_fields`; the fields before one that fails are in `target` by then. -/
def mergeFrom : List Field → Row Field Val Rel → List Field → Row Field Val Rel × Except Error (List Field)
  | [], target, changed => (target, .ok changed)
  | field :: rest, target, changed =>
    match m.mergeField holder base saved field target changed with
    | .error error => (target, .error error)
    | .ok (target, changed) => mergeFrom rest target changed

end Merge

/-- `target` as the merge leaves it, and the fields that took a different stored value. -/
def mergeFields (target holder base saved : Row Field Val Rel) : Row Field Val Rel × Except Error (List Field) :=
  m.mergeFrom holder base saved m.fieldNames target []

/-- Put `field` back where it still holds the stored value. -/
def undoField (changes : FieldChanges Field Val Rel) (target : Row Field Val Rel) (field : Field) : Row Field Val Rel :=
  match m.same target changes.after field with
  | .ok true => target.copyField changes.before field
  | _ => target

def undo (changes : FieldChanges Field Val Rel) (target : Row Field Val Rel) : Row Field Val Rel :=
  changes.fields.foldl (m.undoField changes) target

/-- Move the entry onto `saved`, the row as it was stored meanwhile. What the surrounding transaction
would undo is returned; an entry never loaded has nothing to rebase. -/
def rebase (e : ManagedEntry Field Val Rel) (saved : Row Field Val Rel) :
    ManagedEntry Field Val Rel × Except Error (Option (FieldChanges Field Val Rel × Row Field Val Rel)) :=
  match e.snapshot with
  | none => (e, .ok none)
  | some loaded =>
    match m.mergeFields e.current e.current loaded saved with
    | (current, .error error) => ({ e with current }, .error error)
    | (current, .ok fields) => ({ e with current, snapshot := some saved }, .ok (some (⟨fields, e.current, saved⟩, loaded)))

/-- What `undo_on_rollback` runs. -/
def undoRebase (e : ManagedEntry Field Val Rel) (changes : FieldChanges Field Val Rel) (loaded : Row Field Val Rel) :
    ManagedEntry Field Val Rel :=
  { e with current := m.undo changes e.current, snapshot := some loaded }

/-- Values that are compared themselves. -/
def plain (model : EntityModel Field Val Rel) : FieldCompare Field Val Val where
  fieldNames := model.fieldNames
  fieldCompareValue _ value := .ok value

section Readings

/-- The comparison answers that the two rows agree on the field. -/
def Agree (left right : Row Field Val Rel) (field : Field) : Prop := m.same left right field = .ok true

/-- The comparison answers that the two rows differ on the field. -/
def Differ (left right : Row Field Val Rel) (field : Field) : Prop := m.same left right field = .ok false

instance (left right : Row Field Val Rel) (field : Field) : Decidable (m.Agree left right field) :=
  inferInstanceAs (Decidable (_ = _))

instance (left right : Row Field Val Rel) (field : Field) : Decidable (m.Differ left right field) :=
  inferInstanceAs (Decidable (_ = _))

/-- Every comparison that a merge of the field makes answers. -/
def Mergeable (holder base saved : Row Field Val Rel) (field : Field) : Prop :=
  m.Differ holder base field ∨
    m.Agree holder base field ∧ (m.Agree holder saved field ∨ m.Differ holder saved field)

instance (holder base saved : Row Field Val Rel) (field : Field) : Decidable (m.Mergeable holder base saved field) :=
  inferInstanceAs (Decidable (_ ∨ _))

/-- The holder's row with each field it left as loaded taken from the stored row. -/
def merged (holder base saved : Row Field Val Rel) : Row Field Val Rel :=
  { holder with fields := fun field => if m.Agree holder base field then saved.fields field else holder.fields field }

/-- No comparison tells the rows apart. -/
structure SameRow (left right : Row Field Val Rel) : Prop where
  relations : left.relations = right.relations
  fields : ∀ field, m.fieldCompareValue field (left.fields field) = m.fieldCompareValue field (right.fields field)

end Readings

end FieldCompare

end TideOrm
