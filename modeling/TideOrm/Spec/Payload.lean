import TideOrm.Spec.Filters

/-! The hidden attributes of a model and of the models related to it, removed from a payload that
is JSON already (`model/serialization.rs`, `model/meta.rs`), and which members those are. -/

namespace TideOrm.Payload

/-- What is known of a model whose rows are serialized; `M` are the models, so a relation may lead
back to where it comes from. -/
structure PayloadMeta (M : Type) where
  hiddenAttributes : List String
  /-- the key that a field is serialized under -/
  serializedName : String → String
  fieldNames : List String
  columnNames : List String
  skippedFields : List String
  flattenedFields : List String
  hasTranslations : Bool
  hasFileAttachments : Bool
  /-- the keys of typed relations, each with the model whose filter it has -/
  relationPayloadFilters : List (String × M)

abbrev Members := List (String × Json)

/-- `Map::remove` -/
def remove (members : Members) (key : String) : Members := members.filter fun member => member.1 != key

section Filtering

variable {M : Type} (family : M → PayloadMeta M) (globalHidden : List String)

def isPersistedAttribute (m : PayloadMeta M) (name : String) : Bool :=
  m.fieldNames.any (fun field => field == name || m.serializedName field == name) || m.columnNames.contains name

def unfilterableFlattenedField (m : PayloadMeta M) : Option String :=
  if m.flattenedFields.isEmpty then none
  else m.flattenedFields.find? fun field =>
    m.hiddenAttributes.contains field || globalHidden.any (· == field) ||
      m.relationPayloadFilters.any fun relation => relation.1 == m.serializedName field

def isHidden (name : String) (hidden : List String) : Bool := hidden.contains name || globalHidden.any (· == name)

/-- The entries that a raw `translations` or `files` column keeps. -/
def stripHiddenBackingEntries (m : PayloadMeta M) (key : String) (value : Json) : Json :=
  match value with
  | .object entries =>
    if m.hasTranslations ∧ key = m.serializedName "translations" then
      .object (entries.filter fun entry =>
        !isHidden globalHidden entry.1 m.hiddenAttributes && !m.skippedFields.contains entry.1)
    else if m.hasFileAttachments ∧ key = m.serializedName "files" then
      .object (entries.filter fun entry => !isHidden globalHidden entry.1 m.hiddenAttributes)
    else .object entries
  | value => value

theorem sizeOf_filter_le (p : String × Json → Bool) (members : Members) : sizeOf (members.filter p) ≤ sizeOf members := by
  induction members with
  | nil => exact Nat.le_refl _
  | cons member members ih =>
    rw [List.filter_cons]
    split
    · rw [List.cons.sizeOf_spec, List.cons.sizeOf_spec]
      omega
    · rw [List.cons.sizeOf_spec]
      omega

theorem sizeOf_removals_le (nameOf : String → String) (attrs : List String) (members : Members) :
    sizeOf (attrs.foldl (fun members attr => remove members (nameOf attr)) members) ≤ sizeOf members := by
  induction attrs generalizing members with
  | nil => exact Nat.le_refl _
  | cons attr attrs ih => exact Nat.le_trans (ih _) (sizeOf_filter_le _ _)

/-- The members left by names that are removed. -/
def removeNamed (hidden : List String) (members : Members) : Members := globalHidden.foldl remove (hidden.foldl remove members)

theorem sizeOf_removeNamed_le (hidden : List String) (members : Members) : sizeOf (removeNamed globalHidden hidden members) ≤ sizeOf members :=
  Nat.le_trans (sizeOf_removals_le id globalHidden _) (sizeOf_removals_le id hidden members)

theorem sizeOf_lt_object {left members : Members} (h : sizeOf left ≤ sizeOf members) : sizeOf left < sizeOf (Json.object members) := by
  rw [Json.object.sizeOf_spec]
  omega

mutual

/-- Removes the names at every depth. -/
def stripHiddenAttributes (hidden : List String) (value : Json) : Json :=
  match value with
  | .object map => .object (stripHiddenValues hidden (removeNamed globalHidden hidden map))
  | .array items => .array (stripHiddenItems hidden items)
  | value => value
termination_by sizeOf value
decreasing_by
  · exact sizeOf_lt_object (sizeOf_removeNamed_le globalHidden hidden map)
  · rw [Json.array.sizeOf_spec]
    omega

def stripHiddenValues (hidden : List String) (members : Members) : Members :=
  match members with
  | [] => []
  | (key, value) :: rest => (key, stripHiddenAttributes hidden value) :: stripHiddenValues hidden rest
termination_by sizeOf members
decreasing_by
  · rw [List.cons.sizeOf_spec, Prod.mk.sizeOf_spec]
    omega
  · rw [List.cons.sizeOf_spec]
    omega

def stripHiddenItems (hidden : List String) (items : List Json) : List Json :=
  match items with
  | [] => []
  | item :: rest => stripHiddenAttributes hidden item :: stripHiddenItems hidden rest
termination_by sizeOf items
decreasing_by
  · rw [List.cons.sizeOf_spec]
    omega
  · rw [List.cons.sizeOf_spec]
    omega

end

/-- The members of a row left by its model's hidden attributes and the global ones. -/
def removeSerialized (m : PayloadMeta M) (members : Members) : Members :=
  let members := m.hiddenAttributes.foldl (fun members attr => remove members (m.serializedName attr)) members
  globalHidden.foldl (fun members attr => remove members (m.serializedName attr)) members

theorem sizeOf_removeSerialized_le (m : PayloadMeta M) (members : Members) :
    sizeOf (removeSerialized globalHidden m members) ≤ sizeOf members :=
  Nat.le_trans (sizeOf_removals_le m.serializedName globalHidden _) (sizeOf_removals_le m.serializedName m.hiddenAttributes members)

mutual

/-- Filters the payload of one model, or of many, and recurses through its relations. -/
def stripModelPayload (model : M) (value : Json) : Json :=
  match value with
  | .object map =>
    if (unfilterableFlattenedField globalHidden (family model)).isSome then .object []
    else .object (stripHiddenFromNonColumnPayloads model (removeSerialized globalHidden (family model) map))
  | .array items => .array (stripPayloads model items)
  | value => value
termination_by sizeOf value
decreasing_by
  · exact sizeOf_lt_object (sizeOf_removeSerialized_le globalHidden (family model) map)
  · rw [Json.array.sizeOf_spec]
    omega

def stripPayloads (model : M) (items : List Json) : List Json :=
  match items with
  | [] => []
  | item :: rest => stripModelPayload model item :: stripPayloads model rest
termination_by sizeOf items
decreasing_by
  · rw [List.cons.sizeOf_spec]
    omega
  · rw [List.cons.sizeOf_spec]
    omega

def stripHiddenFromNonColumnPayloads (model : M) (members : Members) : Members :=
  match members with
  | [] => []
  | (key, value) :: rest =>
    -- A declared relation takes precedence over an attribute of its name.
    let filtered :=
      match (family model).relationPayloadFilters.findSome? fun relation => if relation.1 = key then some relation.2 else none with
      | some target => stripModelPayload target value
      | none =>
        if isPersistedAttribute (family model) key then stripHiddenBackingEntries globalHidden (family model) key value
        else stripHiddenAttributes globalHidden (family model).hiddenAttributes value
    (key, filtered) :: stripHiddenFromNonColumnPayloads model rest
termination_by sizeOf members
decreasing_by
  · rw [List.cons.sizeOf_spec, Prod.mk.sizeOf_spec]
    omega
  · rw [List.cons.sizeOf_spec]
    omega

end

end Filtering

/-- What a value of a payload is to the filter of the payload: a row of a model or a list of
them, the raw `translations` or `files` of one, what a member that is no attribute holds, or what
is kept as it is. -/
inductive Place (M : Type) where
  | row (model : M)
  | translations (model : M)
  | files (model : M)
  | other (model : M)
  | kept

namespace Place

variable {M : Type} (family : M → PayloadMeta M) (globalHidden : List String)

/-- The place of the elements of an array, for which the key is none, or of a member. -/
def inner (place : Place M) (key : Option String) : Place M :=
  match place, key with
  | row model, none => row model
  | row model, some key =>
    match (family model).relationPayloadFilters.lookup key with
    | some target => row target
    | none =>
      if isPersistedAttribute (family model) key then
        if (family model).hasTranslations ∧ key = (family model).serializedName "translations" then translations model
        else if (family model).hasFileAttachments ∧ key = (family model).serializedName "files" then files model
        else kept
      else other model
  | other model, _ => other model
  | translations _, _ | files _, _ | kept, _ => kept

/-- What a path leads to. -/
def reached (place : Place M) (path : List (Option String)) : Place M := path.foldl (inner family) place

/-- The names that the model hides, or all models. -/
def Named (model : M) (name : String) : Prop := name ∈ (family model).hiddenAttributes ∨ name ∈ globalHidden

/-- Whether a member does not leave in an object that stands there. -/
def Hides (place : Place M) (key : String) : Prop :=
  match place with
  | row model => ∃ attr, Named family globalHidden model attr ∧ (family model).serializedName attr = key
  | translations model => Named family globalHidden model key ∨ key ∈ (family model).skippedFields
  | files model => Named family globalHidden model key
  | other model => Named family globalHidden model key
  | kept => False

end Place

section Without

open scoped Classical

mutual

/-- The document without the members that are gone, each given by the path to its object and its
key; on a path the elements of an array are none. -/
noncomputable def without (gone : List (Option String) → String → Prop) : Json → Json
  | .array items => .array (withoutItems (fun path => gone (none :: path)) items)
  | .object members => .object (withoutMembers gone members)
  | value => value

noncomputable def withoutItems (gone : List (Option String) → String → Prop) : List Json → List Json
  | [] => []
  | item :: rest => without gone item :: withoutItems gone rest

noncomputable def withoutMembers (gone : List (Option String) → String → Prop) : Members → Members
  | [] => []
  | (key, value) :: rest =>
    if gone [] key then withoutMembers gone rest
    else (key, without (fun path => gone (some key :: path)) value) :: withoutMembers gone rest

end

/-- The object at the end of the path has the member. -/
inductive Shows : Json → List (Option String) → String → Json → Prop where
  | here {members : Members} {key : String} {value : Json} (hmem : (key, value) ∈ members) : Shows (.object members) [] key value
  | item {items : List Json} {item value : Json} {path : List (Option String)} {key : String} (hmem : item ∈ items)
      (hshows : Shows item path key value) : Shows (.array items) (none :: path) key value
  | member {members : Members} {name key : String} {inner value : Json} {path : List (Option String)}
      (hmem : (name, inner) ∈ members) (hshows : Shows inner path key value) :
      Shows (.object members) (some name :: path) key value

end Without

/-- The models that an object of the payload is a row of. -/
inductive Met {M : Type} (family : M → PayloadMeta M) (globalHidden : List String) : M → Json → M → Prop where
  | row {model : M} {members : Members} : Met family globalHidden model (.object members) model
  | item {model met : M} {items : List Json} {item : Json} (hmem : item ∈ items) (hmet : Met family globalHidden model item met) :
      Met family globalHidden model (.array items) met
  | relation {model related met : M} {members : Members} {key : String} {value : Json} (hmem : (key, value) ∈ members)
      (hshown : ¬ (Place.row model).Hides family globalHidden key)
      (hrelated : (family model).relationPayloadFilters.lookup key = some related)
      (hmet : Met family globalHidden related value met) : Met family globalHidden model (.object members) met

end TideOrm.Payload
