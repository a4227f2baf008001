import TideOrm.Spec.Payload

/-! No hidden attribute leaves in a payload, and all the rest does: the filter of a payload
removes the members that are hidden where they stand, and no others. -/

namespace TideOrm.Payload

section Documents

/-- What holds of a document once it holds of the documents in it holds of every document. -/
theorem document_induction {P : Json → Prop} (scalar : ∀ value, (∀ items, value ≠ .array items) → (∀ members, value ≠ .object members) → P value)
    (array : ∀ items, (∀ item ∈ items, P item) → P (.array items))
    (object : ∀ members : Members, (∀ member ∈ members, P member.2) → P (.object members)) (value : Json) : P value := by
  induction hsize : sizeOf value using Nat.strong_induction_on generalizing value with
  | h size ih =>
    subst hsize
    cases value with
    | array items =>
      refine array items fun item hitem => ih _ ?_ item rfl
      have hlt := List.sizeOf_lt_of_mem hitem
      rw [Json.array.sizeOf_spec]
      omega
    | object members =>
      refine object members fun member hmember => ih _ ?_ member.2 rfl
      have hlt := List.sizeOf_lt_of_mem hmember
      obtain ⟨key, inner⟩ := member
      rw [Prod.mk.sizeOf_spec] at hlt
      rw [Json.object.sizeOf_spec]
      dsimp only
      omega
    | null => exact scalar _ (fun _ h => by cases h) fun _ h => by cases h
    | bool b => exact scalar _ (fun _ h => by cases h) fun _ h => by cases h
    | number n => exact scalar _ (fun _ h => by cases h) fun _ h => by cases h
    | string s => exact scalar _ (fun _ h => by cases h) fun _ h => by cases h

end Documents

section Removed

theorem foldl_remove (nameOf : String → String) (attrs : List String) (members : Members) :
    attrs.foldl (fun members attr => remove members (nameOf attr)) members =
      members.filter fun member => decide (∀ attr ∈ attrs, nameOf attr ≠ member.1) := by
  induction attrs generalizing members with
  | nil => simp
  | cons attr attrs ih =>
    rw [List.foldl_cons, ih, remove, List.filter_filter]
    refine List.filter_congr fun member _ => ?_
    rw [Bool.eq_iff_iff, Bool.and_eq_true, decide_eq_true_iff, decide_eq_true_iff, List.forall_mem_cons, bne_iff_ne, and_comm]
    exact and_congr_left' ne_comm

variable {M : Type} {family : M → PayloadMeta M} {globalHidden : List String} {model : M}

open scoped Classical in
theorem removeNamed_eq (members : Members) : removeNamed globalHidden (family model).hiddenAttributes members =
    members.filter fun member => decide (¬ Place.Named family globalHidden model member.1) := by
  unfold removeNamed
  refine (foldl_remove id globalHidden _).trans ?_
  rw [show (family model).hiddenAttributes.foldl remove members = _ from foldl_remove id _ members, List.filter_filter]
  refine List.filter_congr fun member _ => ?_
  rw [Bool.eq_iff_iff, Bool.and_eq_true, decide_eq_true_iff, decide_eq_true_iff, decide_eq_true_iff]
  constructor
  · rintro ⟨hglobal, hown⟩ (hattr | hattr)
    · exact hown _ hattr rfl
    · exact hglobal _ hattr rfl
  · intro h
    exact ⟨fun attr hattr heq => h (Or.inr (heq ▸ hattr)), fun attr hattr heq => h (Or.inl (heq ▸ hattr))⟩

open scoped Classical in
theorem removeSerialized_eq (members : Members) : removeSerialized globalHidden (family model) members =
    members.filter fun member => decide (¬ (Place.row model).Hides family globalHidden member.1) := by
  unfold removeSerialized
  dsimp only
  rw [foldl_remove, foldl_remove, List.filter_filter]
  refine List.filter_congr fun member _ => ?_
  rw [Bool.eq_iff_iff, Bool.and_eq_true, decide_eq_true_iff, decide_eq_true_iff, decide_eq_true_iff]
  constructor
  · rintro ⟨hglobal, hown⟩ ⟨attr, hattr | hattr, heq⟩
    · exact hown attr hattr heq
    · exact hglobal attr hattr heq
  · intro h
    exact ⟨fun attr hattr heq => h ⟨attr, Or.inr hattr, heq⟩, fun attr hattr heq => h ⟨attr, Or.inl hattr, heq⟩⟩

end Removed

section Mapped

variable {M : Type} {family : M → PayloadMeta M} {globalHidden : List String} {model : M}

theorem stripHiddenValues_eq (hidden : List String) (members : Members) : stripHiddenValues globalHidden hidden members =
    members.map fun member => (member.1, stripHiddenAttributes globalHidden hidden member.2) := by
  induction members with
  | nil => rw [stripHiddenValues]; rfl
  | cons member members ih => rw [stripHiddenValues, ih]; rfl

theorem stripHiddenItems_eq (hidden : List String) (items : List Json) :
    stripHiddenItems globalHidden hidden items = items.map (stripHiddenAttributes globalHidden hidden) := by
  induction items with
  | nil => rw [stripHiddenItems]; rfl
  | cons item items ih => rw [stripHiddenItems, ih]; rfl

theorem stripPayloads_eq (items : List Json) :
    stripPayloads family globalHidden model items = items.map (stripModelPayload family globalHidden model) := by
  induction items with
  | nil => rw [stripPayloads]; rfl
  | cons item items ih => rw [stripPayloads, ih]; rfl

/-- What is left of a member's value. -/
def filtered (family : M → PayloadMeta M) (globalHidden : List String) (model : M) (member : String × Json) : Json :=
  match (family model).relationPayloadFilters.findSome? fun relation => if relation.1 = member.1 then some relation.2 else none with
  | some target => stripModelPayload family globalHidden target member.2
  | none =>
    if isPersistedAttribute (family model) member.1 then
      stripHiddenBackingEntries globalHidden (family model) member.1 member.2
    else stripHiddenAttributes globalHidden (family model).hiddenAttributes member.2

theorem stripHiddenFromNonColumnPayloads_eq (members : Members) :
    stripHiddenFromNonColumnPayloads family globalHidden model members =
      members.map fun member => (member.1, filtered family globalHidden model member) := by
  induction members with
  | nil => rw [stripHiddenFromNonColumnPayloads]; rfl
  | cons member members ih => rw [stripHiddenFromNonColumnPayloads, ih]; rfl

theorem findSome_eq_lookup {A : Type} (relations : List (String × A)) (key : String) :
    relations.findSome? (fun relation => if relation.1 = key then some relation.2 else none) = relations.lookup key := by
  induction relations with
  | nil => rfl
  | cons relation relations ih =>
    obtain ⟨name, target⟩ := relation
    rw [List.findSome?_cons, List.lookup_cons, ih]
    by_cases h : name = key
    · simp [h]
    · rw [if_neg h, beq_eq_false_iff_ne.2 (Ne.symm h)]

end Mapped

section Without

open scoped Classical

variable {gone : List (Option String) → String → Prop}

theorem withoutItems_eq (gone : List (Option String) → String → Prop) (items : List Json) :
    withoutItems gone items = items.map (without gone) := by
  induction items with
  | nil => rfl
  | cons item items ih => rw [withoutItems, ih, List.map_cons]

theorem withoutMembers_eq (members : Members) : withoutMembers gone members =
    (members.filter fun member => decide (¬ gone [] member.1)).map fun member =>
      (member.1, without (fun path => gone (some member.1 :: path)) member.2) := by
  induction members with
  | nil => rfl
  | cons member members ih =>
    obtain ⟨key, value⟩ := member
    rw [withoutMembers, ih, List.filter_cons]
    by_cases h : gone [] key
    · rw [if_pos h, if_neg (by simpa using h)]
    · rw [if_neg h, if_pos (by simpa using h), List.map_cons]

theorem without_scalar {value : Json} (hitems : ∀ items, value ≠ .array items) (hmembers : ∀ members, value ≠ .object members) :
    without gone value = value := by
  cases value with
  | array items => exact absurd rfl (hitems items)
  | object members => exact absurd rfl (hmembers members)
  | null | bool _ | number _ | string _ => rfl

theorem without_array (items : List Json) :
    without gone (.array items) = .array (items.map (without fun path => gone (none :: path))) := by
  rw [without, withoutItems_eq]

theorem without_object (members : Members) : without gone (.object members) =
    .object ((members.filter fun member => decide (¬ gone [] member.1)).map fun member =>
      (member.1, without (fun path => gone (some member.1 :: path)) member.2)) := by
  rw [without, withoutMembers_eq]

/-- Where nothing is gone all stays. -/
theorem without_nothing (value : Json) : ∀ gone : List (Option String) → String → Prop, (∀ path key, ¬ gone path key) →
    without gone value = value := by
  induction value using document_induction with
  | scalar value hitems hmembers => exact fun gone _ => without_scalar hitems hmembers
  | array items ih =>
    intro gone h
    rw [without_array]
    refine congrArg Json.array ((List.map_congr_left fun item hitem => ih item hitem _ fun path => h _).trans (List.map_id _))
  | object members ih =>
    intro gone h
    rw [without_object, List.filter_eq_self.2 fun member _ => decide_eq_true (h [] member.1)]
    refine congrArg Json.object ((List.map_congr_left fun member hmember => ?_).trans (List.map_id _))
    rw [ih member hmember _ fun path => h _]
    rfl

/-- What is shown is not gone. -/
theorem not_gone_of_shows {value shown : Json} {path : List (Option String)} {key : String}
    (h : Shows (without gone value) path key shown) : ¬ gone path key := by
  induction path generalizing gone value with
  | nil =>
    cases value with
    | object members =>
      rw [without_object] at h
      cases h with
      | here hmem =>
        obtain ⟨member, hmember, heq⟩ := List.mem_map.1 hmem
        have hkept := of_decide_eq_true (List.mem_filter.1 hmember).2
        rwa [(Prod.mk.inj heq).1] at hkept
    | array items => rw [without_array] at h; cases h
    | null | bool _ | number _ | string _ => cases h
  | cons name path ih =>
    cases value with
    | object members =>
      rw [without_object] at h
      cases h with
      | member hmem hshows =>
        obtain ⟨member, -, heq⟩ := List.mem_map.1 hmem
        obtain ⟨rfl, rfl⟩ := Prod.mk.inj heq
        exact ih hshows
    | array items =>
      rw [without_array] at h
      cases h with
      | item hmem hshows =>
        obtain ⟨item, -, rfl⟩ := List.mem_map.1 hmem
        exact ih hshows
    | null | bool _ | number _ | string _ => cases h

end Without

section Filtered

open scoped Classical

variable {M : Type} (family : M → PayloadMeta M) (globalHidden : List String)

/-- The members that do not leave a document that stands at the place. -/
def Gone (place : Place M) (path : List (Option String)) (key : String) : Prop :=
  (place.reached family path).Hides family globalHidden key

theorem gone_cons (place : Place M) (name : Option String) :
    (fun path => Gone family globalHidden place (name :: path)) = Gone family globalHidden (place.inner family name) := rfl

theorem not_gone_kept (path : List (Option String)) (key : String) : ¬ Gone family globalHidden .kept path key := by
  have hkept : (Place.kept : Place M).reached family path = .kept := by
    induction path with
    | nil => rfl
    | cons name path ih => exact ih
  unfold Gone
  rw [hkept]
  exact id

theorem without_kept (value : Json) : without (Gone family globalHidden .kept) value = value :=
  without_nothing value _ (not_gone_kept family globalHidden)

variable {family globalHidden} {model : M}

theorem strip_attributes (value : Json) : stripHiddenAttributes globalHidden (family model).hiddenAttributes value =
    without (Gone family globalHidden (.other model)) value := by
  induction value using document_induction with
  | scalar value hitems hmembers =>
    rw [without_scalar hitems hmembers, stripHiddenAttributes]
    · exact hmembers
    · exact hitems
  | array items ih =>
    rw [stripHiddenAttributes, stripHiddenItems_eq, without_array]
    exact congrArg Json.array (List.map_congr_left ih)
  | object members ih =>
    rw [stripHiddenAttributes, stripHiddenValues_eq, without_object, removeNamed_eq]
    refine congrArg Json.object (List.map_congr_left fun member hmember => ?_)
    rw [ih member (List.mem_filter.1 hmember).1]
    rfl

theorem isHidden_iff (name : String) : isHidden globalHidden name (family model).hiddenAttributes = true ↔
    Place.Named family globalHidden model name := by
  simp [isHidden, Place.Named]

/-- The entries of an object of which some are hidden, and nothing in them. -/
theorem without_entries {place : Place M} (hinner : ∀ name, place.inner family (some name) = .kept) {p : String × Json → Bool}
    (hp : ∀ entry, p entry = true ↔ ¬ place.Hides family globalHidden entry.1) (entries : Members) :
    without (Gone family globalHidden place) (.object entries) = .object (entries.filter p) := by
  rw [without_object]
  have hfilter : (entries.filter fun entry => decide (¬ Gone family globalHidden place [] entry.1)) = entries.filter p := by
    refine List.filter_congr fun entry _ => ?_
    rw [Bool.eq_iff_iff, decide_eq_true_iff, hp]
    rfl
  rw [hfilter]
  refine congrArg Json.object ((List.map_congr_left fun entry _ => ?_).trans (List.map_id _))
  rw [gone_cons, hinner, without_kept]
  rfl

/-- What stands in a row's member that is an attribute. -/
def backing (family : M → PayloadMeta M) (model : M) (key : String) : Place M :=
  if (family model).hasTranslations ∧ key = (family model).serializedName "translations" then .translations model
  else if (family model).hasFileAttachments ∧ key = (family model).serializedName "files" then .files model
  else .kept

theorem inner_backing (key : String) (name : Option String) : (backing family model key).inner family name = .kept := by
  unfold backing
  split_ifs <;> cases name <;> rfl

theorem strip_backing (key : String) (value : Json) : stripHiddenBackingEntries globalHidden (family model) key value =
    without (Gone family globalHidden (backing family model key)) value := by
  cases value with
  | object entries =>
    unfold stripHiddenBackingEntries backing
    dsimp only
    split_ifs
    · refine (without_entries (fun _ => rfl) (fun entry => ?_) entries).symm
      rw [Bool.and_eq_true, Bool.not_eq_true', Bool.not_eq_true', Bool.eq_false_iff, Bool.eq_false_iff, Ne, isHidden_iff]
      simp [Place.Hides]
    · refine (without_entries (fun _ => rfl) (fun entry => ?_) entries).symm
      rw [Bool.not_eq_true', Bool.eq_false_iff, Ne, isHidden_iff]
      rfl
    · exact (without_kept family globalHidden _).symm
  | array items =>
    rw [without_array, gone_cons, inner_backing]
    exact congrArg Json.array ((List.map_congr_left fun item _ => without_kept family globalHidden item).trans (List.map_id _)).symm
  | null | bool _ | number _ | string _ => rfl

theorem filtered_eq (member : String × Json)
    (ih : ∀ target, (family model).relationPayloadFilters.lookup member.1 = some target →
      stripModelPayload family globalHidden target member.2 = without (Gone family globalHidden (.row target)) member.2) :
    filtered family globalHidden model member =
      without (Gone family globalHidden ((Place.row model).inner family (some member.1))) member.2 := by
  unfold filtered Place.inner
  rw [findSome_eq_lookup]
  dsimp only
  cases htarget : (family model).relationPayloadFilters.lookup member.1 with
  | some target => exact ih target htarget
  | none =>
    dsimp only
    by_cases hpersisted : isPersistedAttribute (family model) member.1 = true
    · rw [if_pos hpersisted, if_pos hpersisted]
      exact strip_backing member.1 member.2
    · rw [if_neg hpersisted, if_neg hpersisted]
      exact strip_attributes member.2

/-- Where no model met has a flattened field that cannot be filtered, the payload leaves without
the hidden members. -/
theorem strip_eq_without (value : Json) : ∀ model,
    (∀ met, Met family globalHidden model value met → unfilterableFlattenedField globalHidden (family met) = none) →
      stripModelPayload family globalHidden model value = without (Gone family globalHidden (.row model)) value := by
  induction value using document_induction with
  | scalar value hitems hmembers =>
    intro model _
    rw [without_scalar hitems hmembers, stripModelPayload]
    · exact hmembers
    · exact hitems
  | array items ih =>
    intro model hmet
    rw [stripModelPayload, stripPayloads_eq, without_array]
    exact congrArg Json.array (List.map_congr_left fun item hitem => ih item hitem model fun met h => hmet met (.item hitem h))
  | object members ih =>
    intro model hmet
    have hrow := hmet model .row
    rw [stripModelPayload, hrow, if_neg (by simp), stripHiddenFromNonColumnPayloads_eq, removeSerialized_eq, without_object]
    refine congrArg Json.object (List.map_congr_left fun member hmember => ?_)
    obtain ⟨hmem, hshown⟩ := List.mem_filter.1 hmember
    rw [filtered_eq member fun target htarget => ih member hmem target fun met h =>
      hmet met (.relation hmem (of_decide_eq_true hshown) htarget h)]
    rfl

end Filtered

section Again

open scoped Classical

variable {M : Type} {family : M → PayloadMeta M} {globalHidden : List String}

theorem without_without (value : Json) : ∀ gone : List (Option String) → String → Prop,
    without gone (without gone value) = without gone value := by
  induction value using document_induction with
  | scalar value hitems hmembers =>
    intro gone
    rw [without_scalar hitems hmembers, without_scalar hitems hmembers]
  | array items ih =>
    intro gone
    rw [without_array, without_array, List.map_map]
    exact congrArg Json.array (List.map_congr_left fun item hitem => ih item hitem _)
  | object members ih =>
    intro gone
    rw [without_object, without_object, List.filter_map, List.map_map]
    have hkept : ∀ member ∈ members.filter fun member => decide (¬ gone [] member.1), decide (¬ gone [] member.1) = true :=
      fun member hmember => (List.mem_filter.1 hmember).2
    refine congrArg Json.object ((congrArg (List.map _) (List.filter_eq_self.2 hkept)).trans ?_)
    refine List.map_congr_left fun member hmember => ?_
    exact congrArg (Prod.mk member.1) (ih member (List.mem_filter.1 hmember).1 _)

theorem filtered_filtered (model : M) (member : String × Json)
    (ih : ∀ target, stripModelPayload family globalHidden target (stripModelPayload family globalHidden target member.2) =
      stripModelPayload family globalHidden target member.2) :
    filtered family globalHidden model (member.1, filtered family globalHidden model member) = filtered family globalHidden model member := by
  unfold filtered
  dsimp only
  cases (family model).relationPayloadFilters.findSome? fun relation => if relation.1 = member.1 then some relation.2 else none with
  | some target => exact ih target
  | none =>
    dsimp only
    by_cases hpersisted : isPersistedAttribute (family model) member.1 = true
    · rw [if_pos hpersisted, if_pos hpersisted, strip_backing, strip_backing, without_without]
    · rw [if_neg hpersisted, if_neg hpersisted, strip_attributes, strip_attributes, without_without]

/-- A second application changes nothing. -/
theorem strip_strip (value : Json) : ∀ model, stripModelPayload family globalHidden model
    (stripModelPayload family globalHidden model value) = stripModelPayload family globalHidden model value := by
  induction value using document_induction with
  | scalar value hitems hmembers =>
    intro model
    have hscalar : stripModelPayload family globalHidden model value = value := by
      rw [stripModelPayload]
      · exact hmembers
      · exact hitems
    rw [hscalar, hscalar]
  | array items ih =>
    intro model
    rw [stripModelPayload, stripPayloads_eq, stripModelPayload, stripPayloads_eq, List.map_map]
    exact congrArg Json.array (List.map_congr_left fun item hitem => ih item hitem model)
  | object members ih =>
    intro model
    rw [stripModelPayload]
    split_ifs with hflattened
    · rw [stripModelPayload, if_pos hflattened]
    · rw [stripModelPayload, if_neg hflattened]
      simp only [stripHiddenFromNonColumnPayloads_eq, removeSerialized_eq, List.filter_map, List.map_map]
      have hkept : ∀ member ∈ members.filter fun member => decide (¬ (Place.row model).Hides family globalHidden member.1),
          decide (¬ (Place.row model).Hides family globalHidden member.1) = true := fun member hmember => (List.mem_filter.1 hmember).2
      refine congrArg Json.object ((congrArg (List.map _) (List.filter_eq_self.2 hkept)).trans ?_)
      refine List.map_congr_left fun member hmember => ?_
      exact congrArg (Prod.mk member.1) (filtered_filtered model member (ih member (List.mem_filter.1 hmember).1))

end Again

section Leaves

variable {M : Type} {family : M → PayloadMeta M} {globalHidden : List String} {model : M} {value : Json}

/-- The payload leaves without the members that its places hide, and with all others: the filter
is total, nothing that is hidden where it stands shows, and a second application changes nothing. -/
theorem stripModelPayload_hides
    (hmet : ∀ met, Met family globalHidden model value met → unfilterableFlattenedField globalHidden (family met) = none) :
    stripModelPayload family globalHidden model value =
        without (fun path key => ((Place.row model).reached family path).Hides family globalHidden key) value ∧
      (∀ path key shown, Shows (stripModelPayload family globalHidden model value) path key shown →
        ¬ ((Place.row model).reached family path).Hides family globalHidden key) ∧
      stripModelPayload family globalHidden model (stripModelPayload family globalHidden model value) =
        stripModelPayload family globalHidden model value := by
  have hleaves := strip_eq_without value model hmet
  refine ⟨hleaves, fun path key shown hshows => ?_, strip_strip value model⟩
  rw [hleaves] at hshows
  exact not_gone_of_shows hshows

/-- Posts and their authors, each related to the other. -/
def blog : Bool → PayloadMeta Bool
  | true => ⟨["internal_notes"], id, ["id", "title", "internal_notes"], ["id", "title", "internal_notes"], [], [], false, false,
      [("author", false)]⟩
  | false => ⟨["password_hash"], id, ["id", "password_hash", "internal_notes"], ["id", "password_hash", "internal_notes"], [], [],
      false, false, [("posts", true)]⟩

def hello : Json :=
  .object [("title", .string "Hello"), ("internal_notes", .string "draft"),
    ("author", .object [("password_hash", .string "secret"), ("internal_notes", .string "Ada")])]

/-- The author's hash does not leave with the post. -/
theorem stripModelPayload_hides_author :
    ¬ Shows (stripModelPayload blog [] true hello) [some "author"] "password_hash" (.string "secret") ∧
      stripModelPayload blog [] true (stripModelPayload blog [] true hello) = stripModelPayload blog [] true hello := by
  obtain ⟨-, hshown, hagain⟩ := @stripModelPayload_hides Bool blog [] true hello fun met _ => by cases met <;> rfl
  exact ⟨fun h => hshown _ _ _ h ⟨"password_hash", Or.inl List.mem_cons_self, rfl⟩, hagain⟩

end Leaves

end TideOrm.Payload
