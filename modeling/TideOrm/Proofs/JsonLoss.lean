import TideOrm.Lib.Traverse
import TideOrm.Sanity.SerdeJson

/-! What `jsonLoss` finds is what the JSON loses: by the occurrences of a value's parts, against
the writers of `serde_json`. -/

namespace TideOrm

open Lib

/-- A `f32` is as finite as the `f64` it is cast to. -/
theorem cast_isFinite (x : Binary32) : (x.cast binary64).isFinite = x.isFinite := by
  cases x with
  | finite x h =>
    have hlt : |x| < 2 ^ (binary64.maxExponent + binary64.precision - 1) :=
      h.lt.trans_le (zpow_le_zpow_right₀ one_le_two (by decide))
    exact BinaryFloat.isFinite_round (by decide) (by decide) (by decide) hlt
  | infinite _ | nan => rfl

namespace SerdeValue

section Parts

theorem sizeOf_of_members {part value : SerdeValue} (h : part ∈ value.members) : sizeOf part < sizeOf value := by
  cases value with
  | some inner | newtypeStruct _ inner | newtypeVariant _ _ _ inner =>
    obtain rfl := List.mem_singleton.1 h
    simp +arith
  | seq items | tuple items | tupleStruct _ items | tupleVariant _ _ _ items =>
    have hlt := List.sizeOf_lt_of_mem (show part ∈ items from h)
    simp only [seq.sizeOf_spec, tuple.sizeOf_spec, tupleStruct.sizeOf_spec, tupleVariant.sizeOf_spec]
    omega
  | map entries =>
    obtain ⟨⟨key, inner⟩, hentry, hpart⟩ := List.mem_flatMap.1 h
    have hlt := List.sizeOf_lt_of_mem hentry
    simp only [Prod.mk.sizeOf_spec] at hlt
    simp only [map.sizeOf_spec]
    rcases List.mem_pair.1 hpart with rfl | rfl <;> omega
  | struct _ fields | structVariant _ _ _ fields =>
    obtain ⟨⟨name, inner⟩, hfield, rfl⟩ := List.mem_map.1 h
    have hlt := List.sizeOf_lt_of_mem hfield
    simp only [Prod.mk.sizeOf_spec] at hlt
    simp only [struct.sizeOf_spec, structVariant.sizeOf_spec]
    omega
  | _ => cases h

/-- What holds of a value once it holds of its members holds of every value. -/
theorem member_induction {P : SerdeValue → Prop} (step : ∀ value, (∀ part ∈ value.members, P part) → P value)
    (value : SerdeValue) : P value :=
  step value fun part h =>
    have := sizeOf_of_members h
    member_induction step part
termination_by sizeOf value

theorem exists_within_iff {P : SerdeValue → Prop} {value : SerdeValue} :
    (∃ part, Within part value ∧ P part) ↔ P value ∨ ∃ inner ∈ value.members, ∃ part, Within part inner ∧ P part := by
  constructor
  · rintro ⟨part, hwithin, hpart⟩
    rcases Relation.ReflTransGen.cases_head hwithin with rfl | ⟨inner, hinner, hrest⟩
    · exact .inl hpart
    · exact .inr ⟨inner, hinner, part, hrest, hpart⟩
  · rintro (hvalue | ⟨inner, hinner, part, hwithin, hpart⟩)
    · exact ⟨value, .refl, hvalue⟩
    · exact ⟨part, .head hinner hwithin, hpart⟩

theorem content_content (value : SerdeValue) : value.content.content = value.content := by
  induction value using member_induction with
  | step value ih =>
    cases value with
    | some inner | newtypeStruct _ inner => exact ih inner (List.mem_singleton_self _)
    | _ => rfl

/-- Through what is written as its content. -/
theorem content_congr {A : Type} {f : SerdeValue → A} (hsome : ∀ value, f (.some value) = f value)
    (hnewtype : ∀ name value, f (.newtypeStruct name value) = f value) (value : SerdeValue) : f value.content = f value := by
  induction value using member_induction with
  | step value ih =>
    cases value with
    | some inner => exact (ih inner (List.mem_singleton_self _)).trans (hsome inner).symm
    | newtypeStruct name inner => exact (ih inner (List.mem_singleton_self _)).trans (hnewtype name inner).symm
    | _ => rfl

theorem isKey_content (value : SerdeValue) : value.content.isKey = value.isKey :=
  content_congr (fun _ => rfl) (fun _ _ => rfl) value

/-- A key holds keys only. -/
theorem isKey_of_within {part value : SerdeValue} (hwithin : Within part value) (h : value.isKey = true) : part.isKey = true := by
  induction hwithin with
  | refl => exact h
  | @tail whole inner _ hmem ih =>
    cases whole with
    | some _ | newtypeStruct _ _ =>
      obtain rfl := List.mem_singleton.1 hmem
      exact ih
    | bool _ | int _ | f32 _ | f64 _ | char _ | str _ | unitVariant _ _ _ => cases hmem
    | _ => cases ih

theorem isNull_of_isKey {value : SerdeValue} (h : value.isKey = true) : value.isNull = false := by
  cases value with
  | f32 x | f64 x => exact congrArg Bool.not h
  | none | unit | unitStruct _ => cases h
  | _ => rfl

/-- A sequence, a map or a struct. -/
def isCompound : SerdeValue → Bool
  | .seq _ | .tuple _ | .tupleStruct _ _ | .tupleVariant _ _ _ _ | .map _ | .struct _ _ | .structVariant _ _ _ _ => true
  | _ => false

/-- A `null` that no float is. -/
def isUnit : SerdeValue → Bool
  | .none | .unit | .unitStruct _ => true
  | _ => false

theorem isNonFinite_of_compound {value : SerdeValue} (h : value.isCompound = true) : ¬value.isNonFinite = true := by
  cases value with
  | f32 _ | f64 _ => cases h
  | _ => exact Bool.false_ne_true

/-- A `Some` whose content is such a `null`. -/
def isLost : SerdeValue → Bool
  | .some inner => inner.content.isUnit
  | _ => false

theorem not_lost_of_compound {value : SerdeValue} (h : value.isCompound = true) :
    ¬value.content.isUnit = true ∧ ¬value.isLost = true := by
  cases value with
  | some _ | newtypeStruct _ _ | none | unit | unitStruct _ => cases h
  | _ => exact ⟨Bool.false_ne_true, Bool.false_ne_true⟩

end Parts

end SerdeValue

namespace Probe

open SerdeValue

section Walk

/-- A flag of a loss that a member's flag sets. -/
structure Merged (flag : JsonLoss → Bool) : Prop where
  merge (loss other : JsonLoss) : flag (loss.merge other) = (flag loss || flag other)
  none : flag default = false

theorem merged_nonFinite : Merged JsonLoss.nonFinite := ⟨fun _ _ => rfl, rfl⟩

theorem merged_nullInSome : Merged JsonLoss.nullInSome := ⟨fun _ _ => rfl, rfl⟩

variable {flag : JsonLoss → Bool} (hflag : Merged flag)

include hflag

theorem flag_visitAll (loss : JsonLoss) (items : List SerdeValue) :
    flag (visitAll loss items) = true ↔ flag loss = true ∨ ∃ part ∈ items, flag (serialize member part) = true := by
  induction items generalizing loss with
  | nil => simp [visitAll]
  | cons item items ih =>
    rw [visitAll, ih, hflag.merge, Bool.or_eq_true, or_assoc]
    simp only [List.mem_cons, exists_eq_or_imp]

theorem flag_visitEntries (loss : JsonLoss) (entries : List (SerdeValue × SerdeValue)) :
    flag (visitEntries loss entries) = true ↔
      flag loss = true ∨ ∃ part ∈ entries.flatMap fun entry => [entry.1, entry.2], flag (serialize member part) = true := by
  induction entries generalizing loss with
  | nil => simp [visitEntries]
  | cons entry entries ih =>
    obtain ⟨key, value⟩ := entry
    rw [visitEntries, ih, hflag.merge, hflag.merge, Bool.or_eq_true, Bool.or_eq_true, or_assoc, or_assoc]
    simp only [List.flatMap_cons, List.cons_append, List.nil_append, List.mem_cons, exists_eq_or_imp]

theorem flag_visitFields (loss : JsonLoss) (fields : List (String × SerdeValue)) :
    flag (visitFields loss fields) = true ↔
      flag loss = true ∨ ∃ part ∈ fields.map Prod.snd, flag (serialize member part) = true := by
  induction fields generalizing loss with
  | nil => simp [visitFields]
  | cons field fields ih =>
    obtain ⟨name, value⟩ := field
    rw [visitFields, ih, hflag.merge, Bool.or_eq_true, or_assoc]
    simp only [List.map_cons, List.mem_cons, exists_eq_or_imp]

/-- A compound value's loss is its members'. -/
theorem flag_compound {value : SerdeValue} (h : value.isCompound = true) (probe : Probe) :
    flag (serialize probe value) = true ↔ ∃ part ∈ value.members, flag (serialize member part) = true := by
  have hnone : ¬flag (default : JsonLoss) = true := Bool.eq_false_iff.1 hflag.none
  cases value with
  | seq items | tuple items | tupleStruct _ items | tupleVariant _ _ _ items =>
    exact (flag_visitAll hflag default items).trans (or_iff_right hnone)
  | map entries => exact (flag_visitEntries hflag default entries).trans (or_iff_right hnone)
  | struct _ fields | structVariant _ _ _ fields => exact (flag_visitFields hflag default fields).trans (or_iff_right hnone)
  | _ => cases h

end Walk

section Found

/-- Anywhere in a value a NaN or infinite float occurs. -/
theorem serialize_nonFinite (probe : Probe) (value : SerdeValue) :
    (serialize probe value).nonFinite = true ↔ ∃ part, Within part value ∧ part.isNonFinite = true := by
  induction value using member_induction generalizing probe with
  | step value ih =>
    rw [exists_within_iff]
    by_cases hcompound : value.isCompound = true
    · rw [flag_compound merged_nonFinite hcompound, or_iff_right (isNonFinite_of_compound hcompound)]
      exact exists_congr fun part => and_congr_right fun hpart => ih part hpart member
    · cases value with
      | some inner | newtypeStruct _ inner | newtypeVariant _ _ _ inner =>
        refine (ih inner (List.mem_singleton_self _) _).trans ?_
        simp [members, isNonFinite]
      | f32 x => simp [serialize, float, members, isNonFinite, cast_isFinite]
      | f64 x => simp [serialize, float, members, isNonFinite]
      | _ => simp_all [serialize, null, members, isNonFinite, isCompound]

/-- Anywhere in a value a `Some` is lost, or the value itself is, inside a `Some`. -/
theorem serialize_nullInSome (probe : Probe) (value : SerdeValue) :
    (serialize probe value).nullInSome = true ↔
      (probe.inSome = true ∧ value.content.isUnit = true) ∨ ∃ part, Within part value ∧ part.isLost = true := by
  induction value using member_induction generalizing probe with
  | step value ih =>
    rw [exists_within_iff]
    by_cases hcompound : value.isCompound = true
    · obtain ⟨hunit, hlost⟩ := not_lost_of_compound hcompound
      rw [flag_compound merged_nullInSome hcompound, or_iff_right (fun h => hunit h.2), or_iff_right hlost]
      refine exists_congr fun part => and_congr_right fun hpart => (ih part hpart member).trans ?_
      exact or_iff_right fun h => Bool.false_ne_true h.1
    · cases value with
      | some inner =>
        refine (ih inner (List.mem_singleton_self _) _).trans ?_
        simp only [members, List.mem_singleton, exists_eq_left, isLost, content, true_and, or_iff_right_of_imp And.right,
          ← or_assoc]
      | newtypeStruct _ inner =>
        refine (ih inner (List.mem_singleton_self _) _).trans ?_
        simp [members, isLost, content]
      | newtypeVariant _ _ _ inner =>
        refine (ih inner (List.mem_singleton_self _) _).trans ?_
        simp [members, isLost, content, isUnit]
      | f32 x | f64 x => simp [serialize, float, members, isLost, content, isUnit]
      | _ => simp_all [serialize, null, members, isLost, content, isUnit, isCompound]

end Found

end Probe

namespace SerdeValue

theorem isNull_eq (value : SerdeValue) : value.isNull = (value.isUnit || value.isNonFinite) := by
  cases value <;> rfl

theorem isUnit_iff (value : SerdeValue) : value.isUnit = true ↔ value.isNull = true ∧ value.isFloat = false := by
  cases value with
  | f32 _ | f64 _ => simp [isUnit, isFloat]
  | _ => simp [isUnit, isNull, isFloat, isNonFinite]

end SerdeValue

namespace SerdeJson

open SerdeValue

variable (json : SerdeJson)

section Text

theorem toVec_content (value : SerdeValue) : json.toVec value.content = json.toVec value :=
  content_congr json.toVec_some json.toVec_newtypeStruct value

theorem toVec_eq_null_iff (value : SerdeValue) : json.toVec value = .ok nullBytes ↔ value.content.isNull = true := by
  rw [← json.toVec_content]
  constructor
  · intro h
    by_contra hnull
    exact json.toVec_ne_null (content_content value) (Bool.eq_false_iff.2 hnull) h
  · exact json.toVec_null

/-- A part's text is in a value's, or the part is in a key. -/
theorem written_or_key {part value : SerdeValue} (hwithin : Within part value) {text : List UInt8}
    (htext : json.toVec value = .ok text) : (∃ inner, json.toVec part = .ok inner ∧ inner <:+: text) ∨ part.isKey = true := by
  induction hwithin with
  | refl => exact .inl ⟨text, htext, List.infix_refl text⟩
  | @tail whole part _ hmem ih =>
    rcases ih with ⟨wholeText, hwhole, hwithin⟩ | hkey
    · have hwritten (h : part ∈ whole.written) : ∃ inner, json.toVec part = .ok inner ∧ inner <:+: text := by
        obtain ⟨inner, hinner, hsub⟩ := json.toVec_written hwhole part h
        exact ⟨inner, hinner, hsub.trans hwithin⟩
      cases whole with
      | map entries =>
        obtain ⟨entry, hentry, hpart⟩ := List.mem_flatMap.1 hmem
        rcases List.mem_pair.1 hpart with rfl | rfl
        · exact .inr (json.toVec_keys hwhole entry hentry)
        · exact .inl (hwritten (List.mem_map_of_mem hentry))
      | _ => exact .inl (hwritten hmem)
    · exact .inr (isKey_of_within (.single hmem) hkey)

/-- A `null` anywhere is in the text. -/
theorem null_infix {part value : SerdeValue} (hwithin : Within part value) {text : List UInt8}
    (htext : json.toVec value = .ok text) (hnull : part.content.isNull = true) : nullBytes <:+: text := by
  rcases json.written_or_key hwithin htext with ⟨inner, hinner, hwithin⟩ | hkey
  · rw [(json.toVec_eq_null_iff part).2 hnull] at hinner
    exact Except.ok.inj hinner ▸ hwithin
  · rw [← isKey_content] at hkey
    exact absurd hnull (Bool.eq_false_iff.1 (isNull_of_isKey hkey))

end Text

section Payload

/-- A NaN or infinite float occurs anywhere. -/
def NonFinite (value : SerdeValue) : Prop := ∃ part, Within part value ∧ part.isNonFinite = true

/-- A `Some` is written as `null` whose content is not a float. -/
def LostSome (value : SerdeValue) : Prop :=
  ∃ inner, Within (.some inner) value ∧ json.toVec (.some inner) = .ok nullBytes ∧ inner.content.isFloat = false

theorem nonFinite_iff (value : SerdeValue) : (jsonLoss value).nonFinite = true ↔ NonFinite value :=
  Probe.serialize_nonFinite _ value

theorem isLost_some_iff (inner : SerdeValue) :
    (SerdeValue.some inner).isLost = true ↔ json.toVec (.some inner) = .ok nullBytes ∧ inner.content.isFloat = false := by
  rw [json.toVec_eq_null_iff]
  exact isUnit_iff inner.content

theorem nullInSome_iff (value : SerdeValue) : (jsonLoss value).nullInSome = true ↔ json.LostSome value := by
  refine (Probe.serialize_nullInSome _ value).trans ((or_iff_right fun h => Bool.false_ne_true h.1).trans ?_)
  constructor
  · rintro ⟨part, hwithin, hlost⟩
    cases part with
    | some inner => exact ⟨inner, hwithin, (json.isLost_some_iff inner).1 hlost⟩
    | _ => cases hlost
  · rintro ⟨inner, hwithin, hinner⟩
    exact ⟨.some inner, hwithin, (json.isLost_some_iff inner).2 hinner⟩

/-- What a walk finds, a look for `null` in the text finds. -/
theorem null_of_loss {value : SerdeValue} {data : List UInt8} (hdata : json.toVec value = .ok data)
    (h : NonFinite value ∨ json.LostSome value) : nullBytes <:+: data := by
  rcases h with ⟨part, hwithin, hpart⟩ | ⟨inner, hwithin, hinner, -⟩
  · refine json.null_infix hwithin hdata ?_
    cases part with
    | f32 _ | f64 _ => exact hpart
    | _ => cases hpart
  · exact json.null_infix hwithin hdata ((json.toVec_eq_null_iff _).1 hinner)

theorem serializePayload_kept {value : SerdeValue} {data : List UInt8} (hdata : json.toVec value = .ok data)
    (h : ¬NonFinite value ∧ ¬json.LostSome value) : serializePayload (json.serialized value) = .ok (some data) := by
  rw [← nonFinite_iff, ← json.nullInSome_iff, Bool.not_eq_true, Bool.not_eq_true] at h
  simp [serializePayload, serialized, hdata, h, pure, Except.pure, bind, Except.bind]

theorem serializePayload_dropped {value : SerdeValue} {data : List UInt8} (hdata : json.toVec value = .ok data)
    (h : NonFinite value ∨ json.LostSome value) : serializePayload (json.serialized value) = .ok none := by
  have hnull := json.null_of_loss hdata h
  rw [← nonFinite_iff, ← json.nullInSome_iff] at h
  have hloss : (!(jsonLoss value).nonFinite && !(jsonLoss value).nullInSome) = false := by
    rcases h with h | h <;> simp [h]
  simp [serializePayload, serialized, hdata, hnull, hloss, pure, Except.pure, bind, Except.bind]

end Payload

section Filters

theorem toValue_content (value : SerdeValue) : json.toValue value.content = json.toValue value :=
  content_congr json.toValue_some json.toValue_newtypeStruct value

theorem toValue_eq_null_iff (value : SerdeValue) : json.toValue value = .ok .null ↔ value.content.isNull = true := by
  rw [← json.toValue_content]
  constructor
  · intro h
    by_contra hnull
    exact json.toValue_ne_null (content_content value) (Bool.eq_false_iff.2 hnull) h
  · exact json.toValue_null

theorem anyHoldsNull_of_mem {document : Json} {documents : List Json} (hmem : document ∈ documents)
    (hnull : holdsNull document = true) : anyHoldsNull documents = true := by
  induction documents with
  | nil => cases hmem
  | cons first rest ih =>
    rw [anyHoldsNull, Bool.or_eq_true]
    rcases List.mem_cons.1 hmem with rfl | hrest
    · exact .inl hnull
    · exact .inr (ih hrest)

theorem anyMemberHoldsNull_of_mem {member : String × Json} {members : List (String × Json)} (hmem : member ∈ members)
    (hnull : holdsNull member.2 = true) : anyMemberHoldsNull members = true := by
  induction members with
  | nil => cases hmem
  | cons first rest ih =>
    rw [anyMemberHoldsNull, Bool.or_eq_true]
    rcases List.mem_cons.1 hmem with rfl | hrest
    · exact .inl hnull
    · exact .inr (ih hrest)

/-- Where each name is written once, the object has every member. -/
theorem holdsNull_object {members fields : List (String × Json)}
    (hfields : ∀ name, fields.lookup name = members.reverse.lookup name) (hnodup : (members.map Prod.fst).Nodup)
    {member : String × Json} (hmem : member ∈ members) (hnull : holdsNull member.2 = true) : holdsNull (.object fields) = true := by
  have hreverse : (members.reverse.map Prod.fst).Nodup := by
    rw [List.map_reverse]
    exact List.nodup_reverse.2 hnodup
  have hlookup := (hfields member.1).trans (lookup_of_nodup hreverse (List.mem_reverse.2 hmem))
  rw [holdsNull]
  exact anyMemberHoldsNull_of_mem (mem_of_lookup hlookup) hnull

/-- Each key of an object is written once. -/
def OnceKeyed : SerdeValue → Prop
  | .map entries => (entries.map fun entry => json.keyText entry.1).Nodup
  | .struct _ fields | .structVariant _ _ _ fields => (fields.map Prod.fst).Nodup
  | _ => True

/-- Each key of each object anywhere in a value is written once. -/
def KeysOnce (value : SerdeValue) : Prop := ∀ part, Within part value → json.OnceKeyed part

variable {json}

theorem KeysOnce.member {value inner : SerdeValue} (h : json.KeysOnce value) (hinner : inner ∈ value.members) :
    json.KeysOnce inner :=
  fun part hwithin => h part (.head hinner hwithin)

/-- Of a list's items one holds a `null`. -/
theorem holdsNull_seq {items : List SerdeValue} {document : Json} (hdocument : json.toValue (.seq items) = .ok document)
    {inner : SerdeValue} (hinner : inner ∈ items)
    (hnull : ∀ document, json.toValue inner = .ok document → holdsNull document = true) : holdsNull document = true := by
  obtain ⟨documents, hdocuments, rfl⟩ := json.toValue_seq hdocument
  obtain ⟨part, hpart, hvalue⟩ := exists_of_forall₂ hdocuments hinner
  rw [holdsNull]
  exact anyHoldsNull_of_mem hpart (hnull part hvalue)

/-- Of a struct's fields one holds a `null`. -/
theorem holdsNull_struct {name : String} {fields : List (String × SerdeValue)} {document : Json}
    (hdocument : json.toValue (.struct name fields) = .ok document) (hnodup : (fields.map Prod.fst).Nodup)
    {inner : SerdeValue} (hinner : inner ∈ fields.map Prod.snd)
    (hnull : ∀ document, json.toValue inner = .ok document → holdsNull document = true) : holdsNull document = true := by
  obtain ⟨members, object, hmembers, rfl, hobject⟩ := json.toValue_struct hdocument
  obtain ⟨field, hfield, rfl⟩ := List.mem_map.1 hinner
  obtain ⟨member, hmember, -, hvalue⟩ := exists_of_forall₂ hmembers hfield
  exact holdsNull_object hobject (nodup_of_forall₂ hmembers (fun _ _ h => h.1) hnodup) hmember (hnull _ hvalue)

/-- Of a map's values one holds a `null`. -/
theorem holdsNull_map {entries : List (SerdeValue × SerdeValue)} {document : Json}
    (hdocument : json.toValue (.map entries) = .ok document) (hnodup : (entries.map fun entry => json.keyText entry.1).Nodup)
    {entry : SerdeValue × SerdeValue} (hentry : entry ∈ entries)
    (hnull : ∀ document, json.toValue entry.2 = .ok document → holdsNull document = true) : holdsNull document = true := by
  obtain ⟨members, object, hmembers, rfl, hobject⟩ := json.toValue_map hdocument
  obtain ⟨member, hmember, -, -, hvalue⟩ := exists_of_forall₂ hmembers hentry
  have htexts : (members.map fun member => (.ok member.1 : Except String String)).Nodup :=
    nodup_of_forall₂ hmembers (fun _ _ h => h.2.1) hnodup
  have hnames : (members.map Prod.fst).Nodup := by
    rw [← Function.comp_def Except.ok Prod.fst, ← List.map_map] at htexts
    exact htexts.of_map _
  exact holdsNull_object hobject hnames hmember (hnull _ hvalue)

/-- Nothing that is a `null` is lost among an object's members where each key is written once. -/
theorem holdsNull_of_nonFinite {value : SerdeValue} (hkeys : json.KeysOnce value) (h : NonFinite value) {document : Json}
    (hdocument : json.toValue value = .ok document) : holdsNull document = true := by
  induction value using member_induction generalizing document with
  | step value ih =>
    rcases exists_within_iff.1 h with hvalue | ⟨inner, hinner, hnonFinite⟩
    · have hnull : value.isNull = true := by
        rw [isNull_eq, hvalue, Bool.or_true]
      rw [json.toValue_null hnull] at hdocument
      rw [← Except.ok.inj hdocument, holdsNull]
    · have hpart (document : Json) (hdocument : json.toValue inner = .ok document) : holdsNull document = true :=
        ih inner hinner (hkeys.member hinner) hnonFinite hdocument
      have honce : json.OnceKeyed value := hkeys value .refl
      cases value with
      | some content =>
        obtain rfl := List.mem_singleton.1 hinner
        exact hpart _ ((json.toValue_some _).symm.trans hdocument)
      | newtypeStruct name content =>
        obtain rfl := List.mem_singleton.1 hinner
        exact hpart _ ((json.toValue_newtypeStruct name _).symm.trans hdocument)
      | newtypeVariant name index variant content =>
        obtain rfl := List.mem_singleton.1 hinner
        rw [json.toValue_newtypeVariant] at hdocument
        obtain ⟨document, hcontent, rfl⟩ := map_eq_ok hdocument
        simp [holdsNull, anyMemberHoldsNull, hpart _ hcontent]
      | seq items => exact holdsNull_seq hdocument hinner hpart
      | tuple items => exact holdsNull_seq ((json.toValue_tuple items).symm.trans hdocument) hinner hpart
      | tupleStruct name items =>
        exact holdsNull_seq ((json.toValue_tupleStruct name items).symm.trans hdocument) hinner hpart
      | tupleVariant name index variant items =>
        rw [json.toValue_tupleVariant] at hdocument
        obtain ⟨document, hitems, rfl⟩ := map_eq_ok hdocument
        simp [holdsNull, anyMemberHoldsNull, holdsNull_seq hitems hinner hpart]
      | map entries =>
        obtain ⟨entry, hentry, hkind⟩ := List.mem_flatMap.1 hinner
        rcases List.mem_pair.1 hkind with rfl | rfl
        · obtain ⟨members, object, hmembers, -, -⟩ := json.toValue_map hdocument
          obtain ⟨member, -, hkey, -⟩ := exists_of_forall₂ hmembers hentry
          obtain ⟨part, hwithin, hpart⟩ := hnonFinite
          have hnull := isNull_of_isKey (isKey_of_within hwithin hkey)
          rw [isNull_eq, hpart, Bool.or_true] at hnull
          cases hnull
        · exact holdsNull_map hdocument honce hentry hpart
      | struct name fields => exact holdsNull_struct hdocument honce hinner hpart
      | structVariant name index variant fields =>
        rw [json.toValue_structVariant] at hdocument
        obtain ⟨document, hfields, rfl⟩ := map_eq_ok hdocument
        simp [holdsNull, anyMemberHoldsNull, holdsNull_struct hfields honce hinner hpart]
      | _ => cases hinner

end Filters

section Assignments

/-- A `None` at the value itself. -/
theorem serialize_none (probe : Probe) {value : SerdeValue} (hnull : value.content.isNull = true) :
    (probe.serialize value).none = true ↔ probe.top = true ∧ value.content = .none := by
  induction value using member_induction generalizing probe with
  | step value ih =>
    cases value with
    | some inner | newtypeStruct _ inner => exact ih inner (List.mem_singleton_self _) _ hnull
    | none => exact (and_iff_left rfl).symm
    | unit | unitStruct _ | f32 _ | f64 _ => exact iff_of_false Bool.false_ne_true fun h => by cases h.2
    | _ => cases hnull

theorem checkedAssignmentValue_flag {value : SerdeValue} {document : Json} (h : json.checkedFilterValue value = .ok document) :
    ∃ sqlNull, json.checkedAssignmentValue value = .ok (document, sqlNull) ∧ (sqlNull = true ↔ value.content = .none) := by
  refine ⟨document.isNull && (jsonLoss value).none, by rw [checkedAssignmentValue, h], ?_⟩
  have hdocument : json.toValue value = .ok document := by
    rw [checkedFilterValue] at h
    split at h
    · cases h
    · split at h
      · cases h
      · rw [‹json.toValue value = _›, h]
  rw [Bool.and_eq_true]
  constructor
  · rintro ⟨hisNull, hnone⟩
    cases document with
    | null => exact ((serialize_none _ ((json.toValue_eq_null_iff value).1 hdocument)).1 hnone).2
    | _ => cases hisNull
  · intro hcontent
    have hnull : value.content.isNull = true := by rw [hcontent, SerdeValue.isNull]
    have hnullDocument := (json.toValue_eq_null_iff value).2 hnull
    rw [hdocument] at hnullDocument
    obtain rfl := Except.ok.inj hnullDocument
    exact ⟨rfl, (serialize_none _ hnull).2 ⟨rfl, hcontent⟩⟩

end Assignments

theorem checkedFilterValue_refuses {value : SerdeValue} {document : Json} (hdocument : json.toValue value = .ok document) :
    (∃ reason, json.checkedFilterValue value = .error reason) ↔ NonFinite value ∧ holdsNull document = true := by
  rw [← nonFinite_iff, checkedFilterValue, hdocument]
  dsimp only
  split_ifs with h
  · rw [Bool.and_eq_true] at h
    exact iff_of_true ⟨_, rfl⟩ h.symm
  · rw [Bool.and_eq_true] at h
    exact iff_of_false (fun ⟨_, h⟩ => by cases h) fun hboth => h hboth.symm

/-- What is lost is found, and refused where it would be read as what it is not. -/
theorem loss_found (json : SerdeJson) (value : SerdeValue) :
    ((jsonLoss value).nullInSome = true ↔ json.LostSome value) ∧
    ((jsonLoss value).nonFinite = true ↔ NonFinite value) ∧
    (∀ data, json.toVec value = .ok data →
      (¬NonFinite value ∧ ¬json.LostSome value → serializePayload (json.serialized value) = .ok (some data)) ∧
      (NonFinite value ∨ json.LostSome value → serializePayload (json.serialized value) = .ok none)) ∧
    (∀ document, json.toValue value = .ok document →
      ((∃ reason, json.checkedFilterValue value = .error reason) ↔ NonFinite value ∧ holdsNull document = true) ∧
      (json.KeysOnce value → ((∃ reason, json.checkedFilterValue value = .error reason) ↔ NonFinite value))) ∧
    (∀ document, json.checkedFilterValue value = .ok document →
      ∃ sqlNull, json.checkedAssignmentValue value = .ok (document, sqlNull) ∧ (sqlNull = true ↔ value.content = .none)) := by
  refine ⟨json.nullInSome_iff value, nonFinite_iff value, fun data hdata => ?_, fun document hdocument => ?_,
    fun document hdocument => json.checkedAssignmentValue_flag hdocument⟩
  · exact ⟨json.serializePayload_kept hdata, json.serializePayload_dropped hdata⟩
  · have hrefuses := json.checkedFilterValue_refuses hdocument
    exact ⟨hrefuses, fun hkeys => hrefuses.trans (and_iff_left_of_imp fun h => holdsNull_of_nonFinite hkeys h hdocument)⟩

theorem loss_found_none : ∃ sqlNull,
    JsonWriter.writer.checkedAssignmentValue (.some (.newtypeStruct "Price" .none)) = .ok (.null, sqlNull) ∧
      (sqlNull = true ↔ (SerdeValue.some (.newtypeStruct "Price" .none)).content = .none) :=
  (loss_found JsonWriter.writer _).2.2.2.2 .null rfl

/-- A NaN under a key that is written again is not in the JSON, so it is not looked for. -/
theorem overwritten_nan_bound :
    (∃ data, JsonWriter.writer.toVec (.map [(.str "price", .f64 .nan), (.str "price", .int 1)]) = .ok data) ∧
    NonFinite (.map [(.str "price", .f64 .nan), (.str "price", .int 1)]) ∧
    JsonWriter.writer.checkedFilterValue (.map [(.str "price", .f64 .nan), (.str "price", .int 1)]) =
      .ok (.object [("price", .number (.posInt 1))]) := by
  refine ⟨⟨_, rfl⟩, ⟨.f64 .nan, .single ?_, rfl⟩, rfl⟩
  exact List.mem_flatMap.2 ⟨_, List.mem_cons_self .., List.mem_cons_of_mem _ (List.mem_singleton_self _)⟩

end SerdeJson

end TideOrm
