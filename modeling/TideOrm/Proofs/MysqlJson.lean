import TideOrm.Lib.Traverse
import TideOrm.Sanity.QuotedText
import TideOrm.Spec.MysqlJson

/-! What `JSON_CONTAINS` holds to be contained beyond PostgreSQL's containment, the guards exclude. -/

namespace TideOrm.MysqlJson

open Lib

/-- The values that a value is made of. -/
def parts : Json → List Json
  | .array items => items
  | .object fields => fields.map Prod.snd
  | _ => []

section Parts

theorem sizeOf_of_parts {part value : Json} (h : part ∈ parts value) : sizeOf part < sizeOf value := by
  cases value with
  | array items =>
    have hlt := List.sizeOf_lt_of_mem (show part ∈ items from h)
    simp only [Json.array.sizeOf_spec]
    omega
  | object fields =>
    obtain ⟨⟨name, inner⟩, hfield, rfl⟩ := List.mem_map.1 h
    have hlt := List.sizeOf_lt_of_mem hfield
    simp only [Prod.mk.sizeOf_spec] at hlt
    simp only [Json.object.sizeOf_spec]
    omega
  | _ => cases h

/-- What holds of a value once it holds of its parts holds of every value. -/
theorem part_induction {P : Json → Prop} (step : ∀ value, (∀ part ∈ parts value, P part) → P value) (value : Json) : P value :=
  step value fun part h =>
    have := sizeOf_of_parts h
    part_induction step part
termination_by sizeOf value

theorem fieldsArrayFree_iff (fields : List (String × Json)) :
    fieldsArrayFree fields = true ↔ ∀ field ∈ fields, arrayFree field.2 = true := by
  induction fields with
  | nil => exact iff_of_true rfl fun _ h => by cases h
  | cons field fields ih => rw [fieldsArrayFree, Bool.and_eq_true, ih, List.forall_mem_cons]

theorem fieldsFlatArrays_iff (fields : List (String × Json)) :
    fieldsFlatArrays fields = true ↔ ∀ field ∈ fields, flatArrays field.2 = true := by
  induction fields with
  | nil => exact iff_of_true rfl fun _ h => by cases h
  | cons field fields ih => rw [fieldsFlatArrays, Bool.and_eq_true, ih, List.forall_mem_cons]

theorem fieldsKeyed_iff (fields : List (String × Json)) : fieldsKeyed fields = true ↔ ∀ field ∈ fields, keyed field.2 = true := by
  induction fields with
  | nil => exact iff_of_true rfl fun _ h => by cases h
  | cons field fields ih => rw [fieldsKeyed, Bool.and_eq_true, ih, List.forall_mem_cons]

end Parts

section Containment

variable (equal : Json → Json → Bool)

theorem anyJsonContains_iff (items : List Json) (candidate : Json) :
    anyJsonContains equal items candidate = true ↔ ∃ item ∈ items, jsonContains equal item candidate = true := by
  induction items with
  | nil => exact iff_of_false Bool.false_ne_true fun ⟨_, h, _⟩ => by cases h
  | cons item items ih => rw [anyJsonContains, Bool.or_eq_true, ih, List.exists_mem_cons_iff]

theorem anyDeepContains_iff (items : List Json) (candidate : Json) :
    anyDeepContains equal items candidate = true ↔ ∃ item ∈ items, deepContains equal item candidate = true := by
  induction items with
  | nil => exact iff_of_false Bool.false_ne_true fun ⟨_, h, _⟩ => by cases h
  | cons item items ih => rw [anyDeepContains, Bool.or_eq_true, ih, List.exists_mem_cons_iff]

theorem memberJsonContains_iff (fields : List (String × Json)) (key : String) (candidate : Json) :
    memberJsonContains equal fields key candidate = true ↔
      ∃ value, fields.lookup key = some value ∧ jsonContains equal value candidate = true := by
  induction fields with
  | nil => exact iff_of_false Bool.false_ne_true fun ⟨_, h, _⟩ => by cases h
  | cons field fields ih =>
    obtain ⟨name, value⟩ := field
    rw [memberJsonContains, List.lookup_cons]
    split_ifs with hsame
    · simp [hsame]
    · rw [ih, beq_false_of_ne hsame]

theorem memberDeepContains_iff (fields : List (String × Json)) (key : String) (candidate : Json) :
    memberDeepContains equal fields key candidate = true ↔
      ∃ value, fields.lookup key = some value ∧ deepContains equal value candidate = true := by
  induction fields with
  | nil => exact iff_of_false Bool.false_ne_true fun ⟨_, h, _⟩ => by cases h
  | cons field fields ih =>
    obtain ⟨name, value⟩ := field
    rw [memberDeepContains, List.lookup_cons]
    split_ifs with hsame
    · simp [hsame]
    · rw [ih, beq_false_of_ne hsame]

/-- Where the target has no arrays the two are one. -/
theorem jsonContains_of_arrayFree {target : Json} (h : arrayFree target = true) (candidate : Json) :
    jsonContains equal target candidate = deepContains equal target candidate := by
  induction target using part_induction generalizing candidate with
  | step target ih =>
    cases target with
    | array _ => cases h
    | object fields =>
      have hfields := (fieldsArrayFree_iff fields).1 h
      cases candidate with
      | object members =>
        rw [jsonContains, deepContains]
        refine congrArg (List.all members) (funext fun member => Bool.eq_iff_iff.2 ?_)
        rw [memberJsonContains_iff, memberDeepContains_iff]
        refine exists_congr fun value => and_congr_right fun hvalue => ?_
        have hmem := mem_of_lookup hvalue
        rw [ih value (List.mem_map_of_mem hmem) (hfields _ hmem)]
      | _ => rfl
    | _ => cases candidate <;> rfl

theorem anyJsonContains_of_arrayFree {items : List Json} (h : ∀ item ∈ items, arrayFree item = true) (candidate : Json) :
    anyJsonContains equal items candidate = anyDeepContains equal items candidate := by
  rw [Bool.eq_iff_iff, anyJsonContains_iff, anyDeepContains_iff]
  refine exists_congr fun item => and_congr_right fun hitem => ?_
  rw [jsonContains_of_arrayFree equal (h item hitem)]

end Containment

section Paths

variable (text : Json → String)

/-- The path of the value at the keys. -/
def pathOf (keys : List String) : String := keys.foldl (jsonMemberPath text) "$"

theorem pathOf_snoc (keys : List String) (key : String) : pathOf text (keys ++ [key]) = jsonMemberPath text (pathOf text keys) key := by
  rw [pathOf, List.foldl_append]
  rfl

theorem length_pathOf (keys : List String) : keys.length < (pathOf text keys).length := by
  induction keys using List.reverseRecOn with
  | nil =>
    change 0 < "$".length
    decide
  | append_singleton keys key ih =>
    rw [pathOf_snoc, jsonMemberPath, String.length_append, String.length_append, List.length_append]
    have hdot : ".".length = 1 := rfl
    have hone : [key].length = 1 := rfl
    omega

/-- Only the top has the path `$`. -/
theorem pathOf_root_iff (keys : List String) : pathOf text keys = "$" ↔ keys = [] := by
  constructor
  · intro h
    have hlength := length_pathOf text keys
    rw [h] at hlength
    exact List.length_eq_zero_iff.1 (Nat.lt_one_iff.1 hlength)
  · rintro rfl
    rfl

theorem follow_snoc (value : Json) (keys : List String) (key : String) :
    follow value (keys ++ [key]) = (follow value keys).bind fun inner => follow inner [key] := by
  induction keys generalizing value with
  | nil => rfl
  | cons first keys ih =>
    cases value with
    | object fields =>
      rw [List.cons_append, follow, follow, Option.bind_assoc]
      exact Option.bind_congr fun inner _ => ih inner
    | _ => rfl

theorem follow_member {column : Json} {keys : List String} {fields : List (String × Json)}
    (h : follow column keys = some (.object fields)) (key : String) : follow column (keys ++ [key]) = fields.lookup key := by
  rw [follow_snoc, h, Option.bind_some, follow]
  cases fields.lookup key <;> rfl

end Paths

section Guards

variable (text : Json → String)

theorem containsGuards_scalar {candidate : Json} (h : isScalar candidate = true) (path : String) (guards : List (String × Kind)) :
    containsGuards text candidate path guards = if path = "$" then guards else guards ++ [(path, .notArray)] := by
  cases candidate with
  | array _ | object _ => cases h
  | _ => rfl

mutual

theorem containsGuards_append : ∀ (candidate : Json) (path : String) (guards : List (String × Kind)),
    containsGuards text candidate path guards = guards ++ containsGuards text candidate path []
  | .object members, path, guards => by
    rw [containsGuards, containsGuards, memberContainsGuards_append members path guards, List.append_assoc]
  | .array _, _, guards => (List.append_nil guards).symm
  | .null, path, guards | .bool _, path, guards | .number _, path, guards | .string _, path, guards => by
    rw [containsGuards_scalar text rfl, containsGuards_scalar text rfl]
    split_ifs
    · exact (List.append_nil guards).symm
    · rfl

theorem memberContainsGuards_append : ∀ (members : List (String × Json)) (path : String) (guards : List (String × Kind)),
    memberContainsGuards text members path guards = guards ++ memberContainsGuards text members path []
  | [], _, guards => (List.append_nil guards).symm
  | (key, value) :: members, path, guards => by
    rw [memberContainsGuards, memberContainsGuards, memberContainsGuards_append members path,
      memberContainsGuards_append members path (containsGuards text value (jsonMemberPath text path key) []),
      containsGuards_append value, List.append_assoc]

end

mutual

theorem containedByGuards_append : ∀ (target : Json) (path : String) (guards : List (String × Kind)),
    containedByGuards text target path guards = guards ++ containedByGuards text target path []
  | .object members, path, guards => memberContainedByGuards_append members path guards
  | .array _, _, _ => rfl
  | .null, _, guards | .bool _, _, guards | .number _, _, guards | .string _, _, guards => (List.append_nil guards).symm

theorem memberContainedByGuards_append : ∀ (members : List (String × Json)) (path : String) (guards : List (String × Kind)),
    memberContainedByGuards text members path guards = guards ++ memberContainedByGuards text members path []
  | [], _, guards => (List.append_nil guards).symm
  | (key, value) :: members, path, guards => by
    rw [memberContainedByGuards, memberContainedByGuards, memberContainedByGuards_append members path,
      memberContainedByGuards_append members path (containedByGuards text value (jsonMemberPath text path key) []),
      containedByGuards_append value, List.append_assoc]

end

/-- The guards of an object's members are each member's. -/
theorem forall_memberContainsGuards {P : String × Kind → Prop} (members : List (String × Json)) (path : String) :
    (∀ guard ∈ memberContainsGuards text members path [], P guard) ↔
      ∀ member ∈ members, ∀ guard ∈ containsGuards text member.2 (jsonMemberPath text path member.1) [], P guard := by
  induction members with
  | nil => exact iff_of_true (fun _ h => by cases h) fun _ h => by cases h
  | cons member members ih =>
    rw [memberContainsGuards, memberContainsGuards_append, List.forall_mem_append, ih, List.forall_mem_cons]

theorem forall_memberContainedByGuards {P : String × Kind → Prop} (members : List (String × Json)) (path : String) :
    (∀ guard ∈ memberContainedByGuards text members path [], P guard) ↔
      ∀ member ∈ members, ∀ guard ∈ containedByGuards text member.2 (jsonMemberPath text path member.1) [], P guard := by
  induction members with
  | nil => exact iff_of_true (fun _ h => by cases h) fun _ h => by cases h
  | cons member members ih =>
    rw [memberContainedByGuards, memberContainedByGuards_append, List.forall_mem_append, ih, List.forall_mem_cons]

end Guards

/-- What a guard admits at its path. -/
def admits : Kind → Json → Bool
  | .object, .object _ | .array, .array _ | .arrayOrAbsent, .array _ => true
  | .object, _ | .array, _ | .arrayOrAbsent, _ => false
  | .notArray, .array _ | .notObject, .object _ => false
  | .notArray, _ | .notObject, _ => true

/-- A scalar is contained in an array alone beyond what is contained in like. -/
theorem contains_scalar (equal : Json → Json → Bool) {candidate : Json} (h : isScalar candidate = true) (value : Json) :
    jsonContains equal value candidate = true ∧ admits .notArray value = true ↔ deepContains equal value candidate = true := by
  cases candidate with
  | array _ | object _ => cases h
  | _ =>
    cases value with
    | array _ => exact iff_of_false (fun h => Bool.false_ne_true h.2) Bool.false_ne_true
    | _ => exact and_iff_left rfl

section Truth

variable (text : Json → String) (equal : Json → Json → Bool) {extract : Json → String → Option Json}

/-- The test that a guard makes of the value at its path. -/
def Holds (kind : Kind) (value : Option Json) : Prop := (guardTest kind).truth (value.map jsonType) = some true

theorem holds_some (kind : Kind) (value : Json) : Holds kind (some value) ↔ admits kind value = true := by
  cases value with
  | number n => cases kind <;> cases n <;> simp [Holds, guardTest, TypeTest.truth, jsonType, admits]
  | _ => cases kind <;> simp [Holds, guardTest, TypeTest.truth, jsonType, admits]

theorem holds_none (kind : Kind) : Holds kind none ↔ kind = .arrayOrAbsent := by
  cases kind <;> simp [Holds, guardTest, TypeTest.truth]

/-- All guards of a list hold of the column. -/
def AllHold (extract : Json → String → Option Json) (column : Json) (guards : List (String × Kind)) : Prop :=
  ∀ guard ∈ guards, Holds guard.2 (extract column guard.1)

theorem truth_iff (containment : Containment) (column : Json) :
    containment.truth equal extract column = some true ↔
      (if containment.columnHolds then jsonContains equal column containment.document
        else jsonContains equal containment.document column) = true ∧ AllHold extract column containment.guards := by
  have hfold (truth : Kleene) (guards : List (String × Kind)) :
      guards.foldl (fun truth guard => Kleene.and truth (guardTruth extract column guard)) truth = some true ↔
        truth = some true ∧ AllHold extract column guards := by
    induction guards generalizing truth with
    | nil => exact (and_iff_left fun _ h => by cases h).symm
    | cons guard guards ih =>
      rw [List.foldl_cons, ih, Kleene.and_true_iff, AllHold, AllHold, List.forall_mem_cons, and_assoc]
      rfl
  rw [Containment.truth, hfold, Option.some_inj]

variable (hextract : ∀ column keys, extract column (pathOf text keys) = follow column keys)

include hextract

/-- Below the top, and in an object, a guard leaves no array where the candidate has a scalar, and nothing but
objects where it has objects. -/
theorem contains_nested {column : Json} {candidate : Json} (harrays : arrayFree candidate = true) (keys : List String)
    (hnested : keys ≠ [] ∨ isScalar candidate = false) {value : Json} (hvalue : follow column keys = some value) :
    jsonContains equal value candidate = true ∧ AllHold extract column (containsGuards text candidate (pathOf text keys) []) ↔
      deepContains equal value candidate = true := by
  induction candidate using part_induction generalizing keys value with
  | step candidate ih =>
    cases candidate with
    | array _ => cases harrays
    | object members =>
      have hmembers := (fieldsArrayFree_iff members).1 harrays
      have hguards : AllHold extract column (containsGuards text (.object members) (pathOf text keys) []) ↔
          (∀ member ∈ members, AllHold extract column
            (containsGuards text member.2 (pathOf text (keys ++ [member.1])) [])) ∧ admits .object value = true := by
        rw [containsGuards, AllHold, List.forall_mem_append, forall_memberContainsGuards, List.forall_mem_singleton, hextract,
          hvalue, holds_some]
        simp only [pathOf_snoc, AllHold]
      rw [hguards]
      cases value with
      | object fields =>
        have hobject : admits .object (.object fields) = true := rfl
        rw [jsonContains, deepContains, List.all_eq_true, List.all_eq_true, and_iff_left hobject, ← forall₂_and]
        refine forall₂_congr fun member hmember => ?_
        rw [memberJsonContains_iff, memberDeepContains_iff, exists_and_right.symm]
        refine exists_congr fun inner => ?_
        rw [and_assoc]
        refine and_congr_right fun hinner => ?_
        exact ih member.2 (List.mem_map_of_mem hmember) (hmembers member hmember) (keys ++ [member.1])
          (.inl (List.append_ne_nil_of_right_ne_nil _ (List.cons_ne_nil _ _))) ((follow_member hvalue member.1).trans hinner)
      | _ => exact iff_of_false (fun h => Bool.false_ne_true h.2.2) Bool.false_ne_true
    | _ =>
      have hkeys : pathOf text keys ≠ "$" := mt (pathOf_root_iff text keys).1 (hnested.resolve_right Bool.true_eq_false.mp)
      rw [containsGuards_scalar text rfl, if_neg hkeys, List.nil_append, AllHold, List.forall_mem_singleton, hextract, hvalue,
        holds_some]
      exact contains_scalar equal rfl value

/-- The guards of what the column does not have hold. -/
theorem containedBy_absent {column target : Json} {keys : List String} (hkeys : keys ≠ []) (habsent : follow column keys = none) :
    AllHold extract column (containedByGuards text target (pathOf text keys) []) := by
  induction target using part_induction generalizing keys with
  | step target ih =>
    cases target with
    | object members =>
      rw [containedByGuards, AllHold, forall_memberContainedByGuards]
      intro member hmember
      rw [← pathOf_snoc]
      refine ih member.2 (List.mem_map_of_mem hmember) (List.append_ne_nil_of_right_ne_nil _ (List.cons_ne_nil _ _)) ?_
      rw [follow_snoc, habsent, Option.bind_none]
    | array _ =>
      rw [containedByGuards, if_neg (mt (pathOf_root_iff text keys).1 hkeys), List.nil_append, AllHold, List.forall_mem_singleton,
        hextract, habsent, holds_none]
    | _ => exact fun _ h => by cases h

/-- The column has an array where the target does below the top. -/
theorem containedBy_nested {column target : Json} (hflat : flatArrays target = true) (htarget : keyed target = true)
    (keys : List String) (hnested : keys ≠ [] ∨ ∀ items, target ≠ .array items) {value : Json} (hkeyed : keyed value = true)
    (hvalue : follow column keys = some value) :
    jsonContains equal target value = true ∧ AllHold extract column (containedByGuards text target (pathOf text keys) []) ↔
      deepContains equal target value = true := by
  induction target using part_induction generalizing keys value with
  | step target ih =>
    cases target with
    | object fields =>
      cases value with
      | object members =>
        rw [keyed, Bool.and_eq_true, decide_eq_true_eq] at htarget hkeyed
        have hfields := (fieldsKeyed_iff fields).1 htarget.2
        have hmembers := (fieldsKeyed_iff members).1 hkeyed.2
        have hflatFields := (fieldsFlatArrays_iff fields).1 hflat
        -- a member of both
        have hboth {key : String} {inner part : Json} (hinner : (key, inner) ∈ members) (hpart : (key, part) ∈ fields) :=
          ih part (List.mem_map_of_mem hpart) (hflatFields _ hpart) (hfields _ hpart) (keys ++ [key])
            (.inl (List.append_ne_nil_of_right_ne_nil keys (List.cons_ne_nil key _))) (hmembers _ hinner)
            ((follow_member hvalue key).trans (lookup_of_nodup hkeyed.1 hinner))
        rw [jsonContains, deepContains, List.all_eq_true, List.all_eq_true, containedByGuards, AllHold,
          forall_memberContainedByGuards]
        simp only [memberJsonContains_iff, memberDeepContains_iff]
        constructor
        · rintro ⟨hcontains, hguards⟩ ⟨key, inner⟩ hinner
          obtain ⟨part, hlookup, hpart⟩ := hcontains _ hinner
          have hmem := mem_of_lookup hlookup
          have hpartGuards := hguards _ hmem
          rw [← pathOf_snoc] at hpartGuards
          exact ⟨part, hlookup, (hboth hinner hmem).1 ⟨hpart, hpartGuards⟩⟩
        · intro hdeep
          refine ⟨fun ⟨key, inner⟩ hinner => ?_, fun ⟨key, part⟩ hpart => ?_⟩
          · obtain ⟨part, hlookup, hpart⟩ := hdeep _ hinner
            exact ⟨part, hlookup, ((hboth hinner (mem_of_lookup hlookup)).2 hpart).1⟩
          · rw [← pathOf_snoc]
            cases hlookup : members.lookup key with
            | none =>
              exact containedBy_absent text hextract (List.append_ne_nil_of_right_ne_nil _ (List.cons_ne_nil _ _))
                ((follow_member hvalue key).trans hlookup)
            | some inner =>
              have hinner := mem_of_lookup hlookup
              obtain ⟨part', hpart', hcontains⟩ := hdeep _ hinner
              obtain rfl : part' = part := Option.some_inj.1 (hpart'.symm.trans (lookup_of_nodup htarget.1 hpart))
              exact ((hboth hinner hpart).2 hcontains).2
      | _ => exact iff_of_false (fun h => Bool.false_ne_true h.1) Bool.false_ne_true
    | array items =>
      have hkeys : keys ≠ [] := hnested.resolve_right fun h => h items rfl
      rw [containedByGuards, if_neg (mt (pathOf_root_iff text keys).1 hkeys), List.nil_append, AllHold, List.forall_mem_singleton,
        hextract, hvalue, holds_some]
      cases value with
      | array candidates =>
        refine (and_iff_left rfl).trans ?_
        rw [jsonContains, deepContains]
        simp only [anyJsonContains_of_arrayFree equal (List.all_eq_true.1 hflat)]
      | _ => exact iff_of_false (fun h => Bool.false_ne_true h.2) Bool.false_ne_true
    | _ =>
      refine (and_iff_left fun _ h => by cases h).trans ?_
      cases value <;> exact Iff.rfl

omit hextract in
theorem postgresContains_of_container {target candidate : Json} (h : isScalar candidate = false) :
    postgresContains equal target candidate = deepContains equal target candidate := by
  cases candidate with
  | array _ | object _ => cases target <;> rfl
  | _ => cases h

/-- At the top an array of the target has a column's array or scalar. -/
theorem containedBy_top {column target : Json} (hflat : flatArrays target = true) (htarget : keyed target = true)
    (hcolumn : keyed column = true) :
    jsonContains equal target column = true ∧ AllHold extract column (containedByGuards text target "$" []) ↔
      postgresContains equal target column = true := by
  have htop : extract column "$" = some column := hextract column []
  cases target with
  | array items =>
    have hany := anyJsonContains_of_arrayFree equal (List.all_eq_true.1 hflat)
    rw [containedByGuards, if_pos rfl, List.nil_append, AllHold, List.forall_mem_singleton, htop, holds_some]
    cases column with
    | object _ => exact iff_of_false (fun h => Bool.false_ne_true h.2) Bool.false_ne_true
    | array candidates =>
      refine (and_iff_left rfl).trans ?_
      rw [jsonContains, postgresContains_of_container equal rfl, deepContains]
      simp only [hany]
    | _ =>
      refine (and_iff_left rfl).trans ?_
      rw [jsonContains, hany]
      · rfl
      · exact fun _ h => by cases h
  | _ =>
    refine (containedBy_nested text equal hextract hflat htarget [] (.inr fun _ h => by cases h) hcolumn rfl).trans ?_
    cases column <;> exact Iff.rfl

/-- With their guards the two forms have PostgreSQL's meaning. -/
theorem guards_restore :
    (∀ candidate column : Document, (∃ members, candidate.value = .object members) → arrayFree candidate.value = true →
      ((mysqlJsonContains text candidate.value).truth equal extract column.value = some true ↔
        postgresContains equal column.value candidate.value = true)) ∧
    (∀ target column : Document, flatArrays target.value = true →
      ((mysqlJsonContainedBy text target.value).truth equal extract column.value = some true ↔
        postgresContains equal target.value column.value = true)) := by
  refine ⟨fun candidate column hobject harrays => ?_, fun target column hflat => ?_⟩
  · obtain ⟨members, hmembers⟩ := hobject
    have hscalar : isScalar candidate.value = false := by rw [hmembers]; rfl
    rw [truth_iff, postgresContains_of_container equal hscalar]
    exact contains_nested text equal hextract harrays [] (.inr hscalar) rfl
  · rw [truth_iff]
    exact containedBy_top text equal hextract hflat target.keyed column.keyed

end Truth

section Tags

/-- A string as JSON. -/
def stringText : Json → String
  | .string s => String.ofList (QuotedText.quotedText s.toList)
  | _ => ""

theorem readStrings_path (keys : List String) (rest : List Char) :
    QuotedText.readStrings none ((pathOf stringText keys).toList ++ rest) =
      keys.map String.toList ++ QuotedText.readStrings none rest := by
  induction keys using List.reverseRecOn generalizing rest with
  | nil => rfl
  | append_singleton keys key ih =>
    have hmember : (pathOf stringText (keys ++ [key])).toList ++ rest =
        (pathOf stringText keys).toList ++ ('.' :: (QuotedText.quotedText key.toList ++ rest)) := by
      rw [pathOf_snoc, jsonMemberPath, stringText]
      simp only [String.toList_append, String.toList_ofList, List.append_assoc]
      rfl
    rw [hmember, ih, List.map_append, List.append_assoc, QuotedText.readStrings, QuotedText.readStrings_quoted]
    · rfl
    · exact fun h => absurd h (by decide)

/-- A document's value at a path of quoted keys. -/
def extractAt (column : Json) (path : String) : Option Json := follow column (QuotedText.jsonEach path)

theorem extractAt_path (column : Json) (keys : List String) : extractAt column (pathOf stringText keys) = follow column keys := by
  have hkeys := readStrings_path keys []
  rw [List.append_nil, QuotedText.readStrings, List.append_nil] at hkeys
  rw [extractAt, QuotedText.jsonEach, hkeys, List.map_map]
  exact congrArg (follow column) (List.map_id'' (fun key => String.ofList_toList) keys)

def sameString : Json → Json → Bool
  | .string s, .string t => s == t
  | _, _ => false

/-- A scalar is not contained in a list that has it, below the top. -/
theorem guards_restore_tags :
    jsonContains sameString (.object [("tags", .array [.string "a", .string "b"])]) (.object [("tags", .string "a")]) = true ∧
    (mysqlJsonContains stringText (.object [("tags", .string "a")])).truth sameString extractAt
      (.object [("tags", .array [.string "a", .string "b"])]) ≠ some true :=
  ⟨by decide, fun h => absurd (((guards_restore stringText sameString extractAt_path).1
    ⟨.object [("tags", .string "a")], by decide⟩ ⟨.object [("tags", .array [.string "a", .string "b"])], by decide⟩
    ⟨_, rfl⟩ (by decide)).1 h) (by decide)⟩

end Tags

end TideOrm.MysqlJson
