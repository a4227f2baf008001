import TideOrm.Lib.Traverse
import TideOrm.Proofs.SqliteNumbers
import TideOrm.Sanity.SqliteTests

/-! The tests that SQLite is given hold where PostgreSQL's operators do. -/

namespace TideOrm.SqliteJson

open Lib

section Scalars

/-- But for numbers, scalars are equal where they are the same. -/
theorem equal_iff_eq {scalar : Document} (h : isScalar scalar = true) (hnumber : ∀ n, scalar ≠ .number n) (value : Document) :
    Equal value scalar ↔ value = scalar := by
  constructor
  · intro heq
    cases heq with
    | number => exact absurd rfl (hnumber _)
    | array | object => cases h
    | _ => rfl
  · rintro rfl
    cases value with
    | null => exact .null
    | bool b => exact .bool b
    | number n => exact absurd rfl (hnumber n)
    | string s => exact .string s
    | array | object => cases h

theorem tells_atomIs (node : Node) (s : String) :
    Tells (.atomIs node (.text s.toList)) node.reading (fun value => jsonType value = "text") (fun value => value = .string s) := by
  intro document env value hread htext
  obtain ⟨s', rfl⟩ := (jsonType_string_iff value).1 htext
  rw [Node.reading] at hread
  rw [Test.eval, hread]
  refine Decides.of_iff ?_
  rw [beq_iff_eq, Value.text.injEq, String.toList_inj, eq_comm]
  exact (Document.string.injEq s' s ▸ Iff.rfl)

theorem tells_isNumber (node : Node) (G : Document → Prop) :
    Tells (.isNumber node) node.reading G (fun value => ∃ n, value = .number n) := by
  intro document env value hread _
  rw [Node.reading] at hread
  rw [Test.eval, hread]
  exact Decides.of_iff (jsonType_number_iff value)

theorem tells_normal (node : Node) (comparison : Comparison Value) :
    Tells (.normal node comparison) node.reading (fun value => ∃ n, value = .number n)
      (fun value => ∃ n, value = .number n ∧ comparison.truth (tideNumNormal n.text) = true) := by
  rintro document env _ hread ⟨n, rfl⟩
  rw [Node.reading] at hread
  rw [Test.eval, hread]
  refine Decides.of_iff ⟨fun h => ⟨n, rfl, h⟩, ?_⟩
  rintro ⟨_, heq, h⟩
  cases heq
  exact h

/-- The comparison that is built for a number. -/
def comparisonOf (n : NumberText) : Comparison Value :=
  if coefficient n.digits = [] then .empty
  else .parts (.text (coefficient n.digits)) (.bool n.negative) (.int n.normalScale)

theorem numberEquals_text (node : Node) (n : NumberText) (tests : JsonTests) : numberEquals node n.text tests =
    (.group (.and (.isNumber node) (.normal node (comparisonOf n).erase)), tests.push (comparisonOf n).markers) := by
  rw [numberEquals, n.decimalParts_text, comparisonOf]
  cases hcoefficient : coefficient n.digits with
  | nil =>
    have hpush : tests.push [] = tests := by rw [JsonTests.push, List.append_nil]
    rw [if_pos rfl]
    exact congrArg (Prod.mk _) hpush.symm
  | cons ch rest =>
    rw [if_neg (List.cons_ne_nil _ _)]
    rfl

theorem comparison_truth_iff (n m : NumberText) : (comparisonOf n).truth (tideNumNormal m.text) = true ↔ m.value = n.value := by
  rw [m.tideNumNormal_text, m.value_eq_iff, comparisonOf]
  split_ifs with hnil
  · rw [Comparison.truth, List.isEmpty_iff, hnil]
    exact ⟨fun h => ⟨h, .inl h⟩, fun h => h.1⟩
  · simp only [Comparison.truth, Bool.and_eq_true, beq_iff_eq, Value.text.injEq, Value.bool.injEq, Value.int.injEq]
    constructor
    · rintro ⟨⟨hcoefficient, hnegative⟩, hscale⟩
      exact ⟨hcoefficient.symm, .inr ⟨hnegative.symm, hscale.symm⟩⟩
    · rintro ⟨hcoefficient, h⟩
      obtain ⟨hnegative, hscale⟩ := h.resolve_left (hcoefficient ▸ hnil)
      exact ⟨⟨hcoefficient.symm, hnegative.symm⟩, hscale.symm⟩

theorem builds_numberEquals (node : Node) (n : NumberText) (G : Document → Prop) :
    Builds (numberEquals node n.text) node.reading G (fun value => Equal value (.number n)) := by
  have htells := ((tells_isNumber node G).and ((tells_normal node (comparisonOf n)).mono (fun _ hx => hx.2) fun _ _ => Iff.rfl)).group
  have hbuilds := builds_value rfl htells
  refine (funext fun tests => numberEquals_text node n tests : numberEquals node n.text = _) ▸ hbuilds.mono (fun _ h => h) fun value _ => ?_
  constructor
  · rintro ⟨-, m, rfl, htruth⟩
    exact .number ((comparison_truth_iff n m).1 htruth)
  · intro h
    cases h with
    | @number m _ hvalue => exact ⟨⟨m, rfl⟩, m, rfl, (comparison_truth_iff n m).2 hvalue⟩

theorem builds_scalarEquals {scalar : Document} (h : isScalar scalar = true) (node : Node) (G : Document → Prop) :
    Builds (scalarEquals node scalar) node.reading G (fun value => Equal value scalar) := by
  have hplain : (scalar = .null ∨ ∃ b, scalar = .bool b) →
      Builds (fun tests => (.kindIs node (jsonType scalar), tests)) node.reading G (fun value => Equal value scalar) := by
    intro hkind
    refine (builds_plain rfl (tells_kindIs node (jsonType scalar) G)).mono (fun _ h => h) fun value _ => ?_
    rw [jsonType_plain_iff hkind, equal_iff_eq h]
    rintro n rfl
    rcases hkind with hkind | ⟨b, hkind⟩ <;> cases hkind
  cases scalar with
  | null => exact hplain (.inl rfl)
  | bool b => cases b <;> exact hplain (.inr ⟨_, rfl⟩)
  | number n => exact builds_numberEquals node n G
  | string s =>
    have htells := ((tells_kindIs node "text" G).and ((tells_atomIs node s).mono (fun _ hx => hx.2) fun _ _ => Iff.rfl)).group
    refine (builds_value rfl htells).mono (fun _ h => h) fun value _ => ?_
    rw [equal_iff_eq rfl (fun n => by simp), jsonType_string_iff]
    exact ⟨fun h => h.2, fun h => ⟨⟨s, h⟩, h⟩⟩
  | array _ | object _ => cases h

end Scalars

section Meaning

/-- The documents that a document is made of. -/
def parts : Document → List Document
  | .array items => items
  | .object fields => fields.map Prod.snd
  | _ => []

theorem sizeOf_of_parts {part value : Document} (h : part ∈ parts value) : sizeOf part < sizeOf value := by
  cases value with
  | array items =>
    have hlt := List.sizeOf_lt_of_mem (show part ∈ items from h)
    simp only [Document.array.sizeOf_spec]
    omega
  | object fields =>
    obtain ⟨⟨name, inner⟩, hfield, rfl⟩ := List.mem_map.1 h
    have hlt := List.sizeOf_lt_of_mem hfield
    simp only [Prod.mk.sizeOf_spec] at hlt
    simp only [Document.object.sizeOf_spec]
    omega
  | _ => cases h

/-- What holds of a document once it holds of its parts holds of every document. -/
theorem part_induction {P : Document → Prop} (step : ∀ value, (∀ part ∈ parts value, P part) → P value) (value : Document) :
    P value :=
  step value fun part h =>
    have := sizeOf_of_parts h
    part_induction step part
termination_by sizeOf value

theorem Keyed.parts {value part : Document} (h : Keyed value) (hpart : part ∈ parts value) : Keyed part := by
  cases h with
  | scalar hscalar =>
    cases value with
    | array _ | object _ => cases hscalar
    | _ => cases hpart
  | array hitems => exact hitems part hpart
  | object _ hfields =>
    obtain ⟨field, hfield, rfl⟩ := List.mem_map.1 hpart
    exact hfields field hfield

theorem Keyed.nodup {fields : List (String × Document)} (h : Keyed (.object fields)) : (fields.map Prod.fst).Nodup := by
  cases h with
  | scalar hscalar => cases hscalar
  | object hkeys _ => exact hkeys

theorem equal_isScalar {value other : Document} (h : Equal value other) : isScalar value = isScalar other := by
  cases h <;> rfl

theorem deepContains_scalar_iff {candidate : Document} (h : isScalar candidate = true) (target : Document) :
    DeepContains target candidate ↔ Equal target candidate := by
  constructor
  · intro hcontains
    cases hcontains with
    | scalar _ heq => exact heq
    | array | object => cases h
  · exact .scalar h

theorem deepContains_array_iff (target : Document) (candidates : List Document) :
    DeepContains target (.array candidates) ↔
      ∃ items, target = .array items ∧ ∀ candidate ∈ candidates, ∃ item ∈ items, DeepContains item candidate := by
  constructor
  · intro h
    cases h with
    | scalar hscalar => cases hscalar
    | @array items _ found hfound h => exact ⟨items, rfl, fun c hc => ⟨found c, hfound c hc, h c hc⟩⟩
  · rintro ⟨items, rfl, h⟩
    have : Nonempty Document := ⟨.null⟩
    choose! found hfound hcontains using h
    exact .array found hfound hcontains

theorem deepContains_object_iff (target : Document) (members : List (String × Document)) :
    DeepContains target (.object members) ↔ ∃ fields, target = .object fields ∧
      ∀ member ∈ members, ∃ value, fields.lookup member.1 = some value ∧ DeepContains value member.2 := by
  constructor
  · intro h
    cases h with
    | scalar hscalar => cases hscalar
    | @object fields _ found hfound h => exact ⟨fields, rfl, fun m hm => ⟨found m.1, hfound m hm, h m hm⟩⟩
  · rintro ⟨fields, rfl, h⟩
    refine .object (fun key => (fields.lookup key).getD .null) (fun member hmember => ?_) fun member hmember => ?_
    · obtain ⟨value, hvalue, -⟩ := h member hmember
      rw [hvalue, Option.getD_some]
    · obtain ⟨value, hvalue, hcontains⟩ := h member hmember
      rw [hvalue, Option.getD_some]
      exact hcontains

/-- A row under a key is what the key finds. -/
theorem lookup_iff_row {fields : List (String × Document)} (hkeys : (fields.map Prod.fst).Nodup) (key : String) (P : Document → Prop) :
    (∃ entry ∈ rows (.object fields), entry.key = .inl key ∧ P entry.value) ↔ ∃ value, fields.lookup key = some value ∧ P value := by
  constructor
  · rintro ⟨entry, hentry, hkey, hP⟩
    obtain ⟨field, hfield, rfl⟩ := mem_rows_object.1 hentry
    exact ⟨field.2, Sum.inl.inj hkey ▸ lookup_of_nodup hkeys hfield, hP⟩
  · rintro ⟨value, hvalue, hP⟩
    exact ⟨⟨.inl key, value⟩, mem_rows_object.2 ⟨(key, value), mem_of_lookup hvalue, rfl⟩, rfl, hP⟩

theorem place_iff_row {items : List Document} (i : ℕ) (P : Document → Prop) :
    (∃ entry ∈ rows (.array items), entry.key = .inr i ∧ P entry.value) ↔ ∃ item, items[i]? = some item ∧ P item := by
  constructor
  · rintro ⟨entry, hentry, hkey, hP⟩
    obtain ⟨j, item, hget, rfl⟩ := mem_rows_array.1 hentry
    exact ⟨item, Sum.inr.inj hkey ▸ hget, hP⟩
  · rintro ⟨item, hget, hP⟩
    exact ⟨⟨.inr i, item⟩, mem_rows_array.2 ⟨i, item, hget, rfl⟩, rfl, hP⟩

theorem item_iff_row {items : List Document} (P : Document → Prop) :
    (∃ entry ∈ rows (.array items), P entry.value) ↔ ∃ item ∈ items, P item := by
  constructor
  · rintro ⟨entry, hentry, hP⟩
    obtain ⟨i, item, hget, rfl⟩ := mem_rows_array.1 hentry
    exact ⟨item, List.mem_of_getElem? hget, hP⟩
  · rintro ⟨item, hitem, hP⟩
    obtain ⟨i, hget⟩ := List.mem_iff_getElem?.1 hitem
    exact ⟨⟨.inr i, item⟩, mem_rows_array.2 ⟨i, item, hget, rfl⟩, hP⟩

end Meaning

section Containment

theorem keyed_opens {value : Document} (h : Keyed value) (hkind : jsonType value = "object" ∨ jsonType value = "array") :
    Opens value := by
  refine h.opens ?_
  rcases hkind with hkind | hkind
  · obtain ⟨fields, rfl⟩ := (jsonType_object_iff value).1 hkind
    rfl
  · obtain ⟨items, rfl⟩ := (jsonType_array_iff value).1 hkind
    rfl

/-- The test of containment that is built below the top level. -/
theorem builds_containsBelow (candidate : Document) (node : Node) :
    Builds (containsBelow candidate node) node.reading Keyed (fun value => DeepContains value candidate) := by
  induction candidate using part_induction generalizing node with
  | step candidate ih =>
    cases candidate with
    | object members =>
      have hchecks : BuildsEach (fun tests => memberContains members node tests) members node.reading Opens
          fun member value => ∃ entry ∈ rows value, entry.key = .inl member.1 ∧ DeepContains entry.value member.2 :=
        buildsEach_of (fun members => memberContains members node)
          (fun member => someMember member.1 (containsBelow member.2) node) (fun _ => rfl) (fun _ _ _ => rfl) fun member hmember =>
          builds_someMember (fun row => ih member.2 (List.mem_map_of_mem hmember) (.row row)) member.1 node
      have hbuilds := builds_joinAnd rfl (tells_kindIs node "object" Keyed) hchecks fun value h hkind => keyed_opens h (.inl hkind)
      refine hbuilds.mono (fun _ h => h) fun value hkeyed => ?_
      rw [jsonType_object_iff, deepContains_object_iff]
      constructor
      · rintro ⟨⟨fields, rfl⟩, h⟩
        exact ⟨fields, rfl, fun member hmember => (lookup_iff_row hkeyed.nodup member.1 _).1 (h member hmember)⟩
      · rintro ⟨fields, rfl, h⟩
        exact ⟨⟨fields, rfl⟩, fun member hmember => (lookup_iff_row hkeyed.nodup member.1 _).2 (h member hmember)⟩
    | array elements =>
      have hchecks : BuildsEach (fun tests => elementContains elements node tests) elements node.reading Opens
          fun element value => ∃ entry ∈ rows value, DeepContains entry.value element :=
        buildsEach_of (fun elements => elementContains elements node) (fun element => someElement (containsBelow element) node)
          (fun _ => rfl) (fun _ _ _ => rfl) fun element helement =>
          builds_someElement (fun row => ih element helement (.row row)) node
      have hbuilds := builds_joinAnd rfl (tells_kindIs node "array" Keyed) hchecks fun value h hkind => keyed_opens h (.inr hkind)
      refine hbuilds.mono (fun _ h => h) fun value hkeyed => ?_
      rw [jsonType_array_iff, deepContains_array_iff]
      constructor
      · rintro ⟨⟨items, rfl⟩, h⟩
        exact ⟨items, rfl, fun element helement => (item_iff_row _).1 (h element helement)⟩
      · rintro ⟨items, rfl, h⟩
        exact ⟨⟨items, rfl⟩, fun element helement => (item_iff_row _).2 (h element helement)⟩
    | _ => exact (builds_scalarEquals rfl node Keyed).mono (fun _ h => h) fun value _ => (deepContains_scalar_iff rfl value).symm

/-- The test of containment that is built at the top level. -/
theorem builds_contains (candidate : Document) (node : Node) :
    Builds (contains candidate node) node.reading Keyed (fun value => Contains value candidate) := by
  cases hscalar : isScalar candidate with
  | false =>
    have hbelow : contains candidate node = containsBelow candidate node := by
      funext tests
      rw [contains, hscalar, if_neg Bool.false_ne_true]
    rw [hbelow]
    refine (builds_containsBelow candidate node).mono (fun _ h => h) fun value _ => ?_
    rw [Contains, hscalar]
    simp
  | true =>
    intro tests
    obtain ⟨equal, hequal, hvalues, htells⟩ := builds_scalarEquals hscalar node Keyed tests
    obtain ⟨element, helement, hvalues', htells'⟩ :=
      builds_someElement (builds_containsBelow candidate <| .row ·) node (scalarEquals node candidate tests).2
    have harray := (tells_kindIs node "array" Keyed).and (htells'.mono (fun value h => keyed_opens h.1 (.inr h.2)) fun _ _ => Iff.rfl)
    refine ⟨_, ?_, ?_, (htells.or harray.group).group.mono (fun _ h => h) fun value _ => ?_⟩
    · rw [contains, hscalar, if_pos rfl]
      exact congrArg₂ (fun equal element => Test.group (.or equal (.group (.and (.kindIs node "array") element)))) hequal helement
    · rw [contains, hscalar, if_pos rfl]
      refine hvalues'.trans ?_
      rw [hvalues, List.append_assoc]
      rfl
    · rw [Contains, hscalar, deepContains_scalar_iff hscalar, jsonType_array_iff]
      refine or_congr_right ?_
      constructor
      · rintro ⟨⟨items, rfl⟩, h⟩
        exact ⟨rfl, items, rfl, (item_iff_row _).1 h⟩
      · rintro ⟨-, items, rfl, h⟩
        exact ⟨⟨items, rfl⟩, (item_iff_row _).2 h⟩

end Containment

section ContainedBy

theorem equal_symm {value other : Document} (hscalar : isScalar value = true) (h : Equal value other) : Equal other value := by
  cases h with
  | null => exact .null
  | bool b => exact .bool b
  | number h => exact .number h.symm
  | string s => exact .string s
  | array | object => cases hscalar

theorem scalar_deepContains_iff {container : Document} (h : isScalar container = true) (value : Document) :
    DeepContains container value ↔ Equal value container := by
  constructor
  · intro hcontains
    cases hcontains with
    | scalar _ heq => exact equal_symm h heq
    | array | object => cases h
  · intro heq
    have hvalue : isScalar value = true := (equal_isScalar heq).trans h
    exact .scalar hvalue (equal_symm hvalue heq)

theorem array_deepContains_iff (items : List Document) (value : Document) :
    DeepContains (.array items) value ↔
      ∃ elements, value = .array elements ∧ ∀ element ∈ elements, ∃ item ∈ items, DeepContains item element := by
  constructor
  · intro h
    cases h with
    | scalar hscalar heq => cases heq; cases hscalar
    | @array _ elements found hfound h => exact ⟨elements, rfl, fun e he => ⟨found e, hfound e he, h e he⟩⟩
  · rintro ⟨elements, rfl, h⟩
    exact (deepContains_array_iff _ _).2 ⟨items, rfl, h⟩

theorem object_deepContains_iff (members : List (String × Document)) (value : Document) :
    DeepContains (.object members) value ↔ ∃ fields, value = .object fields ∧
      ∀ field ∈ fields, ∃ inner, members.lookup field.1 = some inner ∧ DeepContains inner field.2 := by
  constructor
  · intro h
    cases h with
    | scalar hscalar heq => cases heq; cases hscalar
    | @object _ fields found hfound h => exact ⟨fields, rfl, fun f hf => ⟨found f.1, hfound f hf, h f hf⟩⟩
  · rintro ⟨fields, rfl, h⟩
    exact (deepContains_object_iff _ _).2 ⟨members, rfl, h⟩

theorem member_iff_lookup {members : List (String × Document)} (hkeys : (members.map Prod.fst).Nodup) (key : String)
    (P : Document → Prop) :
    (∃ member ∈ members, (.inl key : String ⊕ ℕ) = .inl member.1 ∧ P member.2) ↔ ∃ inner, members.lookup key = some inner ∧ P inner := by
  constructor
  · rintro ⟨member, hmember, hkey, hP⟩
    exact ⟨member.2, Sum.inl.inj hkey ▸ lookup_of_nodup hkeys hmember, hP⟩
  · rintro ⟨inner, hinner, hP⟩
    exact ⟨(key, inner), mem_of_lookup hinner, rfl, hP⟩

/-- The test of being contained that is built below the top level. -/
theorem builds_containedBelow (container : Document) (hcontainer : Keyed container) (node : Node) :
    Builds (containedBelow container node) node.reading Keyed (fun value => DeepContains container value) := by
  induction container using part_induction generalizing node with
  | step container ih =>
    cases container with
    | object members =>
      have hplaced : ∀ row, BuildsEach (memberPlaced members row) members (rowReading row) (fun entry => Keyed entry.value)
          fun member entry => entry.key = .inl member.1 ∧ DeepContains member.2 entry.value := by
        intro row
        refine buildsEach_of (fun members => memberPlaced members row) (fun member tests =>
          (.group (.and (.keyIs row ()) (containedBelow member.2 (.row row) (tests.push [.text member.1.toList])).1),
            (containedBelow member.2 (.row row) (tests.push [.text member.1.toList])).2)) (fun _ => rfl) (fun _ _ _ => rfl)
          fun member hmember tests => ?_
        have hmem : member.2 ∈ parts (.object members) := List.mem_map_of_mem hmember
        obtain ⟨test, htest, hvalues, htells⟩ :=
          ih member.2 hmem (hcontainer.parts hmem) (.row row) (tests.push [.text member.1.toList])
        have hkey := (tells_keyIs row member.1 fun entry => Keyed entry.value).and
          (htells.row.mono (fun _ h => h.1) fun _ _ => Iff.rfl)
        refine ⟨_, ?_, ?_, hkey.group⟩
        · exact congrArg (fun test => Test.group (.and (.keyIs row ()) test)) htest
        · refine hvalues.trans ?_
          rw [JsonTests.push, List.append_assoc]
          rfl
      refine (builds_eachPlaced hplaced "object" node).mono (fun value h hkind => keyed_opens h (.inl hkind)) fun value _ => ?_
      rw [jsonType_object_iff, object_deepContains_iff]
      constructor
      · rintro ⟨⟨fields, rfl⟩, h⟩
        refine ⟨fields, rfl, fun field hfield => (member_iff_lookup hcontainer.nodup field.1 _).1 ?_⟩
        exact h ⟨.inl field.1, field.2⟩ (mem_rows_object.2 ⟨field, hfield, rfl⟩)
      · rintro ⟨fields, rfl, h⟩
        refine ⟨⟨fields, rfl⟩, fun entry hentry => ?_⟩
        obtain ⟨field, hfield, rfl⟩ := mem_rows_object.1 hentry
        exact (member_iff_lookup hcontainer.nodup field.1 _).2 (h field hfield)
    | array elements =>
      have hplaced : ∀ row, BuildsEach (elementPlaced elements row) elements (rowReading row) (fun entry => Keyed entry.value)
          fun element entry => DeepContains element entry.value := by
        intro row
        refine buildsEach_of (fun elements => elementPlaced elements row) (fun element => containedBelow element (.row row))
          (fun _ => rfl) (fun _ _ _ => rfl) fun element helement tests => ?_
        obtain ⟨test, htest, hvalues, htells⟩ := ih element helement (hcontainer.parts helement) (.row row) tests
        exact ⟨test, htest, hvalues, htells.row⟩
      refine (builds_eachPlaced hplaced "array" node).mono (fun value h hkind => keyed_opens h (.inr hkind)) fun value _ => ?_
      rw [jsonType_array_iff, array_deepContains_iff]
      constructor
      · rintro ⟨⟨items, rfl⟩, h⟩
        refine ⟨items, rfl, fun item hitem => ?_⟩
        obtain ⟨i, hget⟩ := List.mem_iff_getElem?.1 hitem
        exact h ⟨.inr i, item⟩ (mem_rows_array.2 ⟨i, item, hget, rfl⟩)
      · rintro ⟨items, rfl, h⟩
        refine ⟨⟨items, rfl⟩, fun entry hentry => ?_⟩
        obtain ⟨i, item, hget, rfl⟩ := mem_rows_array.1 hentry
        exact h item (List.mem_of_getElem? hget)
    | _ => exact (builds_scalarEquals rfl node Keyed).mono (fun _ h => h) fun value _ => (scalar_deepContains_iff rfl value).symm

theorem isScalar_of_deepContains {container value : Document} (hvalue : isScalar value = true) (h : DeepContains container value) :
    isScalar container = true :=
  (equal_isScalar ((deepContains_scalar_iff hvalue container).1 h)).trans hvalue

/-- The test of being contained that is built at the top level. -/
theorem builds_containedBy (container : Document) (hcontainer : Keyed container) (node : Node) :
    Builds (containedBy container node) node.reading Keyed (fun value => Contains container value) := by
  have hbelow := builds_containedBelow container hcontainer node
  cases container with
  | array elements =>
    have hscalars : BuildsEach (scalarsEqual (elements.filter isScalar) node) (elements.filter isScalar) node.reading Keyed
        fun scalar value => Equal value scalar :=
      buildsEach_of (fun scalars => scalarsEqual scalars node) (scalarEquals node ·) (fun _ => rfl) (fun _ _ _ => rfl)
        fun scalar hscalar => builds_scalarEquals (List.mem_filter.1 hscalar).2 node Keyed
    intro tests
    obtain ⟨array, harray, hvalues, htells⟩ := hbelow tests
    obtain ⟨scalars, herase, hvalues', htells'⟩ := hscalars (containedBelow (.array elements) node tests).2
    refine ⟨_, ?_, ?_, (htells.or (Tells.disj htells')).group.mono (fun _ h => h) fun value _ => ?_⟩
    · rw [Test.erase, Test.erase, erase_anyOf, ← harray, ← herase]
      rfl
    · refine hvalues'.trans ?_
      rw [hvalues, List.append_assoc, ← markers_anyOf]
      rfl
    · rw [Contains]
      refine or_congr_right ?_
      constructor
      · rintro ⟨scalar, hscalar, h⟩
        obtain ⟨hmem, hplain⟩ := List.mem_filter.1 hscalar
        exact ⟨(equal_isScalar h).trans hplain, elements, rfl, scalar, hmem, (scalar_deepContains_iff hplain value).2 h⟩
      · rintro ⟨hvalue, items, heq, item, hitem, h⟩
        cases heq
        have hplain := isScalar_of_deepContains hvalue h
        exact ⟨item, List.mem_filter.2 ⟨hitem, hplain⟩, (scalar_deepContains_iff hplain value).1 h⟩
  | _ =>
    refine hbelow.mono (fun _ h => h) fun value _ => ?_
    simp [Contains]

end ContainedBy

section Equality

variable {fields members : List (String × Document)}

theorem equal_object_iff (hfields : (fields.map Prod.fst).Nodup) (hmembers : (members.map Prod.fst).Nodup) :
    Equal (.object fields) (.object members) ↔ fields.length = members.length ∧
      ∀ member ∈ members, ∃ value, fields.lookup member.1 = some value ∧ Equal value member.2 := by
  constructor
  · intro h
    cases h with
    | object h =>
      have hkeys : ∀ key, key ∈ fields.map Prod.fst ↔ key ∈ members.map Prod.fst := by
        intro key
        rw [← not_iff_not, ← lookup_none_iff, ← lookup_none_iff]
        exact rel_none_iff (h key)
      refine ⟨?_, fun member hmember => ?_⟩
      · simpa using ((List.perm_ext_iff_of_nodup hfields hmembers).2 hkeys).length_eq
      · have hrel := h member.1
        rw [lookup_of_nodup hmembers hmember] at hrel
        cases hfield : fields.lookup member.1 with
        | none => rw [hfield] at hrel; cases hrel
        | some value =>
          rw [hfield] at hrel
          cases hrel with
          | some heq => exact ⟨value, rfl, heq⟩
  · rintro ⟨hlength, h⟩
    have hsubset : members.map Prod.fst ⊆ fields.map Prod.fst := by
      intro key hkey
      obtain ⟨member, hmember, rfl⟩ := List.mem_map.1 hkey
      obtain ⟨value, hvalue, -⟩ := h member hmember
      exact List.mem_map.2 ⟨_, mem_of_lookup hvalue, rfl⟩
    -- as many keys, all of them the object's
    have hperm : (members.map Prod.fst).Perm (fields.map Prod.fst) :=
      (hmembers.subperm hsubset).perm_of_length_le (by simpa using hlength.le)
    refine .object fun key => ?_
    cases hmember : members.lookup key with
    | none =>
      have hfield : fields.lookup key = none := by
        rw [lookup_none_iff] at hmember ⊢
        exact fun hmem => hmember (hperm.mem_iff.2 hmem)
      rw [hfield]
      exact .none
    | some member =>
      obtain ⟨value, hvalue, heq⟩ := h (key, member) (mem_of_lookup hmember)
      rw [hvalue]
      exact .some heq

theorem equal_array_iff (items others : List Document) : Equal (.array items) (.array others) ↔
    items.length = others.length ∧ ∀ place ∈ others.zipIdx, ∃ item, items[place.2]? = some item ∧ Equal item place.1 := by
  have hforall : Equal (.array items) (.array others) ↔ List.Forall₂ Equal items others := by
    constructor
    · intro h
      cases h with
      | array h => exact h
    · exact .array
  rw [hforall, List.forall₂_iff_get]
  refine and_congr_right fun hlength => ?_
  simp only [Prod.forall, List.mem_zipIdx_iff_getElem?]
  constructor
  · intro h other i hget
    obtain ⟨hi, rfl⟩ := List.getElem?_eq_some_iff.1 hget
    exact ⟨_, List.getElem?_eq_getElem (hlength ▸ hi), h i (hlength ▸ hi) hi⟩
  · intro h i hi hi'
    obtain ⟨item, hget, heq⟩ := h _ i (List.getElem?_eq_getElem hi')
    obtain ⟨_, rfl⟩ := List.getElem?_eq_some_iff.1 hget
    exact heq

theorem tells_memberCount (node : Node) (count : ℕ) :
    Tells (.memberCount node count) node.reading (fun value => (jsonEach value).isSome) (fun value => (rows value).length = count) := by
  intro document env value hread hsome
  obtain ⟨entries, hentries⟩ := Option.isSome_iff_exists.1 hsome
  rw [Node.reading] at hread
  rw [Test.eval, hread, Option.bind_some, hentries]
  have hrows : rows value = entries := by rw [rows, hentries, Option.getD_some]
  simp only [hrows]
  exact Decides.of_iff beq_iff_eq

theorem tells_arrayLength (node : Node) (count : ℕ) :
    Tells (.arrayLength node count) node.reading (fun value => ∃ items, value = .array items)
      (fun value => ∃ items, value = .array items ∧ items.length = count) := by
  rintro document env _ hread ⟨items, rfl⟩
  rw [Node.reading] at hread
  rw [Test.eval, hread]
  refine Decides.of_iff (beq_iff_eq.trans ⟨fun h => ⟨items, rfl, h⟩, ?_⟩)
  rintro ⟨_, heq, h⟩
  cases heq
  exact h

theorem builds_elementEquals {elements : List Document} {P : Document → Document → Prop}
    (h : ∀ element ∈ elements, ∀ row, Builds (equals element (.row row)) (Node.row row).reading Keyed (P element)) (start : ℕ)
    (node : Node) : BuildsEach (elementEquals elements start node) (elements.zipIdx start) node.reading Opens
      fun place value => ∃ entry ∈ rows value, entry.key = .inr place.2 ∧ P place.1 entry.value := by
  induction elements generalizing start with
  | nil => exact buildsEach_nil
  | cons element elements ih =>
    rw [List.forall_mem_cons] at h
    rw [List.zipIdx_cons]
    exact @buildsEach_cons _ _ _ _ _ _ _ (element, start) _ (builds_elementAt h.1 start node) (ih h.2 (start + 1))

/-- The test of equality that is built. -/
theorem builds_equals (value : Document) (hvalue : Keyed value) (node : Node) :
    Builds (equals value node) node.reading Keyed (fun other => Equal other value) := by
  induction value using part_induction generalizing node with
  | step value ih =>
    cases value with
    | object members =>
      have hchecks : BuildsEach (fun tests => memberEquals members node tests) members node.reading Opens
          fun member other => ∃ entry ∈ rows other, entry.key = .inl member.1 ∧ Equal entry.value member.2 :=
        buildsEach_of (fun members => memberEquals members node) (fun member => someMember member.1 (equals member.2) node)
          (fun _ => rfl) (fun _ _ _ => rfl) fun member hmember =>
          have hmem : member.2 ∈ parts (.object members) := List.mem_map_of_mem hmember
          builds_someMember (fun row => ih member.2 hmem (hvalue.parts hmem) (.row row)) member.1 node
      have hfirst := (tells_kindIs node "object" Keyed).and
        ((tells_memberCount node members.length).mono (fun other h => (keyed_opens h.1 (.inl h.2)).1) fun _ _ => Iff.rfl)
      refine (builds_joinAnd rfl hfirst hchecks fun other h hP => keyed_opens h (.inl hP.1)).mono (fun _ h => h) fun other hother => ?_
      rw [jsonType_object_iff]
      constructor
      · rintro ⟨⟨⟨fields, rfl⟩, hcount⟩, h⟩
        refine (equal_object_iff hother.nodup hvalue.nodup).2 ⟨by simpa [rows, jsonEach] using hcount, fun member hmember => ?_⟩
        exact (lookup_iff_row hother.nodup member.1 _).1 (h member hmember)
      · intro h
        cases h with
        | @object fields _ hlookup =>
          obtain ⟨hcount, h⟩ := (equal_object_iff hother.nodup hvalue.nodup).1 (.object hlookup)
          refine ⟨⟨⟨fields, rfl⟩, by simpa [rows, jsonEach] using hcount⟩, fun member hmember => ?_⟩
          exact (lookup_iff_row hother.nodup member.1 _).2 (h member hmember)
    | array elements =>
      have hchecks := builds_elementEquals (P := fun element other => Equal other element)
        (fun element helement row => ih element helement (hvalue.parts helement) (.row row)) 0 node
      have hfirst := (tells_kindIs node "array" Keyed).and
        ((tells_arrayLength node elements.length).mono (fun other h => (jsonType_array_iff other).1 h.2) fun _ _ => Iff.rfl)
      refine (builds_joinAnd rfl hfirst hchecks fun other h hP => keyed_opens h (.inr hP.1)).mono (fun _ h => h) fun other _ => ?_
      constructor
      · rintro ⟨⟨-, items, rfl, hlength⟩, h⟩
        exact (equal_array_iff items elements).2 ⟨hlength, fun place hmem => (place_iff_row place.2 _).1 (h place hmem)⟩
      · intro h
        cases h with
        | @array items _ hitems =>
          obtain ⟨hlength, h⟩ := (equal_array_iff items elements).1 (.array hitems)
          exact ⟨⟨rfl, items, rfl, hlength⟩, fun place hmem => (place_iff_row place.2 _).2 (h place hmem)⟩
    | _ => exact builds_scalarEquals rfl node Keyed

end Equality

/-- The values stand in the order of the markers in the SQL. -/
def InOrder (predicate : Test Unit × List Value) : Prop :=
  ∃ test : Test Value, predicate.1.fill predicate.2 = some (test, []) ∧
    ∀ column, (test.pieces column).map (Sum.map id fun _ => ()) = predicate.1.pieces column ∧
      (test.pieces column).filterMap Sum.getRight? = predicate.2

/-- What is built tells of the document, with its values in order. -/
theorem answer_of_builds {build : Node → JsonTests → Built} {P : Document → Prop}
    (h : Builds (build .document) Node.document.reading Keyed P) (document : Jsonb) :
    Decides (answer document.document (built build)) (P document.document) ∧ InOrder (built build) := by
  obtain ⟨test, htest, hvalues, htells⟩ := h ⟨[], 0⟩
  have hfill : (built build).1.fill (built build).2 = some (test, []) := by
    have hown := fill_erase test []
    rw [List.append_nil] at hown
    have htest' : (built build).1 = test.erase := htest
    have hvalues' : (built build).2 = test.markers := hvalues
    rw [htest', hvalues', hown]
  refine ⟨?_, test, hfill, fun column => ⟨?_, ?_⟩⟩
  · rw [answer, hfill]
    exact htells document.document _ document.document rfl document.keyed
  · rw [pieces_erase]
    exact congrArg (Test.pieces column) htest.symm
  · rw [markers_pieces]
    exact hvalues.symm

/-- The tests of containment, of being contained and of equality are `@>`, `<@` and `=` of `jsonb`. -/
theorem sqlite_means_postgres (value document : Jsonb) :
    (Decides (answer document.document (sqliteJsonContains value.document)) (Contains document.document value.document) ∧
      Decides (answer document.document (sqliteJsonContainedBy value.document)) (Contains value.document document.document) ∧
      Decides (answer document.document (sqliteJsonEquals value.document)) (Equal document.document value.document)) ∧
    InOrder (sqliteJsonContains value.document) ∧ InOrder (sqliteJsonContainedBy value.document) ∧
      InOrder (sqliteJsonEquals value.document) := by
  have hcontains := answer_of_builds (builds_contains value.document .document) document
  have hcontained := answer_of_builds (builds_containedBy value.document value.keyed .document) document
  have hequals := answer_of_builds (builds_equals value.document value.keyed .document) document
  exact ⟨⟨hcontains.1, hcontained.1, hequals.1⟩, hcontains.2, hcontained.2, hequals.2⟩

end TideOrm.SqliteJson
