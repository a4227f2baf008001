import TideOrm.Lib.Traverse
import TideOrm.Proofs.DecimalText
import TideOrm.Sanity.QuotedText
import TideOrm.Spec.ListCondition

/-! A list means the same whatever it is rendered as: the renderings have one truth value. -/

namespace TideOrm.ListCondition

open Lib Sqlite

variable {C S : Type} (lib : Libraries S) (engine : Engine C S)

namespace Value

/-- What a JSON value other than `null` may be bound as. -/
def isBound : Value S → Bool
  | .bool (some _) | .bigInt (some _) | .double (some _) | .string (some _) => true
  | .bytes (some _) | .scalar _ (some _) | .array _ (some _) => true
  | _ => false

theorem isNull_of_bound {value : Value S} (h : value.isBound = true) : value.isNull = false := by
  unfold isBound at h
  split at h
  all_goals first
    | rfl
    | cases h

end Value

section Binding

theorem map_bound {T : Type} {build : T → Value S} (hbuild : ∀ t, (build t).isBound = true) {x : Option T} {value : Value S}
    (h : x.map build = some value) : value.isBound = true := by
  obtain ⟨t, -, rfl⟩ := Option.map_eq_some_iff.1 h
  exact hbuild t

theorem arrayValue_bound {items : List Json} {element : ColumnType} {value : Value S}
    (h : arrayValue lib items element = some value) : value.isBound = true := by
  cases element with
  | integer | bigInteger | boolean | double | text | string | json | jsonBinary =>
    exact map_bound (fun _ => rfl) h
  | _ => cases h

theorem jsonToDbValue_bound {value : Json} (h : value.isNull = false) : (jsonToDbValue lib value).isBound = true := by
  cases value with
  | null => cases h
  | number n =>
    cases n with
    | posInt n =>
      rw [jsonToDbValue]
      split_ifs with hsigned
      · rfl
      · rw [bindableValue, if_neg hsigned]
        rfl
    | negInt _ | float _ => rfl
  | bool _ | string _ | array _ | object _ => rfl

theorem typedValue_bound {json : Json} {column : ColumnType} {value : Value S} (h : typedValue lib json column = some value) :
    value.isBound = true := by
  unfold typedValue at h
  split at h
  · exact arrayValue_bound lib h
  -- the text of an integer column is read after a test
  case h_17 =>
    split_ifs at h
    exact map_bound (fun _ => rfl) h
  all_goals first
    | exact map_bound (fun _ => rfl) h
    | cases h <;> rfl

/-- What is not `null` is not bound as `NULL`. -/
theorem jsonToColumnValue_bound {value : Json} (h : value.isNull = false) (column : Option ColumnType) :
    (jsonToColumnValue lib value column).isBound = true := by
  cases column with
  | none => exact jsonToDbValue_bound lib h
  | some column =>
    rw [jsonToColumnValue, if_neg (Bool.eq_false_iff.1 h)]
    cases htyped : typedValue lib value column with
    | none => exact jsonToDbValue_bound lib h
    | some typed => exact typedValue_bound lib htyped

end Binding

section Renderings

/-- The truth value of a list by its members. -/
def listTruth (column : Option C) (values : List (Value S)) : ListOperator → Kleene
  | .isIn => Kleene.any (values.map (engine.compare column))
  | .notIn => Kleene.not (Kleene.any (values.map (engine.compare column)))

variable {lib engine} {column : Option C} {values : List (Value S)}

theorem eval_listOf (operator : ListOperator) {operands : List (Operand S)}
    (h : operands.mapM (engine.operandTruth column) = some (values.map (engine.compare column))) :
    engine.eval column (listOf operator operands) = some (listTruth engine column values operator) := by
  cases operator <;> rw [listOf, Engine.eval, h] <;> rfl

theorem operands_bound (values : List (Value S)) :
    (values.map Operand.bound).mapM (engine.operandTruth column) = some (values.map (engine.compare column)) := by
  induction values with
  | nil => rfl
  | cons value values ih => simp [Engine.operandTruth, ih]

theorem integerLiteral_bound {value : Value S} (hvalue : value.isBound = true) {text : List Char}
    (h : integerLiteral value = some text) : engine.operandTruth column (.literal text) = some (engine.compare column value) := by
  cases value with
  | bigInt n =>
    cases n with
    | none => cases hvalue
    | some n =>
      rw [← Option.some_inj.1 h, Engine.operandTruth, ExactBounds.parseInteger_signedDecimal]
      rfl
  | bool _ | double _ | string _ | bytes _ | json _ | scalar _ _ | array _ _ => cases h
  | _ => cases hvalue

/-- The integers read back from their texts. -/
theorem operands_inlined (hvalues : ∀ value ∈ values, value.isBound = true) {operands : List (Operand S)}
    (h : inlined values = some operands) :
    operands.mapM (engine.operandTruth column) = some (values.map (engine.compare column)) := by
  rw [inlined] at h
  split_ifs at h with hlong
  obtain ⟨literals, hliterals, rfl⟩ := Option.map_eq_some_iff.1 h
  rw [mapM_some_iff] at hliterals ⊢
  clear h hlong
  induction values generalizing literals with
  | nil =>
    obtain rfl := List.map_eq_nil_iff.1 hliterals.symm
    rfl
  | cons value values ih =>
    cases literals with
    | nil => cases hliterals
    | cons text literals =>
      rw [List.map_cons, List.map_cons, List.cons.injEq] at hliterals
      rw [List.forall_mem_cons] at hvalues
      rw [List.map_cons, List.map_cons, List.map_cons, List.map_cons, integerLiteral_bound hvalues.1 hliterals.1,
        ih hvalues.2 literals hliterals.2]

theorem stringText_some {value : Value S} {text : String} (h : stringText value = some text) : value = .string (some text) := by
  cases value with
  | string content =>
    cases content with
    | none => cases h
    | some content => rw [Option.some_inj.1 h]
  | _ => cases h

/-- The texts that a long list is read back as are its members. -/
theorem eval_oneJson (hjson : ∀ texts, engine.jsonEach (lib.listText texts) = texts) (operator : ListOperator) {db : DatabaseType}
    {parameter : Value S} (h : oneJson lib db values = some parameter) :
    engine.eval column (.inJsonEach (operator == .notIn) parameter) = some (listTruth engine column values operator) := by
  rw [oneJson] at h
  split_ifs at h with hlong
  obtain ⟨texts, htexts, rfl⟩ := Option.map_eq_some_iff.1 h
  rw [mapM_some_iff] at htexts
  have hvalues : values = texts.map fun text => .string (some text) := by
    clear h hlong
    induction values generalizing texts with
    | nil =>
      obtain rfl := List.map_eq_nil_iff.1 htexts.symm
      rfl
    | cons value values ih =>
      cases texts with
      | nil => cases htexts
      | cons text texts =>
        rw [List.map_cons, List.map_cons, List.cons.injEq] at htexts
        rw [List.map_cons, stringText_some htexts.1, ← ih texts htexts.2]
  rw [Engine.eval, hjson, hvalues, ← Function.comp_def (engine.compare column), ← List.map_map]
  cases operator <;> rfl

/-- One array has the truth value of its members, unless they are arrays. -/
theorem eval_oneArray (operator : ListOperator) {db : DatabaseType} {array : Value S} (h : oneArray lib db values = some array) :
    engine.eval column (arrayOperand operator array) =
      if values.any Value.isArray then none else some (listTruth engine column values operator) := by
  rw [oneArray] at h
  split_ifs at h
  obtain ⟨element, -, rfl⟩ := Option.map_eq_some_iff.1 h
  cases operator with
  | isIn =>
    rw [arrayOperand, Engine.eval, Engine.elements]
    split_ifs <;> rfl
  | notIn =>
    rw [arrayOperand, Engine.eval, Engine.elements]
    split_ifs with harrays
    · rfl
    · rw [Option.map_some, ← Function.comp_def Kleene.not, ← List.map_map, Kleene.all_map_not]
      rfl

/-- Whatever a list is rendered as, it has the truth value of its members. -/
theorem eval_boundList (hjson : ∀ texts, engine.jsonEach (lib.listText texts) = texts) (db : DatabaseType)
    (operator : ListOperator) (hvalues : ∀ value ∈ values, value.isBound = true) :
    engine.eval column (boundList lib db operator values) =
      if (oneArray lib db values).isSome ∧ values.any Value.isArray then none
      else some (listTruth engine column values operator) := by
  rw [boundList]
  cases harray : oneArray lib db values with
  | some array =>
    dsimp only
    rw [eval_oneArray operator harray]
    simp
  | none =>
    rw [if_neg (fun h => Bool.false_ne_true h.1)]
    cases hparameter : oneJson lib db values with
    | some parameter => exact eval_oneJson hjson operator hparameter
    | none =>
      refine eval_listOf operator ?_
      cases hinlined : inlined values with
      | none => exact operands_bound values
      | some operands => exact operands_inlined hvalues hinlined

end Renderings

section Truth

variable {engine} {column : Option C} {values : List (Value S)}

/-- The column is a value, and equal to one of the list. -/
def Found (engine : Engine C S) (column : Option C) (values : List (Value S)) : Prop :=
  ∃ c, column = some c ∧ ∃ value ∈ values, engine.equals c value = true

theorem compare_some {c : C} {value : Value S} (h : value.isNull = false) :
    engine.compare (some c) value = some (engine.equals c value) := by
  rw [Engine.compare, if_neg (Bool.eq_false_iff.1 h), Option.map_some]

theorem compare_none (value : Value S) : engine.compare none value = none := by
  rw [Engine.compare]
  split_ifs <;> rfl

theorem listTruth_isIn (hvalues : ∀ value ∈ values, value.isNull = false) :
    listTruth engine column values .isIn = some true ↔ Found engine column values := by
  rw [listTruth, Kleene.any_true_iff, List.mem_map, Found]
  cases column with
  | none =>
    refine iff_of_false ?_ fun ⟨c, h, _⟩ => by cases h
    rintro ⟨value, -, h⟩
    rw [compare_none] at h
    cases h
  | some c =>
    simp only [Option.some_inj, exists_eq_left']
    refine exists_congr fun value => and_congr_right fun hvalue => ?_
    rw [compare_some (hvalues value hvalue), Option.some_inj]

/-- A list that excludes a row excludes `NULL` too, once it has a member. -/
theorem listTruth_notIn (hvalues : ∀ value ∈ values, value.isNull = false) :
    listTruth engine column values .notIn = some true ↔ ¬Found engine column values ∧ (values ≠ [] → column ≠ none) := by
  rw [listTruth, Kleene.not_true_iff, Kleene.any_false_iff, List.forall_mem_map, Found]
  cases column with
  | none =>
    cases values with
    | nil => simp
    | cons value values =>
      refine iff_of_false (fun h => ?_) fun h => h.2 (List.cons_ne_nil _ _) rfl
      have hunknown := h value (List.mem_cons_self ..)
      rw [compare_none] at hunknown
      cases hunknown
  | some c =>
    have hcompare (value : Value S) (hvalue : value ∈ values) : engine.compare (some c) value = some false ↔
        ¬engine.equals c value = true := by
      rw [compare_some (hvalues value hvalue), Option.some_inj, Bool.not_eq_true]
    simp only [Option.some_inj, exists_eq_left', not_exists, not_and, ne_eq, reduceCtorEq, not_false_eq_true, implies_true,
      and_true]
    exact forall₂_congr hcompare

end Truth

section Lists

variable (columnType : Option ColumnType) (values : List Json) (documents : Option Bool) (column : Option C)

/-- The members that are not null, as they are bound. -/
def members : List (Value S) := (values.filter fun value => !value.isNull).map fun value => jsonToColumnValue lib value columnType

def NullListed : Prop := documents = some true ∨ ∃ value ∈ values, value.isNull = true

/-- The rows a list is to select. -/
def Selected : ListOperator → Prop
  | .isIn => Found engine column (members lib columnType values) ∨ column = none ∧ NullListed values documents
  | .notIn => ¬Found engine column (members lib columnType values) ∧ (values ≠ [] ∨ documents = some true → column ≠ none)

/-- A long list of arrays is bound as one array. -/
def ArraysInOne (db : DatabaseType) : Prop :=
  db = .postgres ∧ inlineIntegerListAfter < (members lib columnType values).length ∧
    (sharedArrayType lib (members lib columnType values)).isSome ∧ ∃ value ∈ members lib columnType values, value.isArray = true

theorem members_bound : ∀ value ∈ members lib columnType values, value.isBound = true := by
  intro value hvalue
  obtain ⟨json, hjson, rfl⟩ := List.mem_map.1 hvalue
  have hnull : json.isNull = false := by simpa using (List.mem_filter.1 hjson).2
  exact jsonToColumnValue_bound lib hnull columnType

variable {columnType values documents column}

theorem partitionNulls_eq (hcolumn : isJsonType columnType = false) : partitionNulls columnType values documents =
    (documents.getD false || values.any Json.isNull, values.filter fun value => !value.isNull) := by
  unfold partitionNulls
  split
  case h_1 hjson => exact absurd (hcolumn.symm.trans hjson) Bool.false_ne_true
  case h_2 => rfl

theorem buildNonNull_eq (hcolumn : isJsonType columnType = false) (db : DatabaseType) (operator : ListOperator) (values : List Json) :
    buildNonNullListExpression lib db columnType operator values =
      boundList lib db operator (values.map fun value => jsonToColumnValue lib value columnType) := by
  unfold buildNonNullListExpression
  split
  case h_1 hjson => exact absurd (hcolumn.symm.trans hjson) Bool.false_ne_true
  case h_2 => rfl

theorem oneArray_isSome_iff (db : DatabaseType) (values : List (Value S)) : (oneArray lib db values).isSome ↔
    db = .postgres ∧ inlineIntegerListAfter < values.length ∧ (sharedArrayType lib values).isSome := by
  rw [oneArray]
  split_ifs with h
  · rw [Option.isSome_map]
    exact ⟨fun hshared => ⟨h.1, h.2, hshared⟩, fun hall => hall.2.2⟩
  · exact iff_of_false Bool.false_ne_true fun hall => h ⟨hall.1, hall.2.1⟩

theorem nullListed_iff : NullListed values documents ↔ (documents.getD false || values.any Json.isNull) = true := by
  rw [NullListed, Bool.or_eq_true, List.any_eq_true]
  refine or_congr_left ?_
  cases documents with
  | none => exact iff_of_false (fun h => by cases h) Bool.false_ne_true
  | some sqlNull => rw [Option.some_inj, Option.getD_some]

theorem arraysInOne_iff (db : DatabaseType) : ArraysInOne lib columnType values db ↔
    (oneArray lib db (members lib columnType values)).isSome ∧ (members lib columnType values).any Value.isArray := by
  rw [ArraysInOne, oneArray_isSome_iff, List.any_eq_true, and_assoc, and_assoc]

/-- A list next to what a listed null asks of the row. -/
theorem buildList_eq (hcolumn : isJsonType columnType = false) (db : DatabaseType) (operator : ListOperator) :
    buildListExpression lib db columnType operator values documents =
      let listed := boundList lib db operator (members lib columnType values)
      if documents.getD false || values.any Json.isNull then
        match operator, (members lib columnType values).isEmpty with
        | .isIn, true => .isNull
        | .isIn, false => listed.or .isNull
        | .notIn, true => .isNotNull
        | .notIn, false => listed.and .isNotNull
      else listed := by
  rw [buildListExpression, partitionNulls_eq hcolumn]
  dsimp only
  rw [buildNonNull_eq lib hcolumn, ← members, members, List.isEmpty_map]
  cases hnull : (documents.getD false || values.any Json.isNull) <;> rfl

variable {lib engine}

theorem eval_refused (hcolumn : isJsonType columnType = false) (hjson : ∀ texts, engine.jsonEach (lib.listText texts) = texts)
    {db : DatabaseType} (operator : ListOperator) (h : ArraysInOne lib columnType values db) :
    engine.eval column (buildListExpression lib db columnType operator values documents) = none := by
  have hlisted : engine.eval column (boundList lib db operator (members lib columnType values)) = none := by
    rw [eval_boundList hjson db operator (members_bound lib columnType values), if_pos ((arraysInOne_iff lib db).1 h)]
  have hmembers : (members lib columnType values).isEmpty = false := by
    rw [List.isEmpty_eq_false_iff]
    exact List.ne_nil_of_length_pos (Nat.zero_lt_of_lt h.2.1)
  rw [buildList_eq lib hcolumn, hmembers]
  dsimp only
  split_ifs
  · cases operator <;> simp [Engine.eval, hlisted]
  · exact hlisted

theorem eval_selects (hcolumn : isJsonType columnType = false) (hjson : ∀ texts, engine.jsonEach (lib.listText texts) = texts)
    {db : DatabaseType} (operator : ListOperator) (h : ¬ArraysInOne lib columnType values db) :
    ∃ truth, engine.eval column (buildListExpression lib db columnType operator values documents) = some truth ∧
      (truth = some true ↔ Selected lib engine columnType values documents column operator) := by
  have hbound := members_bound lib columnType values
  have hvalues (value : Value S) (hvalue : value ∈ members lib columnType values) : value.isNull = false :=
    Value.isNull_of_bound (hbound value hvalue)
  have hlisted : engine.eval column (boundList lib db operator (members lib columnType values)) =
      some (listTruth engine column (members lib columnType values) operator) := by
    rw [eval_boundList hjson db operator hbound, if_neg (mt (arraysInOne_iff lib db).2 h)]
  rw [buildList_eq lib hcolumn]
  dsimp only
  split_ifs with hnull
  · have hlistedNull : NullListed values documents := nullListed_iff.2 hnull
    have hmember : values ≠ [] ∨ documents = some true := by
      rcases hlistedNull with hdocuments | ⟨value, hvalue, -⟩
      · exact .inr hdocuments
      · exact .inl (List.ne_nil_of_mem hvalue)
    cases hmembers : (members lib columnType values).isEmpty with
    | true =>
      have hfound : ¬Found engine column (members lib columnType values) := by
        rw [List.isEmpty_iff.1 hmembers]
        rintro ⟨_, _, _, hmem, _⟩
        cases hmem
      cases operator with
      | isIn =>
        refine ⟨_, rfl, ?_⟩
        rw [Option.some_inj, Option.isNone_iff_eq_none, Selected, or_iff_right hfound, and_iff_left hlistedNull]
      | notIn =>
        refine ⟨_, rfl, ?_⟩
        rw [Option.some_inj, Option.isSome_iff_ne_none, Selected, and_iff_right hfound, imp_iff_right hmember]
    | false =>
      have hmembers' : members lib columnType values ≠ [] := by
        rintro heq
        rw [heq] at hmembers
        cases hmembers
      cases operator with
      | isIn =>
        refine ⟨_, by rw [Engine.eval, hlisted]; rfl, ?_⟩
        rw [Kleene.or_true_iff, listTruth_isIn hvalues, Option.some_inj, Option.isNone_iff_eq_none, Selected,
          and_iff_left hlistedNull]
      | notIn =>
        refine ⟨_, by rw [Engine.eval, hlisted]; rfl, ?_⟩
        rw [Kleene.and_true_iff, listTruth_notIn hvalues, Option.some_inj, Option.isSome_iff_ne_none, Selected,
          imp_iff_right hmembers', imp_iff_right hmember, and_assoc, and_self]
  · have hnone : ¬NullListed values documents := mt nullListed_iff.1 hnull
    refine ⟨_, hlisted, ?_⟩
    cases operator with
    | isIn =>
      rw [listTruth_isIn hvalues, Selected, or_iff_left fun hnull => hnone hnull.2]
    | notIn =>
      have hsame : members lib columnType values ≠ [] ↔ values ≠ [] ∨ documents = some true := by
        rw [NullListed, not_or, not_exists] at hnone
        rw [or_iff_left hnone.1, members, ne_eq, List.map_eq_nil_iff, List.filter_eq_self.2]
        intro value hvalue
        simpa using fun hjson => hnone.2 value ⟨hvalue, hjson⟩
      rw [listTruth_notIn hvalues, Selected, hsame]

variable (columnType values documents column lib engine)

/-- A list of any length selects what it lists, unless it is an array of arrays. -/
theorem list_selects_iff (hcolumn : isJsonType columnType = false) (hjson : ∀ texts, engine.jsonEach (lib.listText texts) = texts)
    (db : DatabaseType) (operator : ListOperator) :
    (∃ truth, engine.eval column (buildListExpression lib db columnType operator values documents) = some truth ∧
      (truth = some true ↔ Selected lib engine columnType values documents column operator)) ↔
    ¬ArraysInOne lib columnType values db := by
  constructor
  · rintro ⟨truth, htruth, -⟩ harrays
    rw [eval_refused hcolumn hjson operator harrays] at htruth
    cases htruth
  · exact eval_selects hcolumn hjson operator

end Lists

section Rows

/-- A text, or an array of integers. -/
inductive Cell where
  | text (s : String)
  | ints (items : List ℤ)

def intValue : Value Unit → Option ℤ
  | .int n => n
  | _ => none

def cells : Engine Cell Unit where
  equals
    | .text s, .string (some text) => s == text
    | .ints items, .array _ (some values) => values.mapM intValue == some items
    | _, _ => false
  documentEquals _ _ := false
  jsonEach := QuotedText.jsonEach

def libraries : Libraries Unit where
  parse _ _ := none
  decimalOfUnsigned _ := ()
  parseDouble _ := none
  doubleOfInteger _ := 0
  numberText _ := ""
  documentText _ := ""
  listText := QuotedText.listText
  arrayType
    | .array element _ => element
    | .int _ => .int
    | _ => .string

/-- More texts than are listed as parameters. -/
theorem list_selects_texts : ∃ truth,
    cells.eval (some (.text "b")) (buildListExpression libraries .sqlite (some .text) .notIn (List.replicate 1001 (.string "a")) none) =
        some truth ∧
      (truth = some true ↔
        Selected libraries cells (some .text) (List.replicate 1001 (.string "a")) none (some (.text "b")) .notIn) :=
  (list_selects_iff libraries cells _ _ _ _ rfl QuotedText.jsonEach_listText .sqlite .notIn).2 fun h => by cases h.1

/-- An array is one of a short list, and a long list of it is not read. -/
theorem long_array_list_fails :
    cells.eval (some (.ints [1, 2])) (buildListExpression libraries .postgres (some (.array .integer)) .isIn
      (List.replicate 1001 (.array [.number (.posInt 1), .number (.posInt 2)])) none) = none ∧
    Selected libraries cells (some (.array .integer)) (List.replicate 1001 (.array [.number (.posInt 1), .number (.posInt 2)])) none
      (some (.ints [1, 2])) .isIn ∧
    cells.eval (some (.ints [1, 2])) (buildListExpression libraries .postgres (some (.array .integer)) .isIn
      [.array [.number (.posInt 1), .number (.posInt 2)]] none) = some (some true) := by
  have hmembers : members libraries (some (.array .integer)) (List.replicate 1001 (.array [.number (.posInt 1), .number (.posInt 2)])) =
      List.replicate 1001 (.array .int (some [.int (some 1), .int (some 2)])) := by
    rw [members, List.filter_eq_self.2 fun value hvalue => by rw [(List.mem_replicate.1 hvalue).2]; rfl, List.map_replicate]
    rfl
  have hmem : Value.array .int (some [.int (some 1), .int (some 2)]) ∈
      List.replicate 1001 (Value.array .int (some [.int (some 1), .int (some 2)]) : Value Unit) :=
    List.mem_replicate.2 ⟨by decide, rfl⟩
  refine ⟨eval_refused rfl QuotedText.jsonEach_listText .isIn ⟨rfl, ?_, ?_, _, hmembers ▸ hmem, rfl⟩, .inl ⟨_, rfl, _, hmembers ▸ hmem, rfl⟩, rfl⟩
  · rw [hmembers, List.length_replicate]
    decide
  · rw [hmembers, sharedArrayType, List.head?_replicate, if_neg (by decide), Option.bind_some, List.all_replicate]
    rfl

end Rows

end TideOrm.ListCondition
