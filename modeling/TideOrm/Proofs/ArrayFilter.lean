import TideOrm.Lib.Words
import TideOrm.Proofs.ListCondition
import TideOrm.Proofs.MysqlJson
import TideOrm.Proofs.SqliteJson
import TideOrm.Spec.ArrayFilter

/-! Array filters select the same rows on every backend, with each value at its own placeholder. -/

namespace TideOrm.ArrayFilter

open Lib ListCondition

section Pieces

variable {A O B P M N : Type}

namespace ArrayTest

/-- What the checks, or the test of what offends, bind. -/
def binds (check : A → List M) (offends : O → List M) : ArrayTest A O → List M
  | matchNothing => []
  | isNotNull => []
  | conjunction checks => checks.flatMap check
  | disjunction checks => checks.flatMap check
  | noneOffends offending => offending.elim [] offends

theorem map_joined (f : A → B) (g : O → P) (checks : List A) {combine : List A → ArrayTest A O} {combine' : List B → ArrayTest B P}
    (hcombine : (combine checks).map f g = combine' (checks.map f)) {empty : ArrayTest A O} {empty' : ArrayTest B P}
    (hempty : empty.map f g = empty') : (joined checks combine empty).map f g = joined (checks.map f) combine' empty' := by
  unfold joined
  rw [List.isEmpty_map]
  split_ifs
  · exact hempty
  · exact hcombine

end ArrayTest

theorem map_intercalate (f : A → B) (sep : List A) (texts : List (List A)) :
    (sep.intercalate texts).map f = (sep.map f).intercalate (texts.map (List.map f)) :=
  Lib.hom_intercalate List.map_nil (fun _ _ => List.map_append) sep texts

theorem binds_intercalate (sep : String) (texts : List (List (String ⊕ M))) :
    ([.inl sep].intercalate texts).filterMap Sum.getRight? = texts.flatMap fun text => text.filterMap Sum.getRight? := by
  rw [Lib.hom_intercalate List.filterMap_nil fun _ _ => List.filterMap_append, List.filterMap_cons_none rfl, List.filterMap_nil,
    Lib.intercalate_nil_left, List.flatMap_def]

variable {column source : String} {check : A → List (String ⊕ M)} {offends : O → List (String ⊕ M)}

theorem map_pieces {check' : B → List (String ⊕ N)} {offends' : P → List (String ⊕ N)} (h : M → N) (f : A → B) (g : O → P)
    (hcheck : ∀ a, (check a).map (Sum.map id h) = check' (f a)) (hoffends : ∀ o, (offends o).map (Sum.map id h) = offends' (g o))
    (test : ArrayTest A O) : (test.pieces column source check offends).map (Sum.map id h) = (test.map f g).pieces column source check' offends' := by
  have hchecks (checks : List A) : (checks.map check).map (List.map (Sum.map id h)) = (checks.map f).map check' := by
    rw [List.map_map, List.map_map]
    exact List.map_congr_left fun a _ => hcheck a
  cases test with
  | matchNothing | isNotNull => rfl
  | conjunction checks | disjunction checks =>
    rw [ArrayTest.pieces, List.map_cons, List.map_append, map_intercalate, hchecks]
    rfl
  | noneOffends offending =>
    cases offending with
    | none => rfl
    | some offending =>
      rw [ArrayTest.pieces, List.map_cons, List.map_append, hoffends]
      rfl

theorem binds_pieces {checkBinds : A → List M} {offendsBinds : O → List M} (hcheck : ∀ a, (check a).filterMap Sum.getRight? = checkBinds a)
    (hoffends : ∀ o, (offends o).filterMap Sum.getRight? = offendsBinds o) (test : ArrayTest A O) :
    (test.pieces column source check offends).filterMap Sum.getRight? = test.binds checkBinds offendsBinds := by
  have hchecks (sep : String) (checks : List A) :
      ([.inl sep].intercalate (checks.map check)).filterMap Sum.getRight? = checks.flatMap checkBinds := by
    rw [binds_intercalate, List.flatMap_map]
    exact List.flatMap_congr fun a _ => hcheck a
  cases test with
  | matchNothing | isNotNull => rfl
  | conjunction checks | disjunction checks =>
    rw [ArrayTest.pieces, List.filterMap_cons_none rfl, List.filterMap_append, hchecks]
    exact List.append_nil _
  | noneOffends offending =>
    cases offending with
    | none => rfl
    | some offending =>
      rw [ArrayTest.pieces, List.filterMap_cons_none rfl, List.filterMap_append, hoffends]
      exact List.append_nil _

/-- The values that a test binds fill its markers in one way, when they do so for each check. -/
theorem ArrayTest.filled {erase : A → B} {eraseOffends : O → P} {checkBinds : A → List M} {offendsBinds : O → List M}
    (hchecks : ∀ checks others : List A, checks.map erase = others.map erase → checks.flatMap checkBinds = others.flatMap checkBinds →
      checks = others)
    (hoffends : ∀ o o' : O, eraseOffends o = eraseOffends o' → offendsBinds o = offendsBinds o' → o = o') {test other : ArrayTest A O}
    (hbuilt : test.map erase eraseOffends = other.map erase eraseOffends)
    (hvalues : test.binds checkBinds offendsBinds = other.binds checkBinds offendsBinds) : test = other := by
  cases test with
  | matchNothing | isNotNull => cases other <;> first | rfl | cases hbuilt
  | conjunction checks =>
    cases other with
    | conjunction others => rw [hchecks checks others (ArrayTest.conjunction.inj hbuilt) hvalues]
    | _ => cases hbuilt
  | disjunction checks =>
    cases other with
    | disjunction others => rw [hchecks checks others (ArrayTest.disjunction.inj hbuilt) hvalues]
    | _ => cases hbuilt
  | noneOffends offending =>
    cases other with
    | noneOffends offending' =>
      have hshape : offending.map eraseOffends = offending'.map eraseOffends := ArrayTest.noneOffends.inj hbuilt
      cases offending with
      | none =>
        cases offending' with
        | none => rfl
        | some _ => cases hshape
      | some o =>
        cases offending' with
        | none => cases hshape
        | some o' => rw [hoffends o o' (Option.some.inj hshape) hvalues]
    | _ => cases hbuilt

end Pieces

section Postgres

variable {M N : Type}

def PostgresOffending.operands : PostgresOffending M → List M
  | isNotNull => []
  | notIn _ operands => operands

theorem postgresTest_map (h : M → N) (operator : ArrayOperator) (operands : List M) (nullAllowed : Bool) :
    (postgresTest operator operands nullAllowed).map h (PostgresOffending.map h) = postgresTest operator (operands.map h) nullAllowed := by
  cases operator with
  | contains | overlaps => exact ArrayTest.map_joined _ _ operands rfl rfl
  | containedBy =>
    unfold postgresTest postgresArrayContainedBy ArrayTest.arrayContainedBy
    dsimp only
    rw [List.isEmpty_map]
    cases operands.isEmpty <;> cases nullAllowed <;> rfl

theorem binds_postgresTest (operator : ArrayOperator) (operands : List M) (nullAllowed : Bool) :
    (postgresTest operator operands nullAllowed).binds (fun operand => [operand]) PostgresOffending.operands = operands := by
  cases operator with
  | contains | overlaps =>
    cases operands with
    | nil => rfl
    | cons operand operands => exact List.flatMap_pure_eq_map .. |>.trans (List.map_id _)
  | containedBy =>
    cases operands with
    | nil => cases nullAllowed <;> rfl
    | cons operand operands => cases nullAllowed <;> rfl

theorem binds_postgresPieces (column : String) (test : ArrayTest M (PostgresOffending M)) :
    (postgresPieces column test).filterMap Sum.getRight? = test.binds (fun operand => [operand]) PostgresOffending.operands := by
  refine binds_pieces (fun _ => rfl) (fun offending => ?_) test
  cases offending with
  | isNotNull => rfl
  | notIn nullOffends operands =>
    have hoperands : (operands.flatMap fun operand => ([Sum.inr operand] : List (String ⊕ M)).filterMap Sum.getRight?) = operands :=
      List.flatMap_pure_eq_map .. |>.trans (List.map_id _)
    rw [PostgresOffending.pieces, List.filterMap_append, List.filterMap_cons_none rfl, List.filterMap_append, binds_intercalate,
      List.flatMap_map, hoperands]
    cases nullOffends <;> exact List.append_nil _

/-- The values, in their order, stand at the markers of the test. -/
theorem postgres_inOrder (column : String) (operator : ArrayOperator) (values : List M) (nullAllowed : Bool) :
    InOrder (postgresPieces column (postgresTest operator values nullAllowed))
      (postgresPieces column (postgresTest operator (List.replicate values.length ()) nullAllowed)) values := by
  constructor
  · have hunits : values.map (fun _ => ()) = List.replicate values.length () := List.map_const'
    rw [← hunits, ← postgresTest_map]
    unfold postgresPieces
    refine map_pieces _ _ _ ?_ (fun offending => ?_) _
    · exact fun _ => rfl
    cases offending with
    | isNotNull => rfl
    | notIn nullOffends operands =>
      have hoperands : ([.inl ", "].intercalate (operands.map fun operand => [.inr operand])).map (Sum.map id fun _ => ()) =
          [.inl ", "].intercalate ((operands.map fun _ => ()).map fun operand => [.inr operand]) := by
        rw [map_intercalate, List.map_map, List.map_map]
        rfl
      rw [PostgresOffending.pieces, List.map_append, List.map_cons, List.map_append, hoperands]
      cases nullOffends <;> rfl
  · exact (binds_postgresPieces column _).trans (binds_postgresTest operator values nullAllowed)

theorem postgres_filled {test other : ArrayTest M (PostgresOffending M)}
    (hbuilt : test.map (fun _ => ()) (PostgresOffending.map fun _ => ()) = other.map (fun _ => ()) (PostgresOffending.map fun _ => ()))
    (hvalues : test.binds (fun operand => [operand]) PostgresOffending.operands =
      other.binds (fun operand => [operand]) PostgresOffending.operands) : test = other := by
  have hsingle (checks : List M) : (checks.flatMap fun operand => [operand]) = checks := List.flatMap_pure_eq_map .. |>.trans (List.map_id _)
  refine ArrayTest.filled (fun checks others _ h => ?_) (fun offending other hshape h => ?_) hbuilt hvalues
  · rw [hsingle, hsingle] at h
    exact h
  · rcases offending with _ | ⟨nullOffends, operands⟩ <;> rcases other with _ | ⟨nullOffends', operands'⟩
    case isNotNull.isNotNull => rfl
    case notIn.notIn =>
      have hnull : nullOffends = nullOffends' := (PostgresOffending.notIn.inj hshape).1
      have hoperands : operands = operands' := h
      rw [hnull, hoperands]
    all_goals cases hshape

end Postgres

section PostgresTruth

variable {C S : Type} {lib : Libraries S} {engines : Engines C S} {numberText : JsonNumber → SqliteJson.NumberText}
  {columnType : Option ListCondition.ColumnType} {values : List Json} {store : Json → Option C}

theorem same_null_iff (value : Json) : Same numberText .null value ↔ value.isNull = true := by
  unfold Same
  rw [documentOf]
  constructor
  · intro h
    cases value with
    | null => rfl
    | _ =>
      rw [documentOf] at h
      cases h
  · intro h
    cases value with
    | null =>
      rw [documentOf]
      exact .null
    | _ => cases h

theorem bound_not_null {value : Json} (h : jsonElements columnType = true ∨ value.isNull = false) :
    (jsonToArrayElement lib value columnType).isNull = false := by
  unfold jsonToArrayElement
  split
  · next element =>
    split_ifs with hjson
    · rfl
    · exact Value.isNull_of_bound (jsonToColumnValue_bound lib (h.resolve_left hjson) (some element))
  · next hcolumn =>
    refine Value.isNull_of_bound (jsonToDbValue_bound lib (h.resolve_left fun hjson => ?_))
    unfold jsonElements at hjson
    split at hjson
    · exact hcolumn _ rfl
    · cases hjson

/-- A null that is no document is `NULL`; what else is stored is compared with each value. -/
theorem held_cases {item : Json} (h : HeldAs numberText lib engines columnType values store item) :
    (store item = none ∧ item.isNull = true ∧ jsonElements columnType = false) ∨
      (store item).isSome = true ∧ (item.isNull = true → jsonElements columnType = true) ∧
        ∀ value ∈ values, (jsonElements columnType = true ∨ value.isNull = false) → ∃ answer,
          engines.postgres.compare (store item) (jsonToArrayElement lib value columnType) = some answer ∧
            (answer = true ↔ Same numberText item value) := by
  unfold HeldAs at h
  split_ifs at h with hitem
  · exact .inl ⟨h, hitem⟩
  · obtain ⟨c, hc, hequals⟩ := h
    refine .inr ⟨by rw [hc]; rfl, fun hnull => by simpa using fun hjson => hitem ⟨hnull, hjson⟩, fun value hvalue hbound => ?_⟩
    refine ⟨engines.postgres.equals c (jsonToArrayElement lib value columnType), ?_, hequals value hvalue hbound⟩
    rw [Engine.compare, bound_not_null hbound, if_neg Bool.false_ne_true, hc, Option.map_some]

theorem compare_iff {item value : Json} (h : HeldAs numberText lib engines columnType values store item) (hvalue : value ∈ values)
    (hbound : jsonElements columnType = true ∨ value.isNull = false) :
    engines.postgres.compare (store item) (jsonToArrayElement lib value columnType) = some true ↔ Same numberText item value := by
  rcases held_cases h with ⟨hstore, hnull, hplain⟩ | ⟨-, -, hcompare⟩
  · have hnone : engines.postgres.compare (none : Option C) (jsonToArrayElement lib value columnType) = none := by
      rw [Engine.compare, Option.map_none, ite_self]
    rw [hstore, hnone]
    refine iff_of_false (fun h => by cases h) fun hsame => ?_
    have hitem : item = .null := by
      cases item with
      | null => rfl
      | _ => cases hnull
    rw [hitem, same_null_iff] at hsame
    rw [hplain, hsame] at hbound
    simp at hbound
  · obtain ⟨answer, hanswer, hiff⟩ := hcompare value hvalue hbound
    rw [hanswer, Option.some_inj, hiff]

/-- `value = ANY(column)` -/
theorem any_held {items : List Json} (hheld : ∀ item ∈ items, HeldAs numberText lib engines columnType values store item) {value : Json}
    (hvalue : value ∈ values) (hbound : jsonElements columnType = true ∨ value.isNull = false) :
    Kleene.any ((items.map store).map fun item => engines.postgres.compare item (jsonToArrayElement lib value columnType)) = some true ↔
      ∃ item ∈ items, Same numberText item value := by
  rw [Kleene.any_true_iff, List.map_map, List.mem_map]
  exact exists_congr fun item => and_congr_right fun hitem => compare_iff (hheld item hitem) hvalue hbound

/-- What is bound of the list, and the null it may hold. -/
theorem listed_iff (columnType : Option ListCondition.ColumnType) (values : List Json) (item : Json) :
    (∀ value ∈ (postgresListed columnType .containedBy values).1,
        value ∈ values ∧ (jsonElements columnType = true ∨ value.isNull = false)) ∧
      ((postgresListed columnType .containedBy values).2 = true → jsonElements columnType = false) ∧
      ((∃ value ∈ values, Same numberText item value) ↔
        (∃ value ∈ (postgresListed columnType .containedBy values).1, Same numberText item value) ∨
          (postgresListed columnType .containedBy values).2 = true ∧ item.isNull = true) := by
  unfold postgresListed
  cases hjson : jsonElements columnType with
  | true =>
    dsimp only
    exact ⟨fun value hvalue => ⟨hvalue, .inl rfl⟩, fun h => absurd h Bool.false_ne_true, (or_iff_left fun h => Bool.false_ne_true h.1).symm⟩
  | false =>
    dsimp only [splitNulls]
    have hnull : decide ((values.filter fun value => !value.isNull).length < values.length) = true ↔ ∃ value ∈ values, value.isNull = true := by
      rw [decide_eq_true_iff, List.length_filter_lt_length_iff_exists]
      simp
    rw [hnull]
    refine ⟨fun value hvalue => ?_, fun _ => rfl, ?_⟩
    · obtain ⟨hmem, hplain⟩ := List.mem_filter.1 hvalue
      exact ⟨hmem, .inr (by simpa using hplain)⟩
    · have hsymm (value : Json) (hvalue : value.isNull = true) : Same numberText item value ↔ item.isNull = true := by
        cases value with
        | null =>
          constructor
          · intro h
            unfold Same at h
            rw [documentOf] at h
            cases item with
            | null => rfl
            | _ =>
              rw [documentOf] at h
              cases h
          · intro h
            cases item with
            | null => exact (same_null_iff .null).2 rfl
            | _ => cases h
        | _ => cases hvalue
      constructor
      · rintro ⟨value, hvalue, hsame⟩
        cases hvalueNull : value.isNull with
        | true => exact .inr ⟨⟨value, hvalue, hvalueNull⟩, (hsymm value hvalueNull).1 hsame⟩
        | false => exact .inl ⟨value, List.mem_filter.2 ⟨hvalue, by rw [hvalueNull]; rfl⟩, hsame⟩
      · rintro (⟨value, hvalue, hsame⟩ | ⟨⟨value, hvalue, hvalueNull⟩, hitem⟩)
        · exact ⟨value, (List.mem_filter.1 hvalue).1, hsame⟩
        · exact ⟨value, hvalue, (hsymm value hvalueNull).2 hitem⟩

/-- The test of what offends, by what the list holds. -/
def offending {M : Type} (operands : List M) (nullAllowed : Bool) : Option (PostgresOffending M) :=
  match operands.isEmpty, nullAllowed with
  | true, false => none
  | true, true => some .isNotNull
  | false, false => some (.notIn true operands)
  | false, true => some (.notIn false operands)

/-- Exactly the elements that are not listed offend. -/
theorem offends_iff {item : Json} (hheld : HeldAs numberText lib engines columnType values store item) :
    engines.offends (store item) (offending ((postgresListed columnType .containedBy values).1.map fun value =>
      jsonToArrayElement lib value columnType) (postgresListed columnType .containedBy values).2) = true ↔
        ¬∃ value ∈ values, Same numberText item value := by
  obtain ⟨hlisted, hplain, hiff⟩ := @listed_iff numberText columnType values item
  rw [hiff]
  generalize (postgresListed columnType .containedBy values).1 = listed at hlisted ⊢
  generalize (postgresListed columnType .containedBy values).2 = nullAllowed at hplain ⊢
  have hsome : (∃ value ∈ listed, Same numberText item value) ↔
      some true ∈ (listed.map fun value => jsonToArrayElement lib value columnType).map (engines.postgres.compare (store item)) := by
    rw [List.map_map, List.mem_map]
    exact exists_congr fun value => and_congr_right fun hvalue => (compare_iff hheld (hlisted value hvalue).1 (hlisted value hvalue).2).symm
  rcases held_cases hheld with ⟨hstore, hnull, -⟩ | ⟨hstore, hjson, hcompare⟩
  · have hnone : ∀ truth ∈ (listed.map fun value => jsonToArrayElement lib value columnType).map (engines.postgres.compare (store item)),
        truth = none := by
      rw [List.forall_mem_map]
      intro bound _
      rw [hstore, Engine.compare, Option.map_none, ite_self]
    have hlistedNot : ¬∃ value ∈ listed, Same numberText item value := fun h => by cases hnone _ (hsome.1 h)
    rw [or_iff_right hlistedNot, and_iff_left hnull]
    cases listed with
    | nil =>
      rw [hstore]
      cases nullAllowed with
      | true => exact iff_of_false Bool.false_ne_true fun h => h rfl
      | false => exact iff_of_true rfl Bool.false_ne_true
    | cons first listed =>
      have hunknown := Kleene.any_none hnone
      cases nullAllowed with
      | true =>
        refine iff_of_false ?_ fun h => h rfl
        show ¬(Kleene.or (some (false && _)) (Kleene.not (Kleene.any _)) == some true) = true
        rw [List.map_cons, List.map_cons, hunknown]
        exact Bool.false_ne_true
      | false =>
        refine iff_of_true ?_ Bool.false_ne_true
        show (Kleene.or (some (true && _)) (Kleene.not (Kleene.any _)) == some true) = true
        rw [List.map_cons, List.map_cons, hunknown, hstore]
        rfl
  · rw [or_iff_left fun h => Bool.false_ne_true ((hplain h.1).symm.trans (hjson h.2))]
    have hisNone : (store item).isNone = false := by rw [← Option.not_isSome, hstore]; rfl
    cases listed with
    | nil =>
      refine iff_of_true ?_ fun h => List.not_mem_nil h.choose_spec.1
      cases nullAllowed with
      | true => exact hstore
      | false => rfl
    | cons first listed =>
      have hshow : engines.offends (store item) (offending ((first :: listed).map fun value => jsonToArrayElement lib value columnType)
          nullAllowed) = (Kleene.or (some false) (Kleene.not (Kleene.any (((first :: listed).map fun value =>
            jsonToArrayElement lib value columnType).map (engines.postgres.compare (store item))))) == some true) := by
        cases nullAllowed with
        | true => rfl
        | false =>
          show (Kleene.or (some (true && (store item).isNone)) _ == some true) = _
          rw [hisNone]
          rfl
      rw [hshow, beq_iff_eq, Kleene.or_true_iff, or_iff_right (fun h => by cases h), Kleene.not_true_iff, Kleene.any_false_iff,
        List.map_map, List.forall_mem_map, not_exists]
      refine forall_congr' fun value => ?_
      rw [not_and]
      refine imp_congr_right fun hvalue => ?_
      obtain ⟨answer, hanswer, hiff⟩ := hcompare value (hlisted value hvalue).1 (hlisted value hvalue).2
      rw [Function.comp_apply, hanswer, Option.some_inj, ← hiff, Bool.not_eq_true]

/-- The bound predicate selects the row as it stores the elements. -/
theorem postgres_selects {operator : ArrayOperator} (hnulls : operator ≠ .containedBy → ∀ value ∈ values, value.isNull = false)
    {column : Option (List Json)} (hheld : ∀ items, column = some items → ∀ item ∈ items, HeldAs numberText lib engines columnType values store item)
    (hlist : values.isEmpty = true → operator ≠ .overlaps) :
    engines.postgresTruth (rowOf numberText store column).postgres (postgresTest operator
      ((postgresListed columnType operator values).1.map fun value => jsonToArrayElement lib value columnType)
      (postgresListed columnType operator values).2) = some true ↔ Selects numberText operator values column := by
  have hcheck (hoperator : operator ≠ .containedBy) : ∀ value ∈ values,
      ((rowOf numberText store column).postgres.bind fun items => Kleene.any (items.map fun item =>
        engines.postgres.compare item (jsonToArrayElement lib value columnType))) = some true ↔
          ∃ items, column = some items ∧ ∃ item ∈ items, Same numberText item value := by
    intro value hvalue
    cases column with
    | none => exact iff_of_false (fun h => by cases h) fun ⟨_, h, _⟩ => by cases h
    | some items =>
      have hany := any_held (hheld items rfl) hvalue (.inr (hnulls hoperator value hvalue))
      simpa [rowOf] using hany
  have hnull : (rowOf numberText store column).postgres.isSome = column.isSome := by
    cases column <;> rfl
  unfold Engines.postgresTruth
  cases operator with
  | contains =>
    cases values with
    | nil =>
      show (some _ : Kleene) = some true ↔ _
      rw [hnull, Option.some_inj, Option.isSome_iff_exists]
      exact exists_congr fun items => (and_iff_left fun value hvalue => (List.not_mem_nil hvalue).elim).symm
    | cons first rest =>
      show Kleene.all (((first :: rest).map _).map _) = some true ↔ _
      rw [Kleene.all_true_iff, List.map_map, List.forall_mem_map]
      constructor
      · intro h
        obtain ⟨items, hitems, -⟩ := (hcheck (by decide) first List.mem_cons_self).1 (h first List.mem_cons_self)
        refine ⟨items, hitems, fun value hvalue => ?_⟩
        obtain ⟨items', hitems', hitem⟩ := (hcheck (by decide) value hvalue).1 (h value hvalue)
        obtain rfl := Option.some.inj (hitems.symm.trans hitems')
        exact hitem
      · rintro ⟨items, hitems, h⟩ value hvalue
        exact (hcheck (by decide) value hvalue).2 ⟨items, hitems, h value hvalue⟩
  | overlaps =>
    cases values with
    | nil => exact absurd rfl (hlist rfl)
    | cons first rest =>
      show Kleene.any (((first :: rest).map _).map _) = some true ↔ _
      rw [Kleene.any_true_iff, List.map_map, List.mem_map]
      constructor
      · rintro ⟨value, hvalue, h⟩
        obtain ⟨items, hitems, hitem⟩ := (hcheck (by decide) value hvalue).1 h
        exact ⟨items, hitems, value, hvalue, hitem⟩
      · rintro ⟨items, hitems, value, hvalue, hitem⟩
        exact ⟨value, hvalue, (hcheck (by decide) value hvalue).2 ⟨items, hitems, hitem⟩⟩
  | containedBy =>
    show Kleene.and (some _) (some !(List.any _ fun item => engines.offends item (offending _ _))) = some true ↔ _
    rw [Kleene.and_true_iff, hnull, Option.some_inj, Option.some_inj, Bool.not_eq_true', List.any_eq_false, Option.isSome_iff_exists]
    cases column with
    | none => exact iff_of_false (fun h => by obtain ⟨_, h⟩ := h.1; cases h) fun ⟨_, h, _⟩ => by cases h
    | some items =>
      have hitems : (∀ item ∈ items.map store, ¬engines.offends item (offending ((postgresListed columnType .containedBy values).1.map
          fun value => jsonToArrayElement lib value columnType) (postgresListed columnType .containedBy values).2) = true) ↔
            ∀ item ∈ items, ∃ value ∈ values, Same numberText item value := by
        rw [List.forall_mem_map]
        refine forall_congr' fun item => imp_congr_right fun hitem => ?_
        rw [offends_iff (hheld items rfl item hitem), not_not]
      constructor
      · rintro ⟨-, h⟩
        exact ⟨items, rfl, hitems.1 h⟩
      · rintro ⟨items', hsome, h⟩
        obtain rfl := Option.some.inj hsome
        exact ⟨⟨items, rfl⟩, hitems.2 h⟩

end PostgresTruth

section Containment

variable (text : Json → String) (column : String)

/-- The pieces' SQL, with a marker where each value is bound. -/
def markedSql {M : Type} (pieces : List (String ⊕ M)) : String := String.join (pieces.map (Sum.elim id fun _ => "?"))

theorem markedSql_append {M : Type} (front back : List (String ⊕ M)) : markedSql (front ++ back) = markedSql front ++ markedSql back := by
  rw [markedSql, List.map_append, String.join_append]
  rfl

/-- A guard, cut where its path is bound. -/
def guardPieces (guard : String × MysqlJson.Kind) : List (String ⊕ String) :=
  let test := MysqlJson.guardTest guard.2
  [.inl (" AND " ++ (if test.whenAbsent.isSome then "COALESCE(" else "") ++ "JSON_TYPE(JSON_EXTRACT(" ++ column ++ ", "), .inr guard.1,
    .inl ("))" ++ test.whenAbsent.elim "" (fun name => ", '" ++ name ++ "')") ++ (if test.differs then " <> '" else " = '") ++
      test.name ++ "'")]

theorem markedSql_guard (guard : String × MysqlJson.Kind) :
    markedSql (guardPieces column guard) = " AND " ++ MysqlJson.guardSql column guard.2 := by
  obtain ⟨path, kind⟩ := guard
  have hmark : ", ?))" = ", " ++ ("?" ++ "))") := rfl
  unfold markedSql guardPieces MysqlJson.guardSql MysqlJson.TypeTest.sql
  rw [hmark]
  cases kind <;> simp [-String.reduceAppend, MysqlJson.guardTest, String.append_assoc]

theorem render_guards (guards : List (String × MysqlJson.Kind)) (sql : String) (values : List String) :
    guards.foldl (fun (sql, values) (path, kind) => (sql ++ " AND " ++ MysqlJson.guardSql column kind, values ++ [path])) (sql, values) =
      (sql ++ markedSql (guards.flatMap (guardPieces column)), values ++ guards.map Prod.fst) := by
  induction guards generalizing sql values with
  | nil => simp [markedSql]
  | cons guard guards ih =>
    rw [List.foldl_cons, ih, List.flatMap_cons, markedSql_append, markedSql_guard, List.map_cons]
    simp only [String.append_assoc, List.append_assoc, List.singleton_append]

theorem binds_guards (guards : List (String × MysqlJson.Kind)) :
    (guards.flatMap (guardPieces column)).filterMap Sum.getRight? = guards.map Prod.fst := by
  induction guards with
  | nil => rfl
  | cons guard guards ih =>
    rw [List.flatMap_cons, List.filterMap_append, ih]
    rfl

theorem containmentPieces_eq (containment : MysqlJson.Containment) : containmentPieces text column containment =
    (if containment.columnHolds then [.inl ("JSON_CONTAINS(" ++ column ++ ", "), .inr (text containment.document), .inl ")"]
      else [.inl "JSON_CONTAINS(", .inr (text containment.document), .inl (", " ++ column ++ ")")]) ++
      containment.guards.flatMap (guardPieces column) := rfl

/-- The pieces of a containment are the SQL it is rendered as, with its values in their order. -/
theorem render_eq (containment : MysqlJson.Containment) : MysqlJson.render text column containment =
    (markedSql (containmentPieces text column containment), (containmentPieces text column containment).filterMap Sum.getRight?) := by
  unfold MysqlJson.render
  dsimp only
  rw [render_guards, containmentPieces_eq, markedSql_append, List.filterMap_append, binds_guards]
  have hholds : ", ?)" = ", " ++ ("?" ++ ")") := rfl
  have hheld : "JSON_CONTAINS(?, " = "JSON_CONTAINS(" ++ ("?" ++ ", ") := rfl
  rw [hholds, hheld]
  cases containment.columnHolds <;> simp [-String.reduceAppend, markedSql, String.append_assoc, List.filterMap_cons]

end Containment

section MysqlTruth

variable (text : Json → String) (column : String)

/-- The values that are bound stand at the markers. -/
theorem mysql_inOrder (operator : ArrayOperator) (values : List Json) (hlist : values.isEmpty = true → operator ≠ .overlaps) :
    (mysqlPieces text column (mysqlTest text operator values)).filterMap Sum.getRight? =
      mysqlValues text column values (mysqlTest text operator values) := by
  unfold mysqlPieces
  rw [List.filterMap_cons_none rfl, List.filterMap_append, List.filterMap_cons_none rfl, List.filterMap_nil, List.append_nil]
  cases operator with
  | contains | containedBy =>
    show _ = (MysqlJson.render text column _).2
    rw [render_eq]
    rfl
  | overlaps =>
    cases values with
    | nil => exact absurd rfl (hlist rfl)
    | cons first rest =>
      have hbinds := @binds_pieces Json Empty String column "" (fun value => [.inl ("JSON_CONTAINS(" ++ column ++ ", "), .inr (text value), .inl ")"])
        (fun _ => []) (fun value => [text value]) Empty.elim (fun _ => rfl) (fun offending => offending.elim) (.anyElement (first :: rest))
      exact hbinds.trans (List.flatMap_pure_eq_map text (first :: rest))

variable {C S : Type} {engines : Engines C S} {numberText : JsonNumber → SqliteJson.NumberText} {values items : List Json}

theorem jsonType_array_iff (value : Json) : MysqlJson.jsonType value = "ARRAY" ↔ ∃ items, value = .array items := by
  cases value with
  | number n => cases n <;> simp [MysqlJson.jsonType]
  | _ => simp [MysqlJson.jsonType]

/-- A scalar contains a scalar that is equal to it. -/
theorem contains_scalars {equal : Json → Json → Bool} {target candidate : Json} (htarget : MysqlJson.isScalar target = true)
    (hcandidate : MysqlJson.isScalar candidate = true) : MysqlJson.jsonContains equal target candidate = equal target candidate := by
  have hsame : MysqlJson.sameScalar equal target candidate = equal target candidate := by
    rw [MysqlJson.sameScalar, htarget, hcandidate, Bool.true_and, Bool.true_and]
  rw [← hsame]
  cases target with
  | array _ | object _ => cases htarget
  | _ => rfl

/-- An array contains a scalar that one of its scalars is equal to. -/
theorem contains_element {equal : Json → Json → Bool} (hitems : ∀ item ∈ items, MysqlJson.isScalar item = true) {candidate : Json}
    (hcandidate : MysqlJson.isScalar candidate = true) :
    MysqlJson.jsonContains equal (.array items) candidate = true ↔ ∃ item ∈ items, equal item candidate = true := by
  have hany : MysqlJson.jsonContains equal (.array items) candidate = MysqlJson.anyJsonContains equal items candidate := by
    cases candidate with
    | array _ | object _ => cases hcandidate
    | _ => rfl
  rw [hany, MysqlJson.anyJsonContains_iff]
  exact exists_congr fun item => and_congr_right fun hitem => by rw [contains_scalars (hitems item hitem) hcandidate]

/-- Of an array an array contains each scalar that it has. -/
theorem contains_array {equal : Json → Json → Bool} (hitems : ∀ item ∈ items, MysqlJson.isScalar item = true)
    (hvalues : ∀ value ∈ values, MysqlJson.isScalar value = true) :
    MysqlJson.jsonContains equal (.array items) (.array values) = true ↔ ∀ value ∈ values, ∃ item ∈ items, equal item value = true := by
  rw [MysqlJson.jsonContains, List.all_eq_true]
  refine forall_congr' fun value => imp_congr_right fun hvalue => ?_
  rw [MysqlJson.anyJsonContains_iff]
  exact exists_congr fun item => and_congr_right fun hitem => by rw [contains_scalars (hitems item hitem) (hvalues value hvalue)]

/-- What is no array is selected by none. -/
theorem mysqlTruth_other (engines : Engines C S) {column : Option Json} (h : ∀ items, column ≠ some (.array items)) (test : MysqlArray) :
    engines.mysqlTruth column test ≠ some true := by
  intro htruth
  cases column with
  | none => cases htruth
  | some value =>
    unfold Engines.mysqlTruth at htruth
    rw [Option.bind_some, Kleene.and_true_iff, Option.some_inj, beq_iff_eq, jsonType_array_iff] at htruth
    obtain ⟨⟨items, hitems⟩, -⟩ := htruth
    exact h items (congrArg some hitems)

/-- The bound predicate selects the row as a document. -/
theorem mysql_selects {operator : ArrayOperator} (hvalues : ∀ value ∈ values, MysqlJson.isScalar value = true)
    (hitems : ∀ item ∈ items, MysqlJson.isScalar item = true ∧ ComparedAs numberText engines values item)
    (hlist : values.isEmpty = true → operator ≠ .overlaps) :
    engines.mysqlTruth (some (.array items)) (mysqlTest text operator values) = some true ↔
      Selects numberText operator values (some items) := by
  have hscalars : ∀ item ∈ items, MysqlJson.isScalar item = true := fun item hitem => (hitems item hitem).1
  have hselects (P : List Json → Prop) : (∃ items', some items = some items' ∧ P items') ↔ P items := by
    simp
  unfold Engines.mysqlTruth Selects
  have htype : some (MysqlJson.jsonType (.array items) == "ARRAY") = some true := rfl
  rw [Option.bind_some, Kleene.and_true_iff, hselects, and_iff_right htype]
  cases operator with
  | contains =>
    show (MysqlJson.mysqlJsonContains text (.array values)).truth engines.equal engines.extract (.array items) = some true ↔ _
    have hguards : MysqlJson.AllHold engines.extract (.array items) (MysqlJson.mysqlJsonContains text (.array values)).guards :=
      fun guard hguard => by cases hguard
    rw [MysqlJson.truth_iff, and_iff_left hguards]
    refine (contains_array hscalars hvalues).trans <| forall_congr' fun value => imp_congr_right fun hvalue => ?_
    exact exists_congr fun item => and_congr_right fun hitem => ((hitems item hitem).2 value hvalue).1
  | containedBy =>
    show (MysqlJson.mysqlJsonContainedBy text (.array values)).truth engines.equal engines.extract (.array items) = some true ↔ _
    have hguards : MysqlJson.AllHold engines.extract (.array items) (MysqlJson.mysqlJsonContainedBy text (.array values)).guards := by
      intro guard hguard
      obtain rfl := List.mem_singleton.1 hguard
      show MysqlJson.Holds .notObject (engines.extract (.array items) "$")
      rw [engines.root, MysqlJson.holds_some]
      rfl
    rw [MysqlJson.truth_iff, and_iff_left hguards]
    refine (contains_array hvalues hscalars).trans <| forall_congr' fun item => imp_congr_right fun hitem => ?_
    exact exists_congr fun value => and_congr_right fun hvalue => ((hitems item hitem).2 value hvalue).2
  | overlaps =>
    cases values with
    | nil => exact absurd rfl (hlist rfl)
    | cons first rest =>
      show Kleene.any ((first :: rest).map _) = some true ↔ _
      rw [Kleene.any_true_iff, List.mem_map]
      refine exists_congr fun value => and_congr_right fun hvalue => ?_
      rw [Option.some_inj, contains_element hscalars (hvalues value hvalue)]
      exact exists_congr fun item => and_congr_right fun hitem => ((hitems item hitem).2 value hvalue).1

end MysqlTruth

section SqliteTruth

open SqliteJson (Document Test Tells Equal)

variable {numberText : JsonNumber → SqliteJson.NumberText} {values items : List Json}

theorem documentsOf_eq (items : List Json) : documentsOf numberText items = items.map (documentOf numberText) := by
  induction items with
  | nil => rfl
  | cons item items ih => rw [documentsOf, ih, List.map_cons]

theorem documentOf_scalar {value : Json} (h : MysqlJson.isScalar value = true) :
    SqliteJson.isScalar (documentOf numberText value) = true := by
  cases value with
  | array _ | object _ => cases h
  | _ =>
    rw [documentOf]
    rfl

/-- The test of a row that is built for a scalar. -/
theorem element_test {value : Json} (h : MysqlJson.isScalar value = true) : ∃ check : Test SqliteJson.Value,
    sqliteJsonElementEquals (documentOf numberText value) = (check.erase, check.markers) ∧
      Tells check (SqliteJson.rowReading 0) (fun entry => SqliteJson.Keyed entry.value)
        (fun entry => Equal entry.value (documentOf numberText value)) := by
  obtain ⟨check, hbuilt, hvalues, htells⟩ :=
    SqliteJson.builds_equals (documentOf numberText value) (.scalar (documentOf_scalar h)) (.row 0) ⟨[], 0⟩
  exact ⟨check, Prod.ext hbuilt hvalues, htells.row⟩

theorem sqliteTest_map {M N : Type} (erase : Test M → Test N) (hexist : ∀ check, erase (.exist .document 0 check) = .exist .document 0 (erase check))
    (hanyOf : ∀ checks, erase (.not (SqliteJson.anyOf checks)) = .not (SqliteJson.anyOf (checks.map erase))) (operator : ArrayOperator)
    (checks : List (Test M)) : (sqliteTest operator checks).map erase erase = sqliteTest operator (checks.map erase) := by
  have hchecks : (checks.map (.exist .document 0)).map erase = (checks.map erase).map (.exist .document 0) := by
    rw [List.map_map, List.map_map]
    exact List.map_congr_left fun check _ => hexist check
  cases operator with
  | contains | overlaps =>
    unfold sqliteTest
    dsimp only
    rw [← hchecks]
    exact ArrayTest.map_joined _ _ _ rfl rfl
  | containedBy =>
    unfold sqliteTest ArrayTest.arrayContainedBy
    dsimp only
    rw [ArrayTest.map, List.isEmpty_map]
    split_ifs
    · rfl
    · rw [Option.map_some, hanyOf]

theorem binds_sqliteTest (operator : ArrayOperator) (checks : List (Test SqliteJson.Value)) :
    (sqliteTest operator checks).binds Test.markers Test.markers = checks.flatMap Test.markers := by
  have hexist (checks : List (Test SqliteJson.Value)) : (checks.map (.exist .document 0)).flatMap Test.markers = checks.flatMap Test.markers :=
    List.flatMap_map ..
  cases operator with
  | contains | overlaps =>
    cases checks with
    | nil => rfl
    | cons first rest => exact hexist (first :: rest)
  | containedBy =>
    cases checks with
    | nil => rfl
    | cons first rest => exact SqliteJson.markers_anyOf (first :: rest)

theorem binds_sqlitePieces (column : String) (test : ArrayTest (Test SqliteJson.Value) (Test SqliteJson.Value)) :
    (sqlitePieces column test).filterMap Sum.getRight? = test.binds Test.markers Test.markers := by
  unfold sqlitePieces
  rw [List.filterMap_cons_none rfl, List.filterMap_append, List.filterMap_cons_none rfl, List.filterMap_nil, List.append_nil]
  exact binds_pieces (SqliteJson.markers_pieces column) (SqliteJson.markers_pieces column) test

theorem sqlite_inOrder (column : String) (operator : ArrayOperator) (checks : List (Test SqliteJson.Value)) :
    InOrder (sqlitePieces column (sqliteTest operator checks)) (sqlitePieces column ((sqliteTest operator checks).map Test.erase Test.erase))
      (checks.flatMap Test.markers) := by
  constructor
  · unfold sqlitePieces
    rw [List.map_cons, List.map_append]
    exact congrArg (fun pieces => _ :: (pieces ++ _))
      (map_pieces _ _ _ (SqliteJson.pieces_erase column) (SqliteJson.pieces_erase column) (sqliteTest operator checks))
  · exact (binds_sqlitePieces column _).trans (binds_sqliteTest operator checks)

/-- A test's own values are the ones that fill it. -/
theorem erase_inj {check other : Test SqliteJson.Value} {values others : List SqliteJson.Value} (hbuilt : check.erase = other.erase)
    (hvalues : check.markers ++ values = other.markers ++ others) : check = other ∧ values = others := by
  have hfill := SqliteJson.fill_erase check values
  rw [hbuilt, hvalues, SqliteJson.fill_erase, Option.some_inj, Prod.mk.injEq] at hfill
  exact ⟨hfill.1.symm, hfill.2.symm⟩

theorem sqlite_filled {test other : ArrayTest (Test SqliteJson.Value) (Test SqliteJson.Value)}
    (hbuilt : test.map Test.erase Test.erase = other.map Test.erase Test.erase)
    (hvalues : test.binds Test.markers Test.markers = other.binds Test.markers Test.markers) : test = other := by
  refine ArrayTest.filled (fun checks others hshape h => ?_) (fun offending other hshape h => ?_) hbuilt hvalues
  · induction checks generalizing others with
    | nil => exact (List.map_eq_nil_iff.1 hshape.symm).symm
    | cons check checks ih =>
      cases others with
      | nil => cases hshape
      | cons other others =>
        obtain ⟨hcheck, hchecks⟩ := List.cons.inj hshape
        obtain ⟨rfl, hrest⟩ := erase_inj hcheck h
        rw [ih others hchecks hrest]
  · exact (@erase_inj offending other [] [] hshape (by rw [h])).1

/-- A NULL column has no answer; what is no array is selected by none. -/
theorem sqliteTruth_other {column : Option Document} (h : ∀ documents, column ≠ some (.array documents))
    (test : ArrayTest (Test SqliteJson.Value) (Test SqliteJson.Value)) : ∃ truth, sqliteTruth column test = some truth ∧ truth ≠ some true := by
  cases column with
  | none =>
    have hinner : ∃ inner, sqliteInner none test = some inner := by
      have hcheck (checks : List (Test SqliteJson.Value)) : ∀ check ∈ checks, Decides (sqliteCheck none check) False :=
        fun _ _ => Decides.of_false not_false
      cases test with
      | matchNothing | isNotNull => exact ⟨false, rfl⟩
      | conjunction checks =>
        obtain ⟨inner, hinner, -⟩ := Decides.everyRow (hcheck checks)
        exact ⟨inner, hinner⟩
      | disjunction checks =>
        obtain ⟨inner, hinner, -⟩ := Decides.someRow (hcheck checks)
        exact ⟨inner, hinner⟩
      | noneOffends offending => cases offending <;> exact ⟨false, rfl⟩
    obtain ⟨inner, hinner⟩ := hinner
    refine ⟨Kleene.and none (some inner), ?_, ?_⟩
    · show (sqliteInner none test).map _ = _
      rw [hinner]
      rfl
    · rw [Ne, Kleene.and_true_iff]
      exact fun h => by cases h.1
  | some document =>
    have hkind : (SqliteJson.jsonType document == "array") = false := by
      rw [beq_eq_false_iff_ne, Ne, SqliteJson.jsonType_array_iff]
      rintro ⟨documents, hdocuments⟩
      exact h documents (congrArg some hdocuments)
    refine ⟨some false, ?_, by decide⟩
    show (both (some (SqliteJson.jsonType document == "array")) (sqliteInner (some document) test)).map some = _
    rw [hkind]
    rfl

variable {check : Json → Test SqliteJson.Value} (hscalars : ∀ item ∈ items, MysqlJson.isScalar item = true)
  (htells : ∀ value ∈ values, Tells (check value) (SqliteJson.rowReading 0) (fun entry => SqliteJson.Keyed entry.value)
    (fun entry => Equal entry.value (documentOf numberText value)))

/-- The rows of an array are its elements. -/
theorem exists_row_iff {items : List Json} {P : Document → Prop} :
    (∃ entry ∈ SqliteJson.rows (.array (documentsOf numberText items)), P entry.value) ↔ ∃ item ∈ items, P (documentOf numberText item) := by
  constructor
  · rintro ⟨entry, hentry, hP⟩
    obtain ⟨i, document, hget, rfl⟩ := SqliteJson.mem_rows_array.1 hentry
    have hmem := List.mem_of_getElem? hget
    rw [documentsOf_eq] at hmem
    obtain ⟨item, hitem, rfl⟩ := List.mem_map.1 hmem
    exact ⟨item, hitem, hP⟩
  · rintro ⟨item, hitem, hP⟩
    have hmem : documentOf numberText item ∈ documentsOf numberText items := by
      rw [documentsOf_eq]
      exact List.mem_map_of_mem hitem
    obtain ⟨i, hget⟩ := List.mem_iff_getElem?.1 hmem
    exact ⟨⟨.inr i, documentOf numberText item⟩, SqliteJson.mem_rows_array.2 ⟨i, _, hget, rfl⟩, hP⟩

include hscalars

theorem rows_keyed : ∀ entry ∈ SqliteJson.rows (.array (documentsOf numberText items)), SqliteJson.Keyed entry.value := by
  intro entry hentry
  obtain ⟨item, hitem, hvalue⟩ := (@exists_row_iff numberText items (· = entry.value)).1 ⟨entry, hentry, rfl⟩
  rw [← hvalue]
  exact .scalar (documentOf_scalar (hscalars item hitem))

/-- Some element passes a test of the rows. -/
theorem decides_exist {test : Test SqliteJson.Value} {P : Document → Prop}
    (h : Tells test (SqliteJson.rowReading 0) (fun entry => SqliteJson.Keyed entry.value) (fun entry => P entry.value)) :
    Decides (sqliteCheck (some (.array (documentsOf numberText items))) (.exist .document 0 test))
      (∃ item ∈ items, P (documentOf numberText item)) :=
  (h.exist .document (.array (documentsOf numberText items)) (fun _ => none) _ rfl ⟨rfl, rows_keyed hscalars⟩).congr exists_row_iff

include htells

/-- The test behind the guard decides what the operator asks of the elements. -/
theorem sqliteInner_decides (operator : ArrayOperator) :
    Decides (sqliteInner (some (.array (documentsOf numberText items))) (sqliteTest operator (values.map check)))
      (Selects numberText operator values (some items)) := by
  have hselects (P : List Json → Prop) : (∃ items', some items = some items' ∧ P items') ↔ P items := by
    simp
  have helement : ∀ value ∈ values, Decides (sqliteCheck (some (.array (documentsOf numberText items))) (.exist .document 0 (check value)))
      (∃ item ∈ items, Same numberText item value) := fun value hvalue =>
    @decides_exist numberText items hscalars (check value) (fun document => Equal document (documentOf numberText value)) (htells value hvalue)
  unfold Selects
  rw [hselects]
  cases operator with
  | contains =>
    cases values with
    | nil => exact Decides.of_true fun _ hmem => by cases hmem
    | cons first rest =>
      show Decides (everyRow _ (((first :: rest).map check).map (Test.exist .document 0))) _
      rw [List.map_map, everyRow_map]
      exact Decides.everyRow helement
  | overlaps =>
    cases values with
    | nil => exact Decides.of_false fun ⟨_, hmem, _⟩ => by cases hmem
    | cons first rest =>
      show Decides (someRow _ (((first :: rest).map check).map (Test.exist .document 0))) _
      rw [List.map_map, someRow_map]
      exact Decides.someRow helement
  | containedBy =>
    cases values with
    | nil =>
      show Decides (both (some true) (some ((SqliteJson.jsonEach (.array (documentsOf numberText items))).getD []).isEmpty)) _
      refine ((Decides.of_true trivial).both fun _ => Decides.of_iff ?_).congr (iff_of_eq (true_and _))
      rw [List.isEmpty_iff, List.eq_nil_iff_forall_not_mem]
      constructor
      · intro h item hitem
        obtain ⟨entry, hentry, -⟩ := (@exists_row_iff numberText items fun _ => True).2 ⟨item, hitem, trivial⟩
        exact (h entry hentry).elim
      · intro h entry hentry
        obtain ⟨item, hitem, -⟩ := (@exists_row_iff numberText items fun _ => True).1 ⟨entry, hentry, trivial⟩
        obtain ⟨_, hmem, _⟩ := h item hitem
        cases hmem
    | cons first rest =>
      have hlisted : Tells (SqliteJson.anyOf ((first :: rest).map check)) (SqliteJson.rowReading 0) (fun entry => SqliteJson.Keyed entry.value)
          (fun entry => ∃ value ∈ first :: rest, Equal entry.value (documentOf numberText value)) :=
        Tells.disj (List.forall₂_map_right_iff.2 (List.forall₂_same.2 htells))
      have hoffends := @decides_exist numberText items hscalars (.not (SqliteJson.anyOf ((first :: rest).map check)))
        (fun document => ¬∃ value ∈ first :: rest, Equal document (documentOf numberText value)) hlisted.not
      show Decides (both (some true) ((sqliteCheck _ (.exist .document 0 (.not _))).map Bool.not)) _
      refine ((Decides.of_true trivial).both fun _ => hoffends.not).congr ?_
      rw [true_and, not_exists]
      exact forall_congr' fun item => by rw [not_and, not_not]; rfl

end SqliteTruth

section Agreement

open SqliteJson (Document Test Tells Equal)

variable {C S : Type} (lib : Libraries S) {engines : Engines C S} {text : Json → String} (numberText : JsonNumber → SqliteJson.NumberText)
  (columnSql : String) (columnType : Option ListCondition.ColumnType) {row : Row C}

/-- A predicate has one answer. -/
theorem Answers.unique {expression : ArrayExpression S} {truth other : Kleene} (h : Answers engines text columnSql row expression truth)
    (hother : Answers engines text columnSql row expression other) : other = truth := by
  cases h with
  | matchNothing =>
    cases hother with
    | matchNothing => rfl
  | mysql _ =>
    cases hother with
    | mysql _ => rfl
  | @postgres test _ _ hbuilt h =>
    cases hother with
    | @postgres test' _ _ hbuilt' h' =>
      have hvalues := h.2.trans h'.2.symm
      rw [binds_postgresPieces, binds_postgresPieces] at hvalues
      rw [postgres_filled (hbuilt.trans hbuilt'.symm) hvalues]
  | @sqlite test _ _ _ hbuilt h htruth =>
    cases hother with
    | @sqlite test' _ _ _ hbuilt' h' htruth' =>
      have hvalues := h.2.trans h'.2.symm
      rw [binds_sqlitePieces, binds_sqlitePieces] at hvalues
      rw [sqlite_filled (hbuilt.trans hbuilt'.symm) hvalues, htruth', Option.some_inj] at htruth
      exact htruth

theorem Answers.one {expression : ArrayExpression S} {truth : Kleene} (h : Answers engines text columnSql row expression truth) (other : Kleene) :
    Answers engines text columnSql row expression other ↔ other = truth :=
  ⟨fun hother => h.unique columnSql hother, fun hother => hother ▸ h⟩

variable {operator : ArrayOperator} {values : List Json}

theorem answers_postgres (hlist : ¬(values.isEmpty = true ∧ operator = .overlaps)) :
    Answers engines text columnSql row (buildArrayExpression lib text numberText .postgres columnSql columnType operator values)
      (engines.postgresTruth row.postgres (postgresTest operator ((postgresListed columnType operator values).1.map fun value =>
        jsonToArrayElement lib value columnType) (postgresListed columnType operator values).2)) := by
  have hbuilt : buildArrayExpression lib text numberText .postgres columnSql columnType operator values =
      .postgres (postgresTest operator (List.replicate (postgresListed columnType operator values).1.length ())
        (postgresListed columnType operator values).2) ((postgresListed columnType operator values).1.map fun value =>
          jsonToArrayElement lib value columnType) := by
    unfold buildArrayExpression
    rw [if_neg hlist]
  have horder := postgres_inOrder columnSql operator ((postgresListed columnType operator values).1.map fun value =>
    jsonToArrayElement lib value columnType) (postgresListed columnType operator values).2
  rw [List.length_map] at horder
  rw [hbuilt]
  refine .postgres ?_ horder
  rw [postgresTest_map, List.map_map]
  exact congrArg (fun operands => postgresTest operator operands _) List.map_const'

theorem answers_mysql {db : DatabaseType} (hdb : db = .mySql ∨ db = .mariaDb) (hlist : ¬(values.isEmpty = true ∧ operator = .overlaps)) :
    Answers engines text columnSql row (buildArrayExpression lib text numberText db columnSql columnType operator values)
      (engines.mysqlTruth row.mysql (mysqlTest text operator values)) := by
  have hbuilt : buildArrayExpression lib text numberText db columnSql columnType operator values =
      .mysql (mysqlTest text operator values) (mysqlValues text columnSql values (mysqlTest text operator values)) := by
    unfold buildArrayExpression
    rw [if_neg hlist]
    rcases hdb with rfl | rfl <;> rfl
  rw [hbuilt]
  exact .mysql (mysql_inOrder text columnSql operator values fun hempty hoverlaps => hlist ⟨hempty, hoverlaps⟩)

theorem answers_sqlite (hlist : ¬(values.isEmpty = true ∧ operator = .overlaps)) {check : Json → Test SqliteJson.Value}
    (hcheck : ∀ value ∈ values, sqliteJsonElementEquals (documentOf numberText value) = ((check value).erase, (check value).markers))
    {truth : Kleene} (htruth : sqliteTruth row.sqlite (sqliteTest operator (values.map check)) = some truth) :
    Answers engines text columnSql row (buildArrayExpression lib text numberText .sqlite columnSql columnType operator values) truth := by
  have hbuilt : buildArrayExpression lib text numberText .sqlite columnSql columnType operator values =
      .sqlite ((sqliteTest operator (values.map check)).map Test.erase Test.erase) ((values.map check).flatMap Test.markers) := by
    have htests : (values.map fun value => sqliteJsonElementEquals (documentOf numberText value)) =
        values.map fun value => ((check value).erase, (check value).markers) := List.map_congr_left hcheck
    unfold buildArrayExpression
    rw [if_neg hlist]
    dsimp only
    rw [htests, sqliteTest_map Test.erase (fun _ => rfl) (fun checks => congrArg Test.not (SqliteJson.erase_anyOf checks)), List.map_map,
      List.map_map, List.flatMap_map, List.flatMap_map]
    rfl
  rw [hbuilt]
  exact .sqlite rfl (sqlite_inOrder columnSql operator _) htruth

/-- Every backend's predicate selects the column exactly when the values that the operator asks for are
among its elements, and what is no array is selected by none. -/
theorem arrays_agree (store : Json → Option C) (hvalues : ∀ value ∈ values, MysqlJson.isScalar value = true)
    (hnulls : operator ≠ .containedBy → ∀ value ∈ values, value.isNull = false) (db : DatabaseType) :
    (∀ column : Option (List Json), (∀ items, column = some items → ∀ item ∈ items, MysqlJson.isScalar item = true ∧
        Told numberText lib engines columnType values store item db) →
      ∃ truth, (∀ other, Answers engines text columnSql (rowOf numberText store column)
          (buildArrayExpression lib text numberText db columnSql columnType operator values) other ↔ other = truth) ∧
        (truth = some true ↔ Selects numberText operator values column)) ∧
    (db ≠ .postgres → (∀ items, row.mysql ≠ some (.array items)) → (∀ documents, row.sqlite ≠ some (.array documents)) →
      ∃ truth, (∀ other, Answers engines text columnSql row
          (buildArrayExpression lib text numberText db columnSql columnType operator values) other ↔ other = truth) ∧ truth ≠ some true) := by
  by_cases hlist : values.isEmpty = true ∧ operator = .overlaps
  · have hbuilt : buildArrayExpression lib text numberText db columnSql columnType operator values = .matchNothing := by
      unfold buildArrayExpression
      rw [if_pos hlist]
    rw [hbuilt]
    refine ⟨fun column _ => ⟨some false, Answers.matchNothing.one columnSql, iff_of_false (by decide) ?_⟩,
      fun _ _ _ => ⟨some false, Answers.matchNothing.one columnSql, by decide⟩⟩
    obtain ⟨hempty, rfl⟩ := hlist
    rw [List.isEmpty_iff.1 hempty]
    rintro ⟨_, _, _, hmem, _⟩
    cases hmem
  have hlist' : values.isEmpty = true → operator ≠ .overlaps := fun hempty hoverlaps => hlist ⟨hempty, hoverlaps⟩
  have : Nonempty (Test SqliteJson.Value) := ⟨.no⟩
  choose! check hcheck htells using fun value hvalue => @element_test numberText value (hvalues value hvalue)
  cases db with
  | postgres =>
    refine ⟨fun column hitems => ⟨_, (answers_postgres lib numberText columnSql columnType hlist).one columnSql, ?_⟩,
      fun hdb => absurd rfl hdb⟩
    exact postgres_selects hnulls (fun items hcolumn item hitem => (hitems items hcolumn item hitem).2) hlist'
  | mySql | mariaDb =>
    refine ⟨fun column hitems => ⟨_, (answers_mysql lib numberText columnSql columnType (by decide) hlist).one columnSql, ?_⟩,
      fun _ hmysql _ => ⟨_, (answers_mysql lib numberText columnSql columnType (by decide) hlist).one columnSql, mysqlTruth_other engines hmysql _⟩⟩
    cases column with
    | none => exact iff_of_false (mysqlTruth_other engines (fun _ h => by cases h) _) fun ⟨_, h, _⟩ => by cases h
    | some items => exact mysql_selects text hvalues (hitems items rfl) hlist'
  | sqlite =>
    constructor
    · intro column hitems
      cases column with
      | none =>
        obtain ⟨truth, htruth, hfalse⟩ := @sqliteTruth_other none (fun _ h => by cases h) (sqliteTest operator (values.map check))
        refine ⟨truth, (answers_sqlite lib numberText columnSql columnType hlist hcheck htruth).one columnSql, iff_of_false hfalse ?_⟩
        rintro ⟨_, h, _⟩
        cases h
      | some items =>
        obtain ⟨inner, hinner, hiff⟩ := sqliteInner_decides (fun item hitem => (hitems items rfl item hitem).1) htells operator
        refine ⟨some inner, (answers_sqlite lib numberText columnSql columnType hlist hcheck ?_).one columnSql, ?_⟩
        · show (sqliteInner (some (.array (documentsOf numberText items))) _).map some = _
          rw [hinner]
          rfl
        · rw [Option.some_inj, hiff]
    · intro _ _ hsqlite
      obtain ⟨truth, htruth, hfalse⟩ := sqliteTruth_other hsqlite (sqliteTest operator (values.map check))
      exact ⟨truth, (answers_sqlite lib numberText columnSql columnType hlist hcheck htruth).one columnSql, hfalse⟩

end Agreement

section Texts

def textOf : Json → Option String
  | .string s => some s
  | _ => none

/-- Columns of texts. -/
def texts : Engines String Unit where
  postgres := {
    equals s
      | .string (some text) => s == text
      | _ => false
    documentEquals _ _ := false
    jsonEach := QuotedText.jsonEach }
  equal
    | .null, .null => true
    | .string s, .string text => s == text
    | _, _ => false
  extract value path := if path = "$" then some value else none
  root _ := if_pos rfl

def five : SqliteJson.NumberText := ⟨false, ['5'], [], none, by decide, rfl, by decide⟩

def fiveText : Libraries Unit := { libraries with numberText _ := "5" }

theorem arrays_agree_texts : ∃ truth,
    (∀ other, Answers texts MysqlJson.stringText "tags" (rowOf (fun _ => five) textOf (some [.string "a", .null]))
        (buildArrayExpression fiveText MysqlJson.stringText (fun _ => five) .postgres "tags" (some (.array .text)) .contains [.string "a"]) other ↔
      other = truth) ∧
    (truth = some true ↔ Selects (fun _ => five) .contains [.string "a"] (some [.string "a", .null])) := by
  have hvalues : ∀ value ∈ [Json.string "a"], MysqlJson.isScalar value = true ∧ value.isNull = false := by
    intro value hvalue
    rw [List.mem_singleton.1 hvalue]
    exact ⟨rfl, rfl⟩
  have h := @arrays_agree String Unit fiveText texts MysqlJson.stringText (fun _ => five) "tags" (some (.array .text)) ⟨none, none, none⟩ .contains
    [.string "a"] textOf (fun value hvalue => (hvalues value hvalue).1) (fun _ value hvalue => (hvalues value hvalue).2) .postgres
  refine h.1 (some [.string "a", .null]) fun items hitems item hitem => ?_
  obtain rfl := Option.some.inj hitems
  have hcases : item = .string "a" ∨ item = .null := by simpa using hitem
  rcases hcases with rfl | rfl
  · refine ⟨rfl, "a", rfl, fun value hvalue _ => ?_⟩
    rw [List.mem_singleton.1 hvalue]
    exact iff_of_true rfl (by rw [Same, documentOf]; exact .string "a")
  · exact ⟨rfl, rfl⟩

/-- On PostgreSQL a listed number is bound as the text that a text array holds. -/
theorem number_among_texts :
    Answers texts MysqlJson.stringText "tags" (rowOf (fun _ => five) textOf (some [.string "5"])) (buildArrayExpression fiveText MysqlJson.stringText
        (fun _ => five) .postgres "tags" (some (.array .text)) .contains [.number (.posInt 5)]) (some true) ∧
      Answers texts MysqlJson.stringText "tags" (rowOf (fun _ => five) textOf (some [.string "5"])) (buildArrayExpression fiveText
        MysqlJson.stringText (fun _ => five) .mySql "tags" (some (.array .text)) .contains [.number (.posInt 5)]) (some false) ∧
      ¬Selects (fun _ => five) .contains [.number (.posInt 5)] (some [.string "5"]) := by
  refine ⟨answers_postgres fiveText _ "tags" _ (by decide), answers_mysql fiveText _ "tags" _ (by decide) (by decide), ?_⟩
  rintro ⟨items, hitems, h⟩
  obtain rfl := Option.some.inj hitems
  obtain ⟨item, hitem, hsame⟩ := h _ List.mem_cons_self
  rw [List.mem_singleton.1 hitem, Same, documentOf, documentOf] at hsame
  cases hsame

end Texts

end TideOrm.ArrayFilter
