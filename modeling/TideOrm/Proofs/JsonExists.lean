import TideOrm.Proofs.JsonPath
import TideOrm.Spec.JsonExists

/-! A JSON path exists on every backend where it exists strictly. MySQL finds an element of what is no
array, but then the check of that step's parent fails. -/

namespace TideOrm.JsonExists

open Lib

section Paths

theorem reaches_iff (value : Json) (steps : List JsonPathStep) : Reaches value steps ↔ (strictFind value steps).isSome = true := by
  constructor
  · intro h
    induction h with
    | here => rfl
    | member hlookup _ ih => rwa [strictFind, hlookup, Option.bind_some]
    | element hindex _ ih => rwa [strictFind, hindex, Option.bind_some]
  · intro h
    induction steps generalizing value with
    | nil => exact .here value
    | cons step steps ih =>
      unfold strictFind at h
      split at h
      · next heq => cases heq
      · next fields key _ heq =>
        obtain ⟨rfl, rfl⟩ := List.cons.inj heq
        obtain ⟨found, hfound⟩ := Option.isSome_iff_exists.1 h
        obtain ⟨value, hlookup, hrest⟩ := Option.bind_eq_some_iff.1 hfound
        exact .member hlookup (ih value (Option.isSome_iff_exists.2 ⟨found, hrest⟩))
      · next items index _ heq =>
        obtain ⟨rfl, rfl⟩ := List.cons.inj heq
        obtain ⟨found, hfound⟩ := Option.isSome_iff_exists.1 h
        obtain ⟨value, hindex, hrest⟩ := Option.bind_eq_some_iff.1 hfound
        exact .element hindex (ih value (Option.isSome_iff_exists.2 ⟨found, hrest⟩))
      · cases h

instance (value : Json) (steps : List JsonPathStep) : Decidable (Reaches value steps) :=
  decidable_of_iff _ (reaches_iff value steps).symm

/-- Each indexed step has an array for its parent, as MySQL finds the parent. -/
def ArraysAlong (value : Json) (steps : List JsonPathStep) : Prop :=
  ∀ front index rest, steps = front ++ .element index :: rest → ∃ items, wrappedFind value front = some (.array items)

theorem wrappedFind_append (value : Json) (front rest : List JsonPathStep) :
    wrappedFind value (front ++ rest) = (wrappedFind value front).bind fun value => wrappedFind value rest := by
  induction front generalizing value with
  | nil => rfl
  | cons step front ih =>
    cases step with
    | member key =>
      cases value with
      | object fields =>
        rw [List.cons_append, wrappedFind, wrappedFind, Option.bind_assoc]
        exact congrArg _ (funext fun value => ih value)
      | _ => rfl
    | element index =>
      cases value with
      | array items =>
        rw [List.cons_append, wrappedFind, wrappedFind, Option.bind_assoc]
        exact congrArg _ (funext fun value => ih value)
      | _ =>
        rw [List.cons_append, wrappedFind, wrappedFind]
        · split_ifs
          · exact ih _
          · rfl
        all_goals exact fun _ h => by cases h

/-- Where a step leads from `value` to `next`, the arrays along the path are those along the rest. -/
theorem arraysAlong_cons {value next : Json} {step : JsonPathStep} {steps : List JsonPathStep}
    (hnext : ∀ rest, wrappedFind value (step :: rest) = wrappedFind next rest)
    (harray : ∀ index, step = .element index → ∃ items, value = .array items) :
    ArraysAlong value (step :: steps) ↔ ArraysAlong next steps := by
  constructor
  · rintro h front index rest rfl
    obtain ⟨items, hitems⟩ := h (step :: front) index rest rfl
    exact ⟨items, hnext front ▸ hitems⟩
  · intro h front index rest heq
    cases front with
    | nil =>
      obtain ⟨items, hitems⟩ := harray index (List.cons.inj heq).1
      exact ⟨items, congrArg some hitems⟩
    | cons other front =>
      obtain ⟨rfl, htail⟩ := List.cons.inj heq
      rw [hnext]
      exact h front index rest htail

/-- The guards leave of what MySQL finds what is found strictly. -/
theorem strictFind_isSome_iff (value : Json) (steps : List JsonPathStep) :
    (strictFind value steps).isSome = true ↔ (wrappedFind value steps).isSome = true ∧ ArraysAlong value steps := by
  induction steps generalizing value with
  | nil => exact iff_of_true rfl ⟨rfl, fun front _ _ h => absurd h (by simp)⟩
  | cons step steps ih =>
    cases step with
    | member key =>
      cases value with
      | object fields =>
        rw [strictFind, wrappedFind]
        cases hlookup : fields.lookup key with
        | none => exact iff_of_false Bool.false_ne_true fun h => Bool.false_ne_true h.1
        | some next =>
          rw [Option.bind_some, Option.bind_some, ih, @arraysAlong_cons _ next]
          · intro rest
            rw [wrappedFind, hlookup, Option.bind_some]
          · exact fun _ h => by cases h
      | _ => exact iff_of_false Bool.false_ne_true fun h => Bool.false_ne_true h.1
    | element index =>
      cases value with
      | array items =>
        rw [strictFind, wrappedFind]
        cases hindex : items[index.toNat]? with
        | none => exact iff_of_false Bool.false_ne_true fun h => Bool.false_ne_true h.1
        | some next =>
          rw [Option.bind_some, Option.bind_some, ih, @arraysAlong_cons _ next]
          · intro rest
            rw [wrappedFind, hindex, Option.bind_some]
          · exact fun _ _ => ⟨items, rfl⟩
      | _ =>
        -- the value itself is no array, which the first guard finds
        refine iff_of_false Bool.false_ne_true fun h => ?_
        obtain ⟨items, hitems⟩ := h.2 [] index steps rfl
        cases hitems

end Paths

section Guards

theorem mem_arrayGuards_iff (steps : List JsonPathStep) (guard : PathTest × List Char) : guard ∈ arrayGuards steps ↔
    ∃ front index rest, steps = front ++ .element index :: rest ∧ guard = (.arrayAt, jsonPathText front) := by
  unfold arrayGuards
  simp only [List.mem_filterMap, Prod.exists, List.mem_zipIdx_iff_getElem?]
  constructor
  · rintro ⟨step, position, hstep, hguard⟩
    cases step with
    | member key => cases hguard
    | element index =>
      obtain ⟨hlt, hget⟩ := List.getElem?_eq_some_iff.1 hstep
      refine ⟨steps.take position, index, steps.drop (position + 1), ?_, (Option.some.inj hguard).symm⟩
      rw [← hget, List.getElem_cons_drop, List.take_append_drop]
  · rintro ⟨front, index, rest, rfl, rfl⟩
    exact ⟨.element index, front.length, by simp, by simp⟩

variable (engines : Engines)

theorem guard_truth (value : Json) {front : List JsonPathStep} (hread : ∀ step ∈ front, engines.mysql.covers step) :
    PathTest.truth engines (some value) (jsonPathText front) .arrayAt =
      (wrappedFind value front).map fun parent => MysqlJson.jsonType parent == "ARRAY" := by
  rw [PathTest.truth, Option.bind_some, engines.mysql.reads _ hread, Option.bind_some, MysqlJson.guardTest, MysqlJson.TypeTest.truth,
    Option.or_none, Option.map_map]
  exact Option.map_congr fun parent _ => Bool.xor_false _

theorem jsonType_array_iff (value : Json) : (MysqlJson.jsonType value == "ARRAY") = true ↔ ∃ items, value = .array items := by
  cases value with
  | array items => exact iff_of_true rfl ⟨items, rfl⟩
  | number n => cases n <;> exact iff_of_false (by simp [MysqlJson.jsonType]) fun ⟨_, h⟩ => by cases h
  | _ => exact iff_of_false (by simp [MysqlJson.jsonType]) fun ⟨_, h⟩ => by cases h

/-- MySQL's path test and its guards, of a document. -/
theorem mysql_truth (value : Json) {steps : List JsonPathStep} (hread : ∀ step ∈ steps, engines.mysql.covers step) :
    Kleene.all (((PathTest.containsPath, jsonPathText steps) :: arrayGuards steps).map fun test =>
      test.1.truth engines (some value) test.2) = some (decide (Reaches value steps)) := by
  have hcontains : PathTest.truth engines (some value) (jsonPathText steps) .containsPath =
      some (wrappedFind value steps).isSome := by
    rw [PathTest.truth, Option.map_some, engines.mysql.reads _ hread, Option.bind_some]
  rw [List.map_cons, Kleene.all_cons, hcontains]
  cases hfound : (wrappedFind value steps).isSome with
  | false =>
    have hnot : ¬Reaches value steps := fun h =>
      Bool.false_ne_true (hfound.symm.trans ((strictFind_isSome_iff value steps).1 ((reaches_iff value steps).1 h)).1)
    rw [decide_eq_false hnot]
    cases Kleene.all _ with
    | none => rfl
    | some b => cases b <;> rfl
  | true =>
    -- what is found has been found at every prefix, so every guard answers
    have hprefix {front rest : List JsonPathStep} {index : UInt64} (heq : steps = front ++ .element index :: rest) :
        ∃ parent, wrappedFind value front = some parent := by
      rw [heq, wrappedFind_append] at hfound
      cases hparent : wrappedFind value front with
      | none => rw [hparent] at hfound; cases hfound
      | some parent => exact ⟨parent, rfl⟩
    have hfront {front rest : List JsonPathStep} {index : UInt64} (heq : steps = front ++ .element index :: rest) :
        ∀ step ∈ front, engines.mysql.covers step := fun step hstep => hread step (heq ▸ List.mem_append_left _ hstep)
    have hguards : ∀ truth ∈ (arrayGuards steps).map fun test => test.1.truth engines (some value) test.2, truth.isSome := by
      intro truth htruth
      obtain ⟨guard, hguard, rfl⟩ := List.mem_map.1 htruth
      obtain ⟨front, index, rest, heq, rfl⟩ := (mem_arrayGuards_iff steps guard).1 hguard
      obtain ⟨parent, hparent⟩ := hprefix heq
      rw [guard_truth engines value (hfront heq), hparent]
      rfl
    have hreaches : Kleene.all ((arrayGuards steps).map fun test => test.1.truth engines (some value) test.2) = some true ↔
        Reaches value steps := by
      rw [Kleene.all_true_iff, reaches_iff, strictFind_isSome_iff, hfound, List.forall_mem_map]
      constructor
      · intro h
        refine ⟨rfl, fun front index rest heq => ?_⟩
        obtain ⟨parent, hparent⟩ := hprefix heq
        have htruth := h _ ((mem_arrayGuards_iff steps _).2 ⟨front, index, rest, heq, rfl⟩)
        rw [guard_truth engines value (hfront heq), hparent, Option.map_some, Option.some_inj, jsonType_array_iff] at htruth
        obtain ⟨items, rfl⟩ := htruth
        exact ⟨items, hparent⟩
      · intro h guard hguard
        obtain ⟨front, index, rest, heq, rfl⟩ := (mem_arrayGuards_iff steps guard).1 hguard
        obtain ⟨items, hitems⟩ := h.2 front index rest heq
        rw [guard_truth engines value (hfront heq), hitems, Option.map_some, (jsonType_array_iff _).2 ⟨items, rfl⟩]
    obtain ⟨holds, hholds⟩ := Option.isSome_iff_exists.1 (Kleene.all_isSome hguards)
    rw [hholds] at hreaches ⊢
    rw [Option.some_inj] at hreaches
    cases holds with
    | true => rw [decide_eq_true (hreaches.1 rfl)]; rfl
    | false => rw [decide_eq_false fun h => Bool.false_ne_true (hreaches.2 h)]; rfl

end Guards

section Rendering

theorem mysqlExists_eq (columnSql : String) (steps : List JsonPathStep) : mysqlExists columnSql steps =
    ("JSON_CONTAINS_PATH(" ++ columnSql ++ ", 'one', " ++ "?" ++ ")" ++
        String.join ((arrayGuards steps).map fun _ => " AND " ++ MysqlJson.guardSql columnSql .array),
      jsonPathText steps :: (arrayGuards steps).map Prod.snd) := by
  -- a step that adds what a filter keeps
  have hfold {step : String × List (List Char) → JsonPathStep × ℕ → String × List (List Char)}
      {guard : JsonPathStep × ℕ → Option (PathTest × List Char)}
      (hnone : ∀ acc entry, guard entry = none → step acc entry = acc)
      (hsome : ∀ acc entry test, guard entry = some test →
        step acc entry = (acc.1 ++ " AND " ++ MysqlJson.guardSql columnSql .array, acc.2 ++ [test.2]))
      (entries : List (JsonPathStep × ℕ)) (acc : String × List (List Char)) :
      entries.foldl step acc =
        (acc.1 ++ String.join ((entries.filterMap guard).map fun _ => " AND " ++ MysqlJson.guardSql columnSql .array),
          acc.2 ++ (entries.filterMap guard).map Prod.snd) := by
    induction entries generalizing acc with
    | nil => simp
    | cons entry entries ih =>
      rw [List.foldl_cons, ih]
      cases hguard : guard entry with
      | none => rw [hnone acc entry hguard, List.filterMap_cons_none hguard]
      | some test =>
        rw [hsome acc entry test hguard, List.filterMap_cons_some hguard]
        simp [String.append_assoc]
  unfold mysqlExists arrayGuards
  refine hfold (fun acc entry hguard => ?_) (fun acc entry test hguard => ?_) steps.zipIdx _
  · obtain ⟨_ | _, index⟩ := entry
    · rfl
    · cases hguard
  · obtain ⟨_ | _, index⟩ := entry
    · cases hguard
    · cases hguard
      rfl

variable (db : DatabaseType) (columnSql : String)

def pieceSql (piece : String ⊕ List Char) : String := piece.elim id fun _ => placeholder db

/-- A test with its placeholder. -/
def testSql (test : PathTest) : String := (test.sql columnSql).1 ++ placeholder db ++ (test.sql columnSql).2

theorem testSql_arrayAt (h : placeholder db = "?") : testSql db columnSql .arrayAt =
    "JSON_TYPE(JSON_EXTRACT(" ++ columnSql ++ ", " ++ "?" ++ ("))" ++ " = '" ++ "ARRAY" ++ "'") := by
  unfold testSql
  rw [h]
  unfold PathTest.sql
  with_reducible rfl

theorem guardSql_array (h : placeholder db = "?") : MysqlJson.guardSql columnSql .array = testSql db columnSql .arrayAt := by
  have hguard : MysqlJson.guardSql columnSql .array =
      "JSON_TYPE(JSON_EXTRACT(" ++ columnSql ++ ", ?))" ++ " = '" ++ "ARRAY" ++ "'" := by
    unfold MysqlJson.guardSql MysqlJson.guardTest MysqlJson.TypeTest.sql
    dsimp only [Option.elim_none]
    rw [if_neg Bool.false_ne_true]
  have hliteral : ", ?))" = ", " ++ ("?" ++ "))") := by decide
  rw [hguard, testSql_arrayAt db columnSql h, hliteral]
  simp only [String.append_assoc]

theorem sql_testPieces (test : PathTest × List Char) :
    String.join ((ExistsTest.testPieces columnSql test).map (pieceSql db)) = testSql db columnSql test.1 := by
  simp only [ExistsTest.testPieces, List.map_cons, List.map_nil, pieceSql, Sum.elim_inl, Sum.elim_inr, id_eq,
    String.join_cons, String.join_nil, String.append_empty, testSql, String.append_assoc]

theorem sql_restPieces (tests : List (PathTest × List Char)) :
    String.join ((tests.flatMap fun test => .inl " AND " :: ExistsTest.testPieces columnSql test).map (pieceSql db)) =
      String.join (tests.map fun test => " AND " ++ testSql db columnSql test.1) := by
  induction tests with
  | nil => rfl
  | cons test tests ih =>
    rw [List.flatMap_cons, List.map_append, List.map_cons, String.join_append, String.join_cons, sql_testPieces, ih,
      List.map_cons, String.join_cons]
    rfl

theorem binds_restPieces (tests : List (PathTest × List Char)) :
    (tests.flatMap fun test => .inl " AND " :: ExistsTest.testPieces columnSql test).filterMap Sum.getRight? = tests.map Prod.snd := by
  induction tests with
  | nil => rfl
  | cons test tests ih =>
    rw [List.flatMap_cons, List.filterMap_append, ih]
    rfl

theorem sql_eq (test : ExistsTest) : test.sql db columnSql =
    negate test.negated (
      let tests := testSql db columnSql test.first.1 ++
        String.join (test.rest.map fun test => " AND " ++ testSql db columnSql test.1)
      if test.unlessNull then unknownWhenNull columnSql tests else tests) := by
  have hpiece (sql : String) : pieceSql db (.inl sql) = sql := rfl
  have hrest := sql_restPieces db columnSql test.rest
  have hfirst := sql_testPieces db columnSql test.first
  show String.join ((test.pieces columnSql).map (pieceSql db)) = _
  unfold ExistsTest.pieces negate unknownWhenNull
  dsimp only
  split_ifs <;>
    simp only [List.map_append, List.map_cons, List.map_nil, List.cons_append, String.join_append, String.join_cons,
      String.join_nil, hpiece, hfirst, hrest, String.append_assoc, String.append_empty]

theorem binds_eq (test : ExistsTest) : test.binds columnSql = test.first.2 :: test.rest.map Prod.snd := by
  have hrest := binds_restPieces columnSql test.rest
  unfold ExistsTest.binds ExistsTest.pieces
  split_ifs <;>
    simp only [ExistsTest.testPieces, List.filterMap_append, List.filterMap_cons, List.filterMap_nil, List.cons_append,
      List.nil_append, List.append_nil, Sum.getRight?_inl, Sum.getRight?_inr] at hrest ⊢ <;>
    simp only [hrest]

/-- Each text is bound where its placeholder stands. -/
theorem jsonExistsBound_eq (existence : JsonExistence) (target : String) (negated : Bool) :
    jsonExistsBound db columnSql existence target negated =
      (existsTest db existence target negated).map fun test => (test.sql db columnSql, test.binds columnSql) := by
  have hnull (test : PathTest × List Char) : (ExistsTest.sql ⟨test, [], true, negated⟩ db columnSql,
      ExistsTest.binds ⟨test, [], true, negated⟩ columnSql) =
        (negate negated (unknownWhenNull columnSql (testSql db columnSql test.1)), [test.2]) := by
    rw [sql_eq, binds_eq]
    dsimp only
    rw [if_pos rfl, List.map_nil, List.map_nil, String.join_nil, String.append_empty]
  have hplain (test : PathTest × List Char) : (ExistsTest.sql ⟨test, [], false, negated⟩ db columnSql,
      ExistsTest.binds ⟨test, [], false, negated⟩ columnSql) = (negate negated (testSql db columnSql test.1), [test.2]) := by
    rw [sql_eq, binds_eq]
    dsimp only
    rw [if_neg Bool.false_ne_true, List.map_nil, List.map_nil, String.join_nil, String.append_empty]
  have hmysql (steps : List JsonPathStep) (hdb : placeholder db = "?") :
      (negate negated (mysqlExists columnSql steps).1, (mysqlExists columnSql steps).2) =
        (ExistsTest.sql ⟨(.containsPath, jsonPathText steps), arrayGuards steps, false, negated⟩ db columnSql,
          ExistsTest.binds ⟨(.containsPath, jsonPathText steps), arrayGuards steps, false, negated⟩ columnSql) := by
    have hguards : (arrayGuards steps).map (fun test => " AND " ++ testSql db columnSql test.1) =
        (arrayGuards steps).map fun _ => " AND " ++ MysqlJson.guardSql columnSql .array := by
      refine List.map_congr_left fun test htest => ?_
      obtain ⟨_, _, _, _, rfl⟩ := (mem_arrayGuards_iff steps test).1 htest
      rw [guardSql_array db columnSql hdb]
    rw [sql_eq, binds_eq]
    dsimp only
    rw [if_neg Bool.false_ne_true, hguards, mysqlExists_eq]
    unfold testSql
    rw [hdb]
    unfold PathTest.sql
    with_reducible rfl
  unfold jsonExistsBound existsBound existsTest
  cases hsteps : targetSteps existence target with
  | none =>
    cases existence with
    | key => cases hsteps
    | path =>
      cases db with
      | postgres =>
        dsimp only
        rw [Option.map_some, Option.map_some, hplain]
        unfold testSql PathTest.sql placeholder
        with_reducible rfl
      | _ => rfl
  | some steps =>
    cases db with
    | mySql | mariaDb =>
      have hbuilt := hmysql steps rfl
      dsimp only
      rw [Option.map_some, Option.map_some, ← hbuilt]
    | sqlite =>
      dsimp only
      rw [Option.map_some, Option.map_some, hnull]
      unfold testSql PathTest.sql placeholder
      with_reducible rfl
    | postgres =>
      cases existence with
      | key =>
        dsimp only
        rw [Option.map_some, Option.map_some, hnull]
        unfold testSql PathTest.sql placeholder
        with_reducible rfl
      | path =>
        dsimp only
        rw [Option.map_some, Option.map_some, hnull]
        unfold testSql PathTest.sql placeholder
        with_reducible rfl

end Rendering

section Meaning

variable (engines : Engines)

theorem decide_reaches (value : Json) (steps : List JsonPathStep) :
    decide (Reaches value steps) = (strictFind value steps).isSome := by
  rw [Bool.eq_iff_iff, decide_eq_true_iff, reaches_iff]

theorem hasType_truth (value : Json) {steps : List JsonPathStep} (hread : ∀ step ∈ steps, engines.sqlite.covers step) :
    PathTest.truth engines (some value) (jsonPathText steps) .hasType = some (decide (Reaches value steps)) := by
  rw [PathTest.truth, Option.bind_some, engines.sqlite.reads _ hread, Option.bind_some, decide_reaches]

theorem matchOrFalse_truth (value : Json) {steps : List JsonPathStep} (hread : ∀ step ∈ steps, engines.postgres.covers step) :
    PathTest.truth engines (some value) ("strict ".toList ++ jsonPathText steps) .matchOrFalse =
      some (decide (Reaches value steps)) := by
  have hprefix : "strict ".toList.isPrefixOf ("strict ".toList ++ jsonPathText steps) = true :=
    List.isPrefixOf_iff_prefix.2 (List.prefix_append _ _)
  have hdrop : ("strict ".toList ++ jsonPathText steps).drop 7 = jsonPathText steps := rfl
  rw [PathTest.truth, Option.bind_some, Engines.matchPath, if_pos hprefix, hdrop, engines.postgres.reads _ hread, Option.bind_some,
    decide_reaches]
  cases strictFind value steps with
  | none => rfl
  | some found => rfl

theorem hasKey_truth (value : Json) (key : String) :
    PathTest.truth engines (some value) key.toList .hasKey = some (decide (Reaches value [.member key])) := by
  rw [PathTest.truth, Option.bind_some, String.ofList_toList, decide_reaches]
  cases value with
  | object fields =>
    have hfind : strictFind (.object fields) [.member key] = fields.lookup key := by
      rw [strictFind]
      exact Option.bind_fun_some _
    rw [hfind, JsonExists.hasKey]
    cases fields.lookup key with
    | none => rfl
    | some found => rfl
  | number n => cases n <;> rfl
  | _ => rfl

/-- What the tests are of a column once they are settled for documents. -/
theorem truth_of {test : ExistsTest} {steps : List JsonPathStep}
    (hnone : test.unlessNull = true ∨
      Kleene.all ((test.first :: test.rest).map fun test => test.1.truth engines none test.2) = none)
    (hsome : ∀ value, Kleene.all ((test.first :: test.rest).map fun test => test.1.truth engines (some value) test.2) =
      some (decide (Reaches value steps))) (column : Option Json) :
    test.truth engines column =
      let exist : Kleene := column.map fun value => decide (Reaches value steps)
      if test.negated then Kleene.not exist else exist := by
  cases column with
  | none =>
    have hunknown : (if test.unlessNull = true ∧ (none : Option Json).isNone = true then none else
        Kleene.all ((test.first :: test.rest).map fun test => test.1.truth engines none test.2)) = none := by
      rcases hnone with hnull | hall
      · exact if_pos ⟨hnull, rfl⟩
      · rw [hall, ite_self]
    unfold ExistsTest.truth
    dsimp only
    rw [hunknown]
    rfl
  | some value =>
    have hknown : (if test.unlessNull = true ∧ (some value).isNone = true then none else
        Kleene.all ((test.first :: test.rest).map fun test => test.1.truth engines (some value) test.2)) =
          some (decide (Reaches value steps)) := by
      rw [if_neg fun h => Bool.false_ne_true h.2, hsome]
    unfold ExistsTest.truth
    dsimp only
    rw [hknown]
    rfl

theorem existsTest_truth {existence : JsonExistence} {target : String} {steps : List JsonPathStep}
    (h : targetSteps existence target = some steps) (db : DatabaseType)
    (hread : ∀ step ∈ steps, (engines.reader db).covers step) (negated : Bool) :
    ∃ test, existsTest db existence target negated = some test ∧ ∀ column, test.truth engines column =
      let exist : Kleene := column.map fun value => decide (Reaches value steps)
      if negated then Kleene.not exist else exist := by
  have hone (a : Kleene) : Kleene.all [a] = a := by cases a with | none => rfl | some b => cases b <;> rfl
  have hmysql (hread : ∀ step ∈ steps, engines.mysql.covers step) :=
    @truth_of engines ⟨(.containsPath, jsonPathText steps), arrayGuards steps, false, negated⟩ steps
    (.inr (Kleene.all_none (by
      rw [List.forall_mem_cons, List.forall_mem_map]
      refine ⟨rfl, fun guard hguard => ?_⟩
      obtain ⟨_, _, _, _, rfl⟩ := (mem_arrayGuards_iff steps guard).1 hguard
      rfl))) (fun value => mysql_truth engines value hread)
  unfold existsTest
  rw [h]
  cases db with
  | mySql | mariaDb => exact ⟨_, rfl, hmysql hread⟩
  | sqlite =>
    refine ⟨_, rfl, truth_of engines (.inl rfl) fun value => ?_⟩
    rw [List.map_singleton, hone, hasType_truth engines value hread]
  | postgres =>
    cases existence with
    | key =>
      obtain rfl := Option.some.inj h
      refine ⟨_, rfl, truth_of engines (.inl rfl) fun value => ?_⟩
      rw [List.map_singleton, hone, hasKey_truth]
    | path =>
      refine ⟨_, rfl, truth_of engines (.inl rfl) fun value => ?_⟩
      rw [List.map_singleton, hone, matchOrFalse_truth engines value hread]

end Meaning

/-- Every backend's test, and its negation, is what following the steps strictly says, unknown for a NULL
column, where the backend reads such steps; it binds its texts in the order of their placeholders. -/
theorem json_exists_alike (engines : Engines) {existence : JsonExistence} {target : String} {steps : List JsonPathStep}
    (h : targetSteps existence target = some steps) (db : DatabaseType) (hread : ∀ step ∈ steps, (engines.reader db).covers step)
    (columnSql : String) (negated : Bool) :
    ∃ test, existsTest db existence target negated = some test ∧
      jsonExistsBound db columnSql existence target negated = some (test.sql db columnSql, test.binds columnSql) ∧
      ∀ column : Option MysqlJson.Document, test.truth engines (column.map MysqlJson.Document.value) =
        let exist : Kleene := column.map fun document => decide (Reaches document.value steps)
        if negated then Kleene.not exist else exist := by
  obtain ⟨test, htest, htruth⟩ := existsTest_truth engines h db hread negated
  refine ⟨test, htest, ?_, fun column => ?_⟩
  · rw [jsonExistsBound_eq, htest, Option.map_some]
  · rw [htruth, Option.map_map]
    rfl

/-- The paths are read as the repository reads them, if no key has a NUL and every index 32 bits. -/
def ownReader : PathReader where
  read := parseJsonPath
  covers
    | .member key => Char.ofNat 0 ∉ key.toList
    | .element index => index.toNat < UInt32.size
  reads steps _ := parseJsonPath_jsonPathText steps

/-- `$."a"[0]` does not exist in `{"a": 1}`, whose `1` MySQL takes for an array of one. -/
theorem json_exists_alike_wrapped :
    ∃ test, existsTest .mySql .path (String.ofList (jsonPathText [.member "a", .element 0])) true = some test ∧
      test.truth ⟨ownReader, ownReader, ownReader, fun _ _ => none⟩
        (some (.object [("a", .number (.posInt 1))])) = some true := by
  have h : targetSteps .path (String.ofList (jsonPathText [.member "a", .element 0])) = some [.member "a", .element 0] := by
    rw [targetSteps, String.toList_ofList, parseJsonPath_jsonPathText]
  have hkey : Char.ofNat 0 ∉ "a".toList := by decide
  have hindex : (0 : UInt64).toNat < UInt32.size := by decide
  have hread : ∀ step ∈ [JsonPathStep.member "a", .element 0], ownReader.covers step :=
    List.forall_mem_cons.2 ⟨hkey, List.forall_mem_singleton.2 hindex⟩
  obtain ⟨test, htest, -, htruth⟩ :=
    json_exists_alike ⟨ownReader, ownReader, ownReader, fun _ _ => none⟩ h .mySql hread "doc" true
  exact ⟨test, htest, htruth (some ⟨.object [("a", .number (.posInt 1))], by decide⟩)⟩

end TideOrm.JsonExists
