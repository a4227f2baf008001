import TideOrm.Sanity.CacheKey
import TideOrm.Proofs.SqlSafety

/-! Two queries that feed the hasher the same values render the same statement, but for what
the key leaves out: the row lock, the depth in `where_has` subqueries, whether a union arm is
raw, and the columns that scalar subqueries read. -/

namespace TideOrm

open Lib

/-- What two queries with one input have in common. -/
structure SelectQuery.SameInput {V : Type} (ctx : RenderContext V) (q q' : SelectQuery V) : Prop where
  conditions : q.clauses.conditions = q'.clauses.conditions
  orGroups : q.clauses.orGroups = q'.clauses.orGroups
  orderBy : q.clauses.orderBy = q'.clauses.orderBy
  limitValue : q.clauses.limitValue = q'.clauses.limitValue
  offsetValue : q.clauses.offsetValue = q'.clauses.offsetValue
  includeTrashed : q.clauses.includeTrashed = q'.clauses.includeTrashed
  onlyTrashed : q.clauses.onlyTrashed = q'.clauses.onlyTrashed
  selectColumns : q.clauses.selectColumns = q'.clauses.selectColumns
  rawSelectExpressions : q.clauses.rawSelectExpressions = q'.clauses.rawSelectExpressions
  subqueries : (q.clauses.subquerySelectExpressions.map fun subquery : SubquerySelect V =>
      (subquery.querySql, subquery.params, subquery.outputAlias)) =
    q'.clauses.subquerySelectExpressions.map fun subquery : SubquerySelect V =>
      (subquery.querySql, subquery.params, subquery.outputAlias)
  joins : q.clauses.joins = q'.clauses.joins
  groupBy : q.clauses.groupBy = q'.clauses.groupBy
  having : q.clauses.havingClauses ctx.builder = q'.clauses.havingClauses ctx.builder
  unions : (q.clauses.unions.map fun union : UnionClause V => (union.querySql, union.params, union.unionType)) =
    q'.clauses.unions.map fun union : UnionClause V => (union.querySql, union.params, union.unionType)
  ctes : q.clauses.ctes = q'.clauses.ctes
  windowFunctions : q.clauses.windowFunctions = q'.clauses.windowFunctions

section Read

variable {V : Type} {debug : V → String}

theorem hashOrGroups_eq (groups : List (OrGroup (WhereCondition V))) :
    hashOrGroups debug groups = groups.flatMap (hashOrGroup debug) := by
  induction groups with
  | nil => rfl
  | cons group groups ih => rw [hashOrGroups, List.flatMap_cons, ih]

variable (hdebug : Function.Injective debug)

include hdebug

theorem conditions_read {xs ys : List (WhereCondition V)} {r s : List Hashed}
    (hxs : ∀ condition ∈ xs, condition.value.held = true) (hys : ∀ condition ∈ ys, condition.value.held = true)
    (hr : ∀ t ∈ r.head?, ¬isStr t) (hs : ∀ t ∈ s.head?, ¬isStr t)
    (heq : xs.flatMap (hashWhereCondition debug) ++ r = ys.flatMap (hashWhereCondition debug) ++ s) :
    xs = ys ∧ r = s := by
  obtain ⟨hviews, hrest⟩ := (reads_whereCondition hdebug).flatMap_of_head (fun condition => ⟨_, _, rfl, trivial⟩)
    hxs hys hr hs heq
  exact ⟨by simpa using hviews, hrest⟩

theorem orGroups_read {xs ys : List (OrGroup (WhereCondition V))} {r s : List Hashed}
    (hxs : ∀ condition ∈ OrGroup.collectAll xs, condition.value.held = true)
    (hys : ∀ condition ∈ OrGroup.collectAll ys, condition.value.held = true)
    (hr : ∀ t ∈ r.head?, ¬isDiscriminant t) (hs : ∀ t ∈ s.head?, ¬isDiscriminant t)
    (heq : hashOrGroups debug xs ++ r = hashOrGroups debug ys ++ s) : xs = ys ∧ r = s := by
  have hmem : ∀ {groups : List (OrGroup (WhereCondition V))},
      (∀ condition ∈ OrGroup.collectAll groups, condition.value.held = true) →
      ∀ group ∈ groups, ∀ condition ∈ group.collectConditions, condition.value.held = true := by
    intro groups h
    induction groups with
    | nil => simp
    | cons group groups ih =>
      rw [OrGroup.collectAll, List.forall_mem_append] at h
      exact List.forall_mem_cons.2 ⟨h.1, ih h.2⟩
  have hgroup : ReadsBack (fun group : OrGroup (WhereCondition V) =>
      ∀ condition ∈ group.collectConditions, condition.value.held = true) (hashOrGroup debug) id :=
    hashOrGroup_reads hdebug
  rw [hashOrGroups_eq, hashOrGroups_eq] at heq
  obtain ⟨hviews, hrest⟩ := hgroup.flatMap_of_head
    (fun group => by cases group; exact ⟨_, _, rfl, trivial⟩) (hmem hxs) (hmem hys) hr hs heq
  exact ⟨by simpa using hviews, hrest⟩

theorem subqueries_read {xs ys : List (SubquerySelect V)} {r s : List Hashed}
    (hr : ∀ t ∈ r.head?, ¬isStr t) (hs : ∀ t ∈ s.head?, ¬isStr t)
    (heq : xs.flatMap (hashSubquery debug) ++ r = ys.flatMap (hashSubquery debug) ++ s) :
    (xs.map fun subquery => (subquery.querySql, subquery.params, subquery.outputAlias)) =
      (ys.map fun subquery => (subquery.querySql, subquery.params, subquery.outputAlias)) ∧ r = s :=
  (reads_subquery hdebug).flatMap_of_head (fun _ => ⟨_, _, rfl, trivial⟩) (fun _ _ => trivial)
    (fun _ _ => trivial) hr hs heq

end Read

section Input

variable {V : Type} {ctx : RenderContext V} {key : KeyContext V} {q q' : SelectQuery V}

theorem not_isStr_list {A : Type} (hash : A → List Hashed) (items : List A) (r : List Hashed) :
    ∀ t ∈ (hashList hash items ++ r).head?, ¬isStr t := by
  simp [hashList, isStr]

theorem not_isDiscriminant_list {A : Type} (hash : A → List Hashed) (items : List A) (r : List Hashed) :
    ∀ t ∈ (hashList hash items ++ r).head?, ¬isDiscriminant t := by
  simp [hashList, isDiscriminant]

theorem not_isStr_orGroups (groups : List (OrGroup (WhereCondition V))) {r : List Hashed}
    (hr : ∀ t ∈ r.head?, ¬isStr t) : ∀ t ∈ (hashOrGroups key.debug groups ++ r).head?, ¬isStr t := by
  cases groups with
  | nil => exact hr
  | cons group groups =>
    cases group
    simp [hashOrGroups, hashOrGroup, isStr]

/-- The input is read back part by part. -/
theorem sameInput (hdebug : Function.Injective key.debug) (hmodel : q.model = q'.model)
    (h : q.cacheKeyInput ctx key = q'.cacheKeyInput ctx key) : q.SameInput ctx q' := by
  have hconditions := List.forall_mem_append.1 q.held
  have hconditions' := List.forall_mem_append.1 q'.held
  unfold SelectQuery.cacheKeyInput at h
  rw [hmodel] at h
  replace h := List.append_cancel_left (List.cons.inj h).2
  replace h := List.append_cancel_left (List.cons.inj h).2
  obtain ⟨-, h⟩ := reads_option_id reads_str _ _ _ _ trivial trivial h
  obtain ⟨conditions, h⟩ := conditions_read hdebug hconditions.1 hconditions'.1
    (not_isStr_orGroups _ (not_isStr_list _ _ _)) (not_isStr_orGroups _ (not_isStr_list _ _ _)) h
  obtain ⟨orGroups, h⟩ := orGroups_read hdebug hconditions.2 hconditions'.2 (not_isDiscriminant_list _ _ _)
    (not_isDiscriminant_list _ _ _) h
  obtain ⟨orderBy, h⟩ := reads_list_id reads_orderTerm _ _ _ _ trivial trivial h
  obtain ⟨limitValue, h⟩ := reads_option_id reads_nat _ _ _ _ trivial trivial h
  obtain ⟨offsetValue, h⟩ := reads_option_id reads_nat _ _ _ _ trivial trivial h
  obtain ⟨includeTrashed, h⟩ := List.cons.inj h
  obtain ⟨onlyTrashed, h⟩ := List.cons.inj h
  obtain ⟨selectColumns, h⟩ := reads_option_id (reads_list_id reads_str) _ _ _ _ trivial trivial h
  obtain ⟨rawSelectExpressions, h⟩ := reads_list_id reads_str _ _ _ _ trivial trivial h
  obtain ⟨subqueries, h⟩ := subqueries_read hdebug (not_isStr_list _ _ _) (not_isStr_list _ _ _) h
  obtain ⟨joins, h⟩ := reads_list_id reads_join _ _ _ _ trivial trivial h
  obtain ⟨groupBy, h⟩ := reads_list_id reads_str _ _ _ _ trivial trivial h
  have hwindows : ∀ c : Clauses (sqlTypes V), AfterCtes (hashList hashWindow c.windowFunctions) :=
    fun c => ⟨_, _, rfl⟩
  have hctes : ∀ c : Clauses (sqlTypes V), AfterUnions key.debug
      (List.flatMap (hashCte key.debug) c.ctes ++ hashList hashWindow c.windowFunctions) :=
    fun c => ⟨c.ctes, _, hwindows c, rfl⟩
  have hunions : ∀ c : Clauses (sqlTypes V), AfterHaving key.debug
      (List.flatMap (hashUnion key.debug) c.unions ++
        (List.flatMap (hashCte key.debug) c.ctes ++ hashList hashWindow c.windowFunctions)) :=
    fun c => ⟨c.unions, _, hctes c, rfl⟩
  obtain ⟨having, h⟩ := having_read hdebug (hunions _) (hunions _) h
  obtain ⟨unions, h⟩ := unions_read hdebug (hctes _) (hctes _) h
  obtain ⟨ctes, h⟩ := ctes_read hdebug (hwindows _) (hwindows _) h
  obtain ⟨windowFunctions, -⟩ := reads_list_id reads_window _ _ [] [] trivial trivial (congrArg (· ++ []) h)
  exact ⟨conditions, orGroups, orderBy, limitValue, offsetValue, Hashed.bool.inj includeTrashed,
    Hashed.bool.inj onlyTrashed, selectColumns, rawSelectExpressions, subqueries, joins, groupBy, having, unions, ctes,
    windowFunctions⟩

end Input

section Render

variable {V : Type}

theorem bindAll_map {A B : Type} (render : ℕ → B → List Char) (values : B → List V) (f : A → B) (params : List V)
    (items : List A) : bindAll render values params (items.map f) =
      bindAll (fun offset a => render offset (f a)) (fun a => values (f a)) params items := by
  induction items generalizing params with
  | nil => rfl
  | cons a rest ih =>
    rw [List.map_cons, bindAll, bindAll, ih]

theorem isEmpty_of_map_eq {A B : Type} {f : A → B} {xs ys : List A} (h : xs.map f = ys.map f) :
    xs.isEmpty = ys.isEmpty := by
  rw [← List.isEmpty_map (f := f), h, List.isEmpty_map]

theorem havingClauses_isEmpty (builder : BuilderContext (sqlTypes V)) (c : Clauses (sqlTypes V)) :
    (c.havingClauses builder).isEmpty = c.havingConditions.isEmpty := by
  cases hconditions : c.havingConditions with
  | nil => simp [Clauses.havingClauses, hconditions]
  | cons clause rest => simp [Clauses.havingClauses, hconditions]

variable {ctx : RenderContext V} {q q' : SelectQuery V}

/-- The outputs of the projection name columns in the ORDER BY of a compound select only. -/
theorem slots_formatOrderByForDb (hunions : q.clauses.unions.isEmpty = true) (db : DatabaseType) (column : List Char)
    (direction : Order) :
    (q.slots ctx).formatOrderByForDb db column direction = q.nameSlots.formatOrderByForDb db column direction := by
  have hslots : (q.slots ctx).hasUnions = false := by
    rw [SelectQuery.slots, SelectQuery.nameSlots, hunions]
    rfl
  have hnames : q.nameSlots.hasUnions = false := hslots
  simp only [SlotQuery.formatOrderByForDb, hslots, hnames, Bool.false_and, Bool.false_eq_true, if_false]
  rfl

/-- What the key leaves out. -/
structure SelectQuery.SameRest (db : DatabaseType) (q q' : SelectQuery V) : Prop where
  model : q.model = q'.model
  selfJoinDepth : q.selfJoinDepth = q'.selfJoinDepth
  /-- there is no row lock on SQLite -/
  lock : db = .sqlite ∨ q.clauses.lockForUpdate = q'.clauses.lockForUpdate
  wildcard : q.readsTableWildcard = q'.readsTableWildcard
  /-- only the ORDER BY of a compound select is written by what its projection reads -/
  sources : q.clauses.unions.isEmpty = false →
    (q.clauses.subquerySelectExpressions.map SubquerySelect.source) =
      q'.clauses.subquerySelectExpressions.map SubquerySelect.source

variable {db : DatabaseType} (h : q.SameInput ctx q') (hrest : q.SameRest db q')

include h in
theorem unions_isEmpty_same : q.clauses.unions.isEmpty = q'.clauses.unions.isEmpty :=
  isEmpty_of_map_eq h.unions

include h in
theorem subqueries_isEmpty_same :
    q.clauses.subquerySelectExpressions.isEmpty = q'.clauses.subquerySelectExpressions.isEmpty :=
  isEmpty_of_map_eq h.subqueries

include h in
theorem rawProjection_same : q.rawProjection = q'.rawProjection := by
  rw [SelectQuery.rawProjection, SelectQuery.rawProjection, h.rawSelectExpressions]

include h in
theorem hasExplicitProjection_same : q.hasExplicitProjection = q'.hasExplicitProjection := by
  rw [SelectQuery.hasExplicitProjection, SelectQuery.hasExplicitProjection, h.selectColumns, subqueries_isEmpty_same h,
    rawProjection_same h]

include h in
theorem projectionIsClosed_same : q.projectionIsClosed = q'.projectionIsClosed := by
  rw [SelectQuery.projectionIsClosed, SelectQuery.projectionIsClosed, h.selectColumns, hasExplicitProjection_same h,
    h.rawSelectExpressions]

include h hrest

theorem nameSlots_same : q.nameSlots = q'.nameSlots := by
  rw [SelectQuery.nameSlots, SelectQuery.nameSlots, hrest.model, hrest.selfJoinDepth, h.joins,
    unions_isEmpty_same h]

theorem columnSource_same : q.columnSource = q'.columnSource := by
  funext reference
  rw [SelectQuery.columnSource, SelectQuery.columnSource, nameSlots_same h hrest, hrest.model]

theorem namedProjectionOutput_same : q.namedProjectionOutput = q'.namedProjectionOutput := by
  funext entry
  rw [SelectQuery.namedProjectionOutput, SelectQuery.namedProjectionOutput, columnSource_same h hrest, hrest.model]

theorem joinedColumnNames_same : q.joinedColumnNames ctx = q'.joinedColumnNames ctx := by
  have hqualifier : q.isModelTableQualifier = q'.isModelTableQualifier := by
    funext qualifier
    rw [SelectQuery.isModelTableQualifier, SelectQuery.isModelTableQualifier, hrest.model, h.joins]
  funext join
  rw [SelectQuery.joinedColumnNames, SelectQuery.joinedColumnNames, hqualifier, hrest.model]

theorem joinedWildcardOutputs_same : q.joinedWildcardOutputs ctx = q'.joinedWildcardOutputs ctx := by
  funext entry
  rw [SelectQuery.joinedWildcardOutputs, SelectQuery.joinedWildcardOutputs, joinedColumnNames_same h hrest, h.joins]

/-- Where it matters, the subqueries are the same in all. -/
theorem subqueries_same (hunions : q.clauses.unions.isEmpty = false) :
    q.clauses.subquerySelectExpressions = q'.clauses.subquerySelectExpressions := by
  have hsources := hrest.sources hunions
  have hviews := h.subqueries
  generalize q.clauses.subquerySelectExpressions = xs at hsources hviews
  generalize q'.clauses.subquerySelectExpressions = ys at hsources hviews
  change List (SubquerySelect V) at xs ys
  induction xs generalizing ys with
  | nil =>
    rw [List.map_nil, eq_comm, List.map_eq_nil_iff] at hviews
    exact hviews.symm
  | cons x xs ih =>
    cases ys with
    | nil => cases hviews
    | cons y ys =>
      obtain ⟨hview, hviews⟩ := List.cons.inj hviews
      obtain ⟨hsource, hsources⟩ := List.cons.inj hsources
      rw [ih ys hsources hviews]
      obtain ⟨sql, name, params, source⟩ := x
      obtain ⟨sql', name', params', source'⟩ := y
      simp only [Prod.mk.injEq] at hview
      obtain ⟨rfl, rfl, rfl⟩ := hview
      obtain rfl : source = source' := hsource
      rfl

theorem slots_same (hunions : q.clauses.unions.isEmpty = false) : q.slots ctx = q'.slots ctx := by
  have houtputs : q.projectionOutputs ctx = q'.projectionOutputs ctx := by
    rw [SelectQuery.projectionOutputs, SelectQuery.projectionOutputs, namedProjectionOutput_same h hrest,
      joinedWildcardOutputs_same h hrest, subqueries_same h hrest hunions, columnSource_same h hrest, h.selectColumns,
      rawProjection_same h, h.windowFunctions]
  rw [SelectQuery.slots, SelectQuery.slots, nameSlots_same h hrest, houtputs, projectionIsClosed_same h]

theorem formatOrderByForDb_same (column : List Char) (direction : Order) :
    (q.slots ctx).formatOrderByForDb db column direction = (q'.slots ctx).formatOrderByForDb db column direction := by
  cases hunions : q.clauses.unions.isEmpty with
  | false => rw [slots_same h hrest hunions]
  | true =>
    have hunions' := (unions_isEmpty_same h).symm.trans hunions
    rw [slots_formatOrderByForDb hunions, slots_formatOrderByForDb hunions', nameSlots_same h hrest]

/-- The other names are resolved without the projection. -/
theorem formatColumnForDb_same (column : List Char) :
    (q.slots ctx).formatColumnForDb db column = (q'.slots ctx).formatColumnForDb db column :=
  congrArg (fun slots => slots.formatColumnForDb db column) (nameSlots_same h hrest)

theorem formatSelectColumnForDb_same (table column : List Char) :
    (q.slots ctx).formatSelectColumnForDb db table column = (q'.slots ctx).formatSelectColumnForDb db table column :=
  congrArg (fun slots => slots.formatSelectColumnForDb db table column) (nameSlots_same h hrest)

theorem canonicalModelIdentifier_same (column : List Char) :
    (q.slots ctx).canonicalModelIdentifier column = (q'.slots ctx).canonicalModelIdentifier column :=
  congrArg (fun slots => slots.canonicalModelIdentifier column) (nameSlots_same h hrest)

omit hrest in
theorem subquerySql_same : bindAll (SelectQuery.subquerySql ctx db) SubquerySelect.params []
      q.clauses.subquerySelectExpressions =
    bindAll (SelectQuery.subquerySql ctx db) SubquerySelect.params [] q'.clauses.subquerySelectExpressions := by
  -- the text is written from what the key holds
  have hviews : ∀ subqueries : List (SubquerySelect V),
      bindAll (SelectQuery.subquerySql ctx db) SubquerySelect.params [] subqueries =
        bindAll (fun offset (view : String × List V × String) =>
          SelectQuery.subquerySql ctx db offset ⟨view.1, view.2.2, view.2.1, none⟩) (fun view => view.2.1) []
          (subqueries.map fun subquery => (subquery.querySql, subquery.params, subquery.outputAlias)) := by
    intro subqueries
    rw [bindAll_map]
    rfl
  exact (hviews _).trans ((congrArg _ h.subqueries).trans (hviews _).symm)

theorem windowSql_same : q.windowSql ctx db = q'.windowSql ctx db := by
  funext window
  simp only [SelectQuery.windowSql, canonicalModelIdentifier_same h hrest]

theorem buildSelectClauseSql_same : q.buildSelectClauseSql ctx db = q'.buildSelectClauseSql ctx db := by
  have hdefault : q.defaultProjection db = q'.defaultProjection db := by
    rw [SelectQuery.defaultProjection, SelectQuery.defaultProjection, hrest.model, hrest.wildcard]
  have hdistinct : q.clauses.isDistinct = q'.clauses.isDistinct := by
    rw [Clauses.isDistinct, Clauses.isDistinct, h.rawSelectExpressions]
  simp only [SelectQuery.buildSelectClauseSql, h.selectColumns, formatSelectColumnForDb_same h hrest, hrest.model,
    subquerySql_same h, rawProjection_same h, hdefault, h.windowFunctions, windowSql_same h hrest, hdistinct]

theorem fromAndJoinSql_same : q.fromAndJoinSql ctx db = q'.fromAndJoinSql ctx db := by
  have hjoin : q.joinSql ctx db = q'.joinSql ctx db := by
    funext join
    simp only [SelectQuery.joinSql, formatColumnForDb_same h hrest]
  rw [SelectQuery.fromAndJoinSql, SelectQuery.fromAndJoinSql, SelectQuery.quotedTable, SelectQuery.quotedTable,
    hrest.model, hjoin, h.joins]

theorem whereClause_same : q.whereClause ctx db = q'.whereClause ctx db := by
  have hscope : q.softDeleteScope ctx = q'.softDeleteScope ctx := by
    rw [SelectQuery.softDeleteScope, SelectQuery.softDeleteScope, h.onlyTrashed, h.includeTrashed]
  simp only [SelectQuery.whereClause, h.conditions, h.orGroups, hscope, hrest.model, hrest.selfJoinDepth, h.joins]

theorem groupByAndHavingSql_same (params : List V) :
    q.groupByAndHavingSql ctx db params = q'.groupByAndHavingSql ctx db params := by
  have hhaving : q.clauses.havingConditions.isEmpty = q'.clauses.havingConditions.isEmpty := by
    rw [← havingClauses_isEmpty ctx.builder, ← havingClauses_isEmpty ctx.builder, h.having]
  simp only [SelectQuery.groupByAndHavingSql, h.groupBy, formatColumnForDb_same h hrest, h.having, hhaving]

theorem buildBaseSelectSql_same : q.buildBaseSelectSql ctx db = q'.buildBaseSelectSql ctx db := by
  simp only [SelectQuery.buildBaseSelectSql, buildSelectClauseSql_same h hrest, fromAndJoinSql_same h hrest,
    whereClause_same h hrest, groupByAndHavingSql_same h hrest]

omit hrest in
theorem cteSql_same : q.cteSql ctx db = q'.cteSql ctx db := by
  rw [SelectQuery.cteSql, SelectQuery.cteSql, h.ctes]

omit hrest in
theorem unionSql_same (params : List V) : q.unionSql ctx db params = q'.unionSql ctx db params := by
  have hviews : ∀ unions : List (UnionClause V),
      bindAll (fun offset (union : UnionClause V) =>
          let operand := rebasePlaceholders ctx.chars db union.querySql.toList offset
          ' ' :: union.unionType.asSql.toList ++
            (if db = .sqlite then ' ' :: operand else " (".toList ++ operand ++ [')'])) UnionClause.params params unions =
        bindAll (fun offset (view : String × List V × UnionType) =>
          let operand := rebasePlaceholders ctx.chars db view.1.toList offset
          ' ' :: view.2.2.asSql.toList ++
            (if db = .sqlite then ' ' :: operand else " (".toList ++ operand ++ [')'])) (fun view => view.2.1) params
          (unions.map fun union => (union.querySql, union.params, union.unionType)) := by
    intro unions
    rw [bindAll_map]
  have hsame := (hviews _).trans ((congrArg _ h.unions).trans (hviews _).symm)
  rw [SelectQuery.unionSql, SelectQuery.unionSql, hsame]

theorem orderBySql_same : q.orderBySql ctx db = q'.orderBySql ctx db := by
  have hterm : q.orderTermSql ctx db = q'.orderTermSql ctx db := by
    funext term
    rw [SelectQuery.orderTermSql, SelectQuery.orderTermSql, formatOrderByForDb_same h hrest]
  rw [SelectQuery.orderBySql, SelectQuery.orderBySql, hterm, h.orderBy]

omit hrest in
theorem limitOffsetSql_same (params : List V) : q.limitOffsetSql ctx db params = q'.limitOffsetSql ctx db params := by
  simp only [SelectQuery.limitOffsetSql, h.limitValue, h.offsetValue]

theorem statement_same : q.buildSelectSqlWithParamsForDb ctx db = q'.buildSelectSqlWithParamsForDb ctx db := by
  have hlock : (q.clauses.lockForUpdate = true ∧ db ≠ .sqlite) = (q'.clauses.lockForUpdate = true ∧ db ≠ .sqlite) := by
    rcases hrest.lock with rfl | hlock
    · simp
    · rw [hlock]
  simp only [SelectQuery.buildSelectSqlWithParamsForDb, buildBaseSelectSql_same h hrest, cteSql_same h,
    unionSql_same h, orderBySql_same h hrest, limitOffsetSql_same h, hlock]

end Render

section Key

variable {V : Type} {ctx : RenderContext V} {key : KeyContext V} {q q' : SelectQuery V} {db : DatabaseType}

theorem key_separates (hdebug : Function.Injective key.debug) (hrest : q.SameRest db q')
    (h : q.cacheKeyInput ctx key = q'.cacheKeyInput ctx key) :
    q.buildSelectSqlWithParamsForDb ctx db = q'.buildSelectSqlWithParamsForDb ctx db :=
  statement_same (sameInput hdebug hrest.model h) hrest

/-! One model, queried with what the key leaves out and without it. -/

def keyedContext : RenderContext ℕ where
  chars := asciiTables
  builder := {
    formatColumn := id
    ownColumnType := fun _ => none
    registeredColumnType := fun _ _ => none
    isNull := fun _ => false
    numericHavingValue := fun _ => none
    jsonToColumnValue := fun _ _ => (0 : ℕ)
    validateHaving := fun _ => none
    softDeleteEnabled := false }
  registeredColumnNames := fun _ _ => []
  whereSql := fun _ _ _ _ _ _ => ([], [])
  bigInt := id

def selectedModel : ModelMeta := ⟨none, "users".toList, ["id".toList, "name".toList], ["id".toList, "name".toList]⟩

def keyedDebug : KeyContext ℕ := ⟨"User", .connection 1, fun n => String.ofList (List.replicate n '1')⟩

theorem keyedDebug_injective : Function.Injective keyedDebug.debug := by
  intro m n h
  have hlen := congrArg List.length (String.ofList_injective h)
  simpa using hlen

/-- A scalar subquery beside an arm that is not raw. -/
def scalarQuery (lock : Bool) (depth : ℕ) (source : Option (String × String)) : SelectQuery ℕ where
  model := selectedModel
  selfJoinDepth := depth
  clauses := {
    subquerySelectExpressions := [⟨"SELECT 1", "first", [], source⟩]
    groupBy := ["users.id"]
    orderBy := [("id", .asc)]
    unions := [⟨.unionAll, "SELECT 2", [], false⟩]
    lockForUpdate := lock }
  held := by intro condition hcondition; cases hcondition

/-- The model's own columns beside an arm. -/
def compoundQuery (raw : Bool) : SelectQuery ℕ where
  model := selectedModel
  selfJoinDepth := 0
  clauses := { unions := [⟨.unionAll, "SELECT id, name FROM users", [], raw⟩] }
  held := by intro condition hcondition; cases hcondition

theorem key_separates_scalarQuery : (scalarQuery true 0 none).buildSelectSqlWithParamsForDb keyedContext .sqlite =
    (scalarQuery false 0 none).buildSelectSqlWithParamsForDb keyedContext .sqlite :=
  key_separates keyedDebug_injective ⟨rfl, rfl, .inl rfl, rfl, fun _ => rfl⟩ (by decide +kernel)

/-- The lock, the depth, the column that a subquery reads and whether an arm is raw are in the
statement and not in the key. -/
theorem key_conflates :
    ((scalarQuery true 0 none).cacheKeyInput keyedContext keyedDebug =
        (scalarQuery false 0 none).cacheKeyInput keyedContext keyedDebug ∧
      (scalarQuery true 0 none).buildSelectSqlWithParamsForDb keyedContext .postgres ≠
        (scalarQuery false 0 none).buildSelectSqlWithParamsForDb keyedContext .postgres) ∧
    ((scalarQuery false 1 none).cacheKeyInput keyedContext keyedDebug =
        (scalarQuery false 0 none).cacheKeyInput keyedContext keyedDebug ∧
      (scalarQuery false 1 none).buildSelectSqlWithParamsForDb keyedContext .postgres ≠
        (scalarQuery false 0 none).buildSelectSqlWithParamsForDb keyedContext .postgres) ∧
    ((scalarQuery false 0 (some ("users", "id"))).cacheKeyInput keyedContext keyedDebug =
        (scalarQuery false 0 none).cacheKeyInput keyedContext keyedDebug ∧
      (scalarQuery false 0 (some ("users", "id"))).buildSelectSqlWithParamsForDb keyedContext .postgres ≠
        (scalarQuery false 0 none).buildSelectSqlWithParamsForDb keyedContext .postgres) ∧
    (compoundQuery true).cacheKeyInput keyedContext keyedDebug =
        (compoundQuery false).cacheKeyInput keyedContext keyedDebug ∧
      (compoundQuery true).buildSelectSqlWithParamsForDb keyedContext .postgres ≠
        (compoundQuery false).buildSelectSqlWithParamsForDb keyedContext .postgres := by
  decide +kernel

end Key

end TideOrm
