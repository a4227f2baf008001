import Mathlib.Data.Multiset.Fold
import TideOrm.Spec.CountQuery
import TideOrm.Proofs.SqlSafety

/-! `count()` counts the rows that the query returns, and `exists()` sees whether there is one,
exactly when the projection that they leave out does not matter. -/

namespace TideOrm

open Lib

namespace SelectQuery

section Projection

variable {V : Type} {ctx : RenderContext V} {M : SqlMeaning V} {db : DatabaseType} {q : SelectQuery V}

theorem rawProjection_selectsOne : q.selectsOne.rawProjection = ["1"] := by
  have hone : ("1" != distinctSelectMarker) = true := by decide
  simp [rawProjection, selectsOne, hone]

theorem isDistinct_selectsOne : q.selectsOne.clauses.isDistinct = false := by
  have hone : ("1" == distinctSelectMarker) = false := by decide
  simp [Clauses.isDistinct, selectsOne, hone]

theorem aliasedEntries_selectsOne : q.selectsOne.aliasedEntries = [] := by
  have hone : (splitAlias "1".toList).2.isSome = false := by decide +kernel
  have hnone : q.selectsOne.clauses.selectColumns = none := rfl
  rw [aliasedEntries, hnone, rawProjection_selectsOne, Option.getD_none, List.nil_append, List.filter_cons, hone,
    if_neg Bool.false_ne_true, List.filter_nil]

theorem not_explicit (h : q.hasExplicitProjection = false) :
    q.clauses.selectColumns = none ∧ q.clauses.subquerySelectExpressions = [] ∧ q.rawProjection = [] := by
  simpa [hasExplicitProjection, and_assoc] using h

theorem aliasedEntries_not_explicit (h : q.hasExplicitProjection = false) : q.aliasedEntries = [] := by
  obtain ⟨hcolumns, -, hraw⟩ := not_explicit h
  rw [aliasedEntries, hcolumns, hraw]
  rfl

theorem items_not_explicit (h : q.hasExplicitProjection = false) :
    q.items ctx M db = M.column q.clauses.ctes (q.defaultProjection db) :: q.windowItems ctx M db := by
  obtain ⟨hcolumns, hsubqueries, hraw⟩ := not_explicit h
  rw [items, hcolumns, hsubqueries, hraw]
  rfl

theorem items_selectsOne (h : q.clauses.subquerySelectExpressions = []) :
    q.selectsOne.items ctx M db = ⟨1, false, fun _ _ => [M.one]⟩ :: q.windowItems ctx M db := by
  have hnone : q.selectsOne.clauses.selectColumns = none := rfl
  have hsubqueries : q.selectsOne.clauses.subquerySelectExpressions = [] := h
  have hone : q.selectsOne.items ctx M db = M.expression q.clauses.ctes "1" :: q.windowItems ctx M db := by
    rw [items, hnone, hsubqueries, rawProjection_selectsOne]
    rfl
  rw [hone]
  exact congrArg (· :: q.windowItems ctx M db) (M.expression_one q.clauses.ctes)

/-- No marker and no raw expression. -/
theorem rawSelectExpressions_eq_nil :
    q.clauses.rawSelectExpressions = [] ↔ q.rawProjection = [] ∧ q.clauses.isDistinct = false := by
  constructor
  · intro h
    simp [rawProjection, Clauses.isDistinct, h]
  · intro ⟨hraw, hdistinct⟩
    rw [List.eq_nil_iff_forall_not_mem]
    intro expression hexpression
    rw [rawProjection, List.filter_eq_nil_iff] at hraw
    rw [Clauses.isDistinct, List.any_eq_false] at hdistinct
    have hmarker : expression = distinctSelectMarker := by simpa using hraw expression hexpression
    exact hdistinct expression hexpression (by rw [hmarker, beq_self_eq_true])

theorem having_eq_nil : (q.core ctx M db).having = [] ↔ q.clauses.havingConditions = [] := by
  have hclauses : q.clauses.havingClauses ctx.builder = [] ↔ q.clauses.havingConditions = [] := by
    rw [Clauses.havingClauses, List.mapIdx_eq_nil_iff]
  exact List.map_eq_nil_iff.trans hclauses

end Projection

section Statements

variable {V : Type} {ctx : RenderContext V} {M : SqlMeaning V} {db : DatabaseType} {q : SelectQuery V}

theorem countStatement_sql : q.countStatement.sql ctx db = q.buildCountSqlWithParamsForDb ctx db := by
  rw [countStatement, buildCountSqlWithParamsForDb]
  split_ifs <;> rfl

theorem existsStatement_sql : q.existsStatement.sql ctx db = q.buildExistsSqlWithParamsForDb ctx db := by
  rw [existsStatement, buildExistsSqlWithParamsForDb]
  split_ifs <;> rfl

theorem rows_of_no_unions (h : q.clauses.unions = []) : q.rows ctx M db = (q.core ctx M db).rows := by
  rw [rows, arms, h]
  rfl

theorem wellFormed_of_no_unions (h : q.clauses.unions = []) : q.wellFormed ctx M db := by
  intro union hunion
  rw [h] at hunion
  exact absurd hunion List.not_mem_nil

/-- Over one database, what a query reads does not depend on its order and page. -/
theorem rows_unpaged : q.unpaged.rows ctx M db = q.rows ctx M db := rfl

end Statements

section Reads

variable {V : Type} {ctx : RenderContext V} {M : SqlMeaning V} {db : DatabaseType} {q q' : SelectQuery V}

/-- What two queries that may select different entries read alike. -/
structure SameRows (q q' : SelectQuery V) : Prop where
  model : q'.model = q.model
  selfJoinDepth : q'.selfJoinDepth = q.selfJoinDepth
  joins : q'.clauses.joins = q.clauses.joins
  ctes : q'.clauses.ctes = q.clauses.ctes
  filter : q'.whereClause ctx db = q.whereClause ctx db
  groupBy : q'.clauses.groupBy = q.clauses.groupBy

variable (h : @SameRows V ctx db q q')

include h

theorem canonicalModelIdentifier_sameRows :
    (q'.slots ctx).canonicalModelIdentifier = (q.slots ctx).canonicalModelIdentifier := by
  funext identifier
  simp only [SlotQuery.canonicalModelIdentifier, slots, nameSlots, h.model, h.selfJoinDepth, h.joins]

theorem formatColumnForDb_sameRows : (q'.slots ctx).formatColumnForDb = (q.slots ctx).formatColumnForDb := by
  funext db column
  rw [SlotQuery.formatColumnForDb, SlotQuery.formatColumnForDb, canonicalModelIdentifier_sameRows h]

theorem source_sameRows : q'.source ctx M db = q.source ctx M db := by
  have hjoin : q'.joinSql ctx db = q.joinSql ctx db := by
    funext join
    simp only [joinSql, formatColumnForDb_sameRows h]
  have hfrom : q'.fromAndJoinSql ctx db = q.fromAndJoinSql ctx db := by
    rw [fromAndJoinSql, fromAndJoinSql, quotedTable, quotedTable, h.model, hjoin, h.joins]
  simp only [source, hfrom, h.filter, h.ctes]

theorem keys_sameRows : (q'.core ctx M db).keys = (q.core ctx M db).keys := by
  simp only [core, formatColumnForDb_sameRows h, h.groupBy, h.ctes]

omit h in
theorem sameRows_selectsOne : @SameRows V ctx db q q.unpaged.selectsOne := ⟨rfl, rfl, rfl, rfl, rfl, rfl⟩

end Reads

section Grouped

variable {V : Type} {ctx : RenderContext V} {M : SqlMeaning V} {db : DatabaseType} {q : SelectQuery V}

theorem countQuery_grouped (hgroup : q.clauses.groupBy ≠ []) (hexplicit : q.hasExplicitProjection = false) :
    q.countQuery = q.unpaged.selectsOne := by
  have hunpaged : q.unpaged.hasExplicitProjection = false := hexplicit
  have hkeys : q.unpaged.clauses.groupBy.isEmpty = false := by simpa [unpaged] using hgroup
  simp [countQuery, hunpaged, hkeys]

theorem countStatement_grouped (hgroup : q.clauses.groupBy ≠ []) (hexplicit : q.hasExplicitProjection = false) :
    q.countStatement = .countDerived q.unpaged.selectsOne := by
  rw [countStatement, countQuery_grouped hgroup hexplicit]
  simp [countsDirectly, selectsOne]

theorem kept_grouped (hgroup : q.clauses.groupBy ≠ []) (hexplicit : q.hasExplicitProjection = false) :
    (q.unpaged.selectsOne.core ctx M db).kept = (q.core ctx M db).kept := by
  have hhaving : (q.unpaged.selectsOne.core ctx M db).having = (q.core ctx M db).having := by
    have haliased : q.unpaged.selectsOne.aliasedEntries = q.aliasedEntries :=
      aliasedEntries_selectsOne.trans (aliasedEntries_not_explicit hexplicit).symm
    exact congrArg (fun entries => (q.clauses.havingClauses ctx.builder).map
      (M.having q.clauses.ctes entries q.clauses.subquerySelectExpressions)) haliased
  refine SelectCore.kept_congr (source_sameRows sameRows_selectsOne) (keys_sameRows sameRows_selectsOne) hhaving fun hnone => ?_
  exact absurd (List.map_eq_nil_iff.1 hnone) hgroup

theorem rows_grouped (hgroup : q.clauses.groupBy ≠ []) (hexplicit : q.hasExplicitProjection = false) :
    (q.unpaged.selectsOne.core ctx M db).rows = (q.core ctx M db).kept.map (q.constantRow ctx M db) := by
  have hkept := @kept_grouped V ctx M db q hgroup hexplicit
  have hdistinct : (q.unpaged.selectsOne.core ctx M db).isDistinct = false :=
    @isDistinct_selectsOne V q.unpaged
  rw [SelectCore.rows_of_not_distinct _ hdistinct, hkept]
  refine Multiset.map_congr rfl fun group _ => ?_
  have hitems : (q.unpaged.selectsOne.core ctx M db).items = _ := items_selectsOne (not_explicit hexplicit).2.1
  rw [SelectCore.row, hkept, hitems, List.flatMap_cons]
  rfl

theorem wellFormed_grouped (hexplicit : q.hasExplicitProjection = false) (h : q.wellFormed ctx M db) :
    q.unpaged.selectsOne.wellFormed ctx M db ↔
      (q.clauses.unions ≠ [] → (M.column q.clauses.ctes (q.defaultProjection db)).width = 1) := by
  have hwidth : (q.core ctx M db).width = (M.column q.clauses.ctes (q.defaultProjection db)).width +
      ((q.windowItems ctx M db).map SelectItem.width).sum := by
    have hitems : (q.core ctx M db).items = _ := items_not_explicit hexplicit
    rw [SelectCore.width, hitems, List.map_cons, List.sum_cons]
  have hone : (q.unpaged.selectsOne.core ctx M db).width = 1 + ((q.windowItems ctx M db).map SelectItem.width).sum := by
    have hitems : (q.unpaged.selectsOne.core ctx M db).items = _ := items_selectsOne (not_explicit hexplicit).2.1
    rw [SelectCore.width, hitems, List.map_cons, List.sum_cons]
    rfl
  constructor
  · intro hwell hunions
    obtain ⟨union, hunion⟩ := List.exists_mem_of_ne_nil _ hunions
    have hbase := h union hunion
    have hconstant : (M.arm q.clauses.ctes union).1 = _ := hwell union hunion
    omega
  · intro hdefault union hunion
    have hbase := h union hunion
    have hcolumn := hdefault (List.ne_nil_of_mem hunion)
    have hconstant : (M.arm q.clauses.ctes union).1 = (q.unpaged.selectsOne.core ctx M db).width := by omega
    exact hconstant

theorem count_grouped (hgroup : q.clauses.groupBy ≠ []) (hexplicit : q.hasExplicitProjection = false)
    (h : q.wellFormed ctx M db) :
    q.countStatement.wellFormed ctx M db ∧ q.countStatement.answer ctx M db = (q.rows ctx M db).card ↔
      (q.clauses.unions ≠ [] → (M.column q.clauses.ctes (q.defaultProjection db)).width = 1) ∧
        (mergedArms (q.arms M)).elim
          (q.clauses.isDistinct = true → ((q.core ctx M db).kept.map (q.core ctx M db).row).Nodup) fun others =>
            (newRows (q.core ctx M db).rows others).card =
              (newRows ((q.core ctx M db).kept.map (q.constantRow ctx M db)) others).card := by
  have hanswer : q.countStatement.answer ctx M db =
      (mergeArms ((q.core ctx M db).kept.map (q.constantRow ctx M db)) (q.arms M)).card := by
    rw [countStatement_grouped hgroup hexplicit, RowStatement.answer, rows, rows_grouped hgroup hexplicit]
    rfl
  have hwell : q.countStatement.wellFormed ctx M db = q.unpaged.selectsOne.wellFormed ctx M db := by
    rw [countStatement_grouped hgroup hexplicit]
    rfl
  rw [hwell, hanswer, wellFormed_grouped hexplicit h, rows, eq_comm, card_mergeArms_eq, Multiset.card_map]
  refine and_congr_right fun _ => ?_
  cases mergedArms (q.arms M) with
  | none => exact eq_comm.trans (q.core ctx M db).card_rows
  | some others => exact eq_comm

end Grouped

section Ungrouped

variable {V : Type} {ctx : RenderContext V} {M : SqlMeaning V} {db : DatabaseType} {q : SelectQuery V}

/-- With no group, no HAVING and no raw projection, the rows are one by one unless an entry aggregates. -/
theorem card_rows_ungrouped (hgroup : q.clauses.groupBy = []) (hhaving : q.clauses.havingConditions = []) :
    (q.core ctx M db).kept.card =
      if (q.items ctx M db).any SelectItem.aggregates then 1 else (q.source ctx M db).card :=
  SelectCore.card_kept (List.map_eq_nil_iff.2 hgroup) (having_eq_nil.2 hhaving)

theorem countsDirectly_iff : q.countsDirectly = true ↔
    q.clauses.unions = [] ∧ q.clauses.ctes = [] ∧ q.clauses.groupBy = [] ∧ q.clauses.havingConditions = [] ∧
      (q.rawProjection = [] ∧ q.clauses.isDistinct = false) ∧ q.clauses.lockForUpdate = false := by
  rw [← rawSelectExpressions_eq_nil]
  simp [countsDirectly, and_assoc]

theorem count_ungrouped (hgroup : ¬(q.clauses.groupBy ≠ [] ∧ q.hasExplicitProjection = false))
    (h : q.wellFormed ctx M db) :
    q.countStatement.wellFormed ctx M db ∧ q.countStatement.answer ctx M db = (q.rows ctx M db).card ↔
      (q.countsDirectly = true → (q.items ctx M db).any SelectItem.aggregates = true →
        (q.source ctx M db).card = 1) := by
  have hquery : q.countQuery = q.unpaged := by
    have hkeeps : (!q.unpaged.clauses.groupBy.isEmpty && !q.unpaged.hasExplicitProjection) = false := by
      by_contra hreplaces
      rw [Bool.not_eq_false, Bool.and_eq_true, Bool.not_eq_true', Bool.not_eq_true'] at hreplaces
      exact hgroup ⟨by simpa [unpaged] using hreplaces.1, hreplaces.2⟩
    rw [countQuery, hkeeps, if_neg Bool.false_ne_true]
  have hstatement : q.countStatement = if q.countsDirectly then .countDirect q.unpaged else .countDerived q.unpaged := by
    rw [countStatement, hquery]
    rfl
  rw [hstatement]
  by_cases hdirect : q.countsDirectly = true
  · obtain ⟨hunions, -, hkeys, hhaving, ⟨-, hdistinct⟩, -⟩ := countsDirectly_iff.1 hdirect
    have hrows : (q.rows ctx M db).card =
        if (q.items ctx M db).any SelectItem.aggregates then 1 else (q.source ctx M db).card := by
      rw [rows_of_no_unions hunions, SelectCore.rows_of_not_distinct _ hdistinct, Multiset.card_map,
        card_rows_ungrouped hkeys hhaving]
    have hanswer : (RowStatement.countDirect q.unpaged).answer ctx M db = (q.source ctx M db).card := rfl
    rw [if_pos hdirect, hanswer, hrows]
    split_ifs with haggregates
    · exact ⟨fun hcount _ _ => hcount.2, fun hcount => ⟨trivial, hcount hdirect haggregates⟩⟩
    · exact ⟨fun _ _ hnone => absurd hnone haggregates, fun _ => ⟨trivial, rfl⟩⟩
  · rw [if_neg hdirect]
    exact ⟨fun _ hcontra => absurd hcontra hdirect, fun _ => ⟨h, rfl⟩⟩

end Ungrouped

section Exists

variable {V : Type} {ctx : RenderContext V} {M : SqlMeaning V} {db : DatabaseType} {q : SelectQuery V}

theorem existsStatement_answer (query : SelectQuery V) :
    (if query.existsDirectly then RowStatement.existsDirect query else .existsDerived query).answer ctx M db =
      min 1 (query.rows ctx M db).card := by
  split_ifs with hdirect
  · have hunions : query.clauses.unions = [] := by
      simp only [existsDirectly, Bool.and_eq_true] at hdirect
      exact List.isEmpty_iff.1 hdirect.1.1
    rw [rows_of_no_unions hunions]
    rfl
  · rfl

theorem existsStatement_wellFormed (query : SelectQuery V) (h : query.wellFormed ctx M db) :
    (if query.existsDirectly then RowStatement.existsDirect query else .existsDerived query).wellFormed ctx M db := by
  split_ifs
  · trivial
  · exact h

theorem sameRows_constant : @SameRows V ctx db q q.unpaged.selectsOne.withoutSubqueriesAndWindows :=
  ⟨rfl, rfl, rfl, rfl, rfl, rfl⟩

theorem items_constant : (q.unpaged.selectsOne.withoutSubqueriesAndWindows.core ctx M db).items =
    [⟨1, false, fun _ _ => [M.one]⟩] :=
  @items_selectsOne V ctx M db q.unpaged.withoutSubqueriesAndWindows rfl

theorem having_constant (h : q.preservesProjection = false) :
    (q.unpaged.selectsOne.withoutSubqueriesAndWindows.core ctx M db).having = (q.core ctx M db).having := by
  by_cases hhaving : q.clauses.havingConditions = []
  · have hnone : (q.unpaged.selectsOne.withoutSubqueriesAndWindows.core ctx M db).having = [] :=
      having_eq_nil.2 hhaving
    rw [hnone, having_eq_nil.2 hhaving]
  · have hexplicit : q.hasExplicitProjection = false := by
      simp only [preservesProjection, Bool.or_eq_false_iff, Bool.and_eq_false_iff] at h
      exact h.2.resolve_left (by simpa using hhaving)
    have haliased : q.unpaged.selectsOne.withoutSubqueriesAndWindows.aliasedEntries = q.aliasedEntries :=
      (@aliasedEntries_selectsOne V q.unpaged).trans (aliasedEntries_not_explicit hexplicit).symm
    have hmap : ∀ query : SelectQuery V, (query.core ctx M db).having = (query.clauses.havingClauses ctx.builder).map
        (M.having query.clauses.ctes query.aliasedEntries query.clauses.subquerySelectExpressions) := fun _ => rfl
    rw [hmap, hmap, haliased, (not_explicit hexplicit).2.1]
    rfl

/-- A constant is selected for every group; without groups, for every row rather than for all of them at once. -/
theorem exists_constant (hunions : q.clauses.unions = []) (h : q.preservesProjection = false) :
    ((q.unpaged.selectsOne.withoutSubqueriesAndWindows.rows ctx M db).card = 0 ↔ (q.rows ctx M db).card = 0) ↔
      (q.clauses.groupBy = [] → q.clauses.havingConditions = [] →
        (q.items ctx M db).any SelectItem.aggregates = true → q.source ctx M db ≠ 0) := by
  have hnone : q.unpaged.selectsOne.withoutSubqueriesAndWindows.clauses.unions = [] := hunions
  rw [rows_of_no_unions hunions, rows_of_no_unions hnone, Multiset.card_eq_zero, Multiset.card_eq_zero,
    SelectCore.rows_eq_zero, SelectCore.rows_eq_zero]
  by_cases hplain : q.clauses.groupBy = [] ∧ q.clauses.havingConditions = []
  · obtain ⟨hkeys, hhaving⟩ := hplain
    have hconstant : (q.unpaged.selectsOne.withoutSubqueriesAndWindows.core ctx M db).kept.card =
        (q.source ctx M db).card := by
      have hcard : (q.unpaged.selectsOne.withoutSubqueriesAndWindows.core ctx M db).kept.card = _ :=
        SelectCore.card_kept (List.map_eq_nil_iff.2 hkeys) (having_eq_nil.2 hhaving)
      rw [hcard, items_constant, if_neg (by simp)]
      exact congrArg Multiset.card (source_sameRows sameRows_constant)
    rw [← Multiset.card_eq_zero, ← Multiset.card_eq_zero, hconstant, card_rows_ungrouped hkeys hhaving,
      Multiset.card_eq_zero]
    split_ifs with haggregates
    · simp [hkeys, hhaving, haggregates]
    · simp [haggregates]
  · have hkept : (q.unpaged.selectsOne.withoutSubqueriesAndWindows.core ctx M db).kept = (q.core ctx M db).kept := by
      refine SelectCore.kept_congr (source_sameRows sameRows_constant) (keys_sameRows sameRows_constant)
        (having_constant h) fun hkeys hhaving => ?_
      exact absurd ⟨List.map_eq_nil_iff.1 hkeys, having_eq_nil.1 hhaving⟩ hplain
    rw [hkept]
    exact ⟨fun _ hkeys hhaving => absurd ⟨hkeys, hhaving⟩ hplain, fun _ => Iff.rfl⟩

theorem exists_iff (h : q.wellFormed ctx M db) :
    q.existsStatement.wellFormed ctx M db ∧
        (q.existsStatement.answer ctx M db ≠ 0 ↔ 0 < (q.rows ctx M db).card) ↔
      (q.clauses.unions = [] → q.rawProjection = [] → q.clauses.groupBy = [] → q.clauses.havingConditions = [] →
        (q.items ctx M db).any SelectItem.aggregates = true → q.source ctx M db ≠ 0) := by
  have hanswer : q.existsStatement.answer ctx M db = min 1 (q.existsQuery.rows ctx M db).card :=
    existsStatement_answer q.existsQuery
  have hflag : (q.existsStatement.answer ctx M db ≠ 0 ↔ 0 < (q.rows ctx M db).card) ↔
      ((q.existsQuery.rows ctx M db).card = 0 ↔ (q.rows ctx M db).card = 0) := by
    rw [hanswer]
    omega
  rw [hflag]
  by_cases hdrops : q.clauses.unions = [] ∧ q.preservesProjection = false
  · obtain ⟨hunions, hpreserves⟩ := hdrops
    have hquery : q.existsQuery = q.unpaged.selectsOne.withoutSubqueriesAndWindows := by
      have hboth : (q.unpaged.clauses.unions.isEmpty && !q.unpaged.preservesProjection) = true := by
        rw [Bool.and_eq_true, Bool.not_eq_true']
        exact ⟨List.isEmpty_iff.2 hunions, hpreserves⟩
      rw [existsQuery, hboth, if_pos rfl]
    have hraw : q.rawProjection = [] := by
      simp only [preservesProjection, Bool.or_eq_false_iff] at hpreserves
      simpa using hpreserves.1
    have hwell : q.existsStatement.wellFormed ctx M db := by
      refine existsStatement_wellFormed q.existsQuery ?_
      rw [hquery]
      exact @wellFormed_of_no_unions V ctx M db q.unpaged.selectsOne.withoutSubqueriesAndWindows hunions
    have hconstant := @exists_constant V ctx M db q hunions hpreserves
    rw [hquery]
    refine (and_iff_right hwell).trans (hconstant.trans ?_)
    exact ⟨fun hcond _ _ => hcond, fun hcond => hcond hunions hraw⟩
  · have hquery : q.existsQuery = q.unpaged := by
      have hkeeps : ¬(q.unpaged.clauses.unions.isEmpty && !q.unpaged.preservesProjection) = true := by
        intro hboth
        rw [Bool.and_eq_true, Bool.not_eq_true'] at hboth
        exact hdrops ⟨List.isEmpty_iff.1 hboth.1, hboth.2⟩
      rw [existsQuery, if_neg hkeeps]
    have hwell : q.existsStatement.wellFormed ctx M db := by
      refine existsStatement_wellFormed q.existsQuery ?_
      rw [hquery]
      exact h
    rw [hquery]
    refine ⟨fun _ hunions hraw hkeys hhaving => ?_, fun _ => ⟨hwell, Iff.rfl⟩⟩
    refine absurd ⟨hunions, ?_⟩ hdrops
    simp [preservesProjection, hraw, hhaving]

end Exists

/-- The statements of `count()` and `exists()` agree with the rows of the query exactly when
`CountsRows` says so. -/
theorem count_and_exists {V : Type} (ctx : RenderContext V) (M : SqlMeaning V) (db : DatabaseType) (q : SelectQuery V)
    (hwell : q.unpaged.wellFormed ctx M db) :
    q.countStatement.sql ctx db = q.buildCountSqlWithParamsForDb ctx db ∧
      q.existsStatement.sql ctx db = q.buildExistsSqlWithParamsForDb ctx db ∧
      ((q.countStatement.wellFormed ctx M db ∧
          q.countStatement.answer ctx M db = (q.unpaged.rows ctx M db).card ∧
          q.existsStatement.wellFormed ctx M db ∧
          (q.existsStatement.answer ctx M db ≠ 0 ↔ 0 < (q.unpaged.rows ctx M db).card)) ↔
        q.CountsRows ctx M db) := by
  have h : q.wellFormed ctx M db := hwell
  refine ⟨countStatement_sql, existsStatement_sql, ?_⟩
  rw [rows_unpaged, ← and_assoc, exists_iff h]
  by_cases hgroup : q.clauses.groupBy ≠ [] ∧ q.hasExplicitProjection = false
  · rw [count_grouped hgroup.1 hgroup.2 h]
    constructor
    · intro hboth
      exact ⟨fun _ _ => hboth.1, fun _ hkeys => absurd hkeys hgroup.1⟩
    · intro hcond
      exact ⟨hcond.grouped hgroup.1 hgroup.2, fun _ _ hkeys => absurd hkeys hgroup.1⟩
  · rw [count_ungrouped hgroup h, countsDirectly_iff]
    constructor
    · intro ⟨hcount, hexists⟩
      refine ⟨fun hkeys hexplicit => absurd ⟨hkeys, hexplicit⟩ hgroup,
        fun hunions hkeys hhaving hraw haggregates => ?_⟩
      exact ⟨hexists hunions hraw hkeys hhaving haggregates, fun hctes hdistinct hlock =>
        hcount ⟨hunions, hctes, hkeys, hhaving, ⟨hraw, hdistinct⟩, hlock⟩ haggregates⟩
    · intro hcond
      refine ⟨fun ⟨hunions, hctes, hkeys, hhaving, ⟨hraw, hdistinct⟩, hlock⟩ haggregates => ?_,
        fun hunions hraw hkeys hhaving haggregates => ?_⟩
      · exact (hcond.aggregated hunions hkeys hhaving hraw haggregates).2 hctes hdistinct hlock
      · exact (hcond.aggregated hunions hkeys hhaving hraw haggregates).1

end SelectQuery

/-! Orders joined to their items: one order with two kinds of item. -/

def salesContext : RenderContext ℕ where
  chars := asciiTables
  builder := {
    formatColumn := id
    ownColumnType := fun _ => none
    registeredColumnType := fun _ _ => none
    isNull := fun _ => false
    numericHavingValue := fun _ => none
    jsonToColumnValue := fun _ _ => (0 : ℕ)
    validateHaving := fun _ => none
    softDeleteEnabled := false }
  registeredColumnNames := fun _ _ => []
  whereSql := fun _ _ _ _ _ _ => ([], [])
  bigInt := id

def salesModel : ModelMeta := ⟨none, "orders".toList, ["id".toList, "status".toList], ["id".toList, "status".toList]⟩

/-- A row holds an order's id and status and an item's kind. -/
def salesMeaning : SqlMeaning ℕ where
  Source := ℕ × ℕ × ℕ
  Value := ℕ
  decValue := inferInstance
  joined _ _ := {(1, 5, 10), (1, 5, 11)}
  matching _ _ _ := true
  groupKey _ text row := if text = "\"items\".\"kind\"".toList then row.2.2 else row.1
  having _ _ _ _ _ := true
  column _ _ := ⟨2, false, fun _ group => [Multiset.fold max 0 (group.map Prod.fst),
    Multiset.fold max 0 (group.map fun row => row.2.1)]⟩
  expression _ _ := ⟨1, false, fun _ _ => [1]⟩
  subquery _ _ := ⟨1, false, fun _ _ => [0]⟩
  window _ _ := ⟨1, false, fun _ _ => [0]⟩
  arm _ _ := (2, {[9, 9]})
  one := 1
  column_plain _ _ := rfl
  expression_one _ := rfl

def salesQuery (rawSelectExpressions : List String) (unions : List (UnionClause ℕ)) : SelectQuery ℕ where
  model := salesModel
  selfJoinDepth := 0
  clauses := {
    joins := [⟨.inner, "items", none, "orders.id", "items.order_id"⟩]
    groupBy := ["orders.id", "items.kind"]
    rawSelectExpressions := rawSelectExpressions
    unions := unions }
  held := by intro condition hcondition; cases hcondition

theorem count_and_exists_groups :
    (salesQuery [] []).countStatement.answer salesContext salesMeaning .postgres =
      ((salesQuery [] []).unpaged.rows salesContext salesMeaning .postgres).card := by
  have hwell : (salesQuery [] []).unpaged.wellFormed salesContext salesMeaning .postgres :=
    SelectQuery.wellFormed_of_no_unions rfl
  have hcounts : (salesQuery [] []).CountsRows salesContext salesMeaning .postgres := by
    refine ⟨fun _ _ => ⟨fun hunions => absurd rfl hunions, fun hdistinct => absurd hdistinct (by decide +kernel)⟩,
      fun _ hkeys => absurd hkeys (List.cons_ne_nil _ _)⟩
  exact ((SelectQuery.count_and_exists salesContext salesMeaning .postgres (salesQuery [] []) hwell).2.2.2 hcounts).2.1

/-- Without a chosen projection, a grouped `distinct()` query counts the groups and not its rows,
and beside a union arm of two columns its count is no statement at all. -/
theorem count_ignores_distinct :
    ((salesQuery [distinctSelectMarker] []).unpaged.wellFormed salesContext salesMeaning .postgres ∧
      ((salesQuery [distinctSelectMarker] []).unpaged.rows salesContext salesMeaning .postgres).card = 1 ∧
      (salesQuery [distinctSelectMarker] []).countStatement.answer salesContext salesMeaning .postgres = 2) ∧
    (salesQuery [] [⟨.unionAll, "SELECT id, status FROM orders", [], false⟩]).unpaged.wellFormed salesContext salesMeaning
        .postgres ∧
      ¬(salesQuery [] [⟨.unionAll, "SELECT id, status FROM orders", [], false⟩]).countStatement.wellFormed salesContext
        salesMeaning .postgres := by
  refine ⟨⟨SelectQuery.wellFormed_of_no_unions rfl, by decide +kernel, by decide +kernel⟩, ?_, ?_⟩
  · intro union _
    rfl
  · intro hwell
    have hwidth := hwell _ (List.mem_singleton_self _)
    exact absurd hwidth (by decide +kernel)

end TideOrm
