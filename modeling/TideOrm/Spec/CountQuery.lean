import TideOrm.Spec.SelectQuery
import TideOrm.Lib.Bag

/-! The statements of `count()` and `exists()` (`query/sql/rendering.rs`), and what they and the
query's own SELECT say over bags of rows. -/

namespace TideOrm

open Lib

def selectFromDerived (db : DatabaseType) (projection innerSql derivedAlias : List Char) : List Char :=
  "SELECT ".toList ++ projection ++ " FROM (".toList ++ innerSql ++ ") AS ".toList ++ quoteIdent db derivedAlias

namespace SelectQuery

section Build

variable {V : Type} (ctx : RenderContext V) (q : SelectQuery V)

/-- A projection over the table, joins and filters alone. -/
def buildPlainSelectSql (db : DatabaseType) (projection : List Char) : List Char × List V :=
  let filter := q.whereClause ctx db
  let filterSql := if filter.1.isEmpty then [] else "WHERE ".toList ++ filter.1
  (("SELECT ".toList ++ projection ++ ' ' :: q.fromAndJoinSql ctx db ++ filterSql).rdropWhile isWhitespace, filter.2)

/-- The query with its ORDER BY, LIMIT and OFFSET removed. -/
def unpaged : SelectQuery V :=
  { q with clauses := { q.clauses with orderBy := [], limitValue := none, offsetValue := none } }

def selectsOne : SelectQuery V :=
  { q with clauses := { q.clauses with selectColumns := none, rawSelectExpressions := ["1"] } }

def withoutSubqueriesAndWindows : SelectQuery V :=
  { q with clauses := { q.clauses with subquerySelectExpressions := [], windowFunctions := [] } }

def countQuery : SelectQuery V :=
  if !q.unpaged.clauses.groupBy.isEmpty && !q.unpaged.hasExplicitProjection then q.unpaged.selectsOne else q.unpaged

/-- Whether a count reads the table, joins and filters alone. -/
def countsDirectly : Bool :=
  q.clauses.unions.isEmpty && q.clauses.ctes.isEmpty && q.clauses.groupBy.isEmpty && q.clauses.havingConditions.isEmpty &&
    q.clauses.rawSelectExpressions.isEmpty && !q.clauses.lockForUpdate

def buildCountSqlWithParamsForDb (db : DatabaseType) : List Char × List V :=
  let query := q.countQuery
  if query.countsDirectly then query.buildPlainSelectSql ctx db "COUNT(*) AS count".toList
  else
    let inner := query.buildSelectSqlWithParamsForDb ctx db
    (selectFromDerived db "COUNT(*) AS count".toList inner.1 "tideorm_count_subquery".toList, inner.2)

/-- A raw projection may aggregate, and HAVING may name an output of a chosen one. -/
def preservesProjection : Bool :=
  !q.rawProjection.isEmpty || (!q.clauses.havingConditions.isEmpty && q.hasExplicitProjection)

def existsQuery : SelectQuery V :=
  if q.unpaged.clauses.unions.isEmpty && !q.unpaged.preservesProjection then
    q.unpaged.selectsOne.withoutSubqueriesAndWindows
  else q.unpaged

def existsDirectly : Bool := q.clauses.unions.isEmpty && q.clauses.ctes.isEmpty && !q.clauses.lockForUpdate

def buildExistsSqlWithParamsForDb (db : DatabaseType) : List Char × List V :=
  let query := q.existsQuery
  if query.existsDirectly then
    let inner := query.buildBaseSelectSql ctx db
    ("SELECT EXISTS(".toList ++ inner.1 ++ " LIMIT 1) AS ".toList ++ quoteIdent db "exists_result".toList, inner.2)
  else
    let inner := query.buildSelectSqlWithParamsForDb ctx db
    (selectFromDerived db "1".toList inner.1 "tideorm_exists_subquery".toList ++ " LIMIT 1".toList, inner.2)

end Build

end SelectQuery

/-- What the parts of a statement mean over one database content, with some CTEs in scope. -/
structure SqlMeaning (V : Type) where
  /-- a row of FROM and the joins -/
  Source : Type
  Value : Type
  decValue : DecidableEq Value
  joined : List (Cte V) → List Char → Multiset Source
  matching : List (Cte V) → List Char × List V → Source → Bool
  groupKey : List (Cte V) → List Char → Source → Value
  /-- HAVING reads a group, and may name the outputs that entries of the projection alias -/
  having : List (Cte V) → List String → List (SubquerySelect V) → String × List V → Multiset Source → Bool
  column : List (Cte V) → List Char → SelectItem Source Value
  expression : List (Cte V) → String → SelectItem Source Value
  subquery : List (Cte V) → SubquerySelect V → SelectItem Source Value
  window : List (Cte V) → List Char → SelectItem Source Value
  /-- the columns of a union arm, and its rows -/
  arm : List (Cte V) → UnionClause V → ℕ × Multiset (List Value)
  one : Value
  column_plain : ∀ ctes text, (column ctes text).aggregates = false
  expression_one : ∀ ctes, expression ctes "1" = ⟨1, false, fun _ _ => [one]⟩

instance {V : Type} (M : SqlMeaning V) : DecidableEq M.Value := M.decValue

namespace SelectQuery

variable {V : Type} (ctx : RenderContext V) (M : SqlMeaning V) (db : DatabaseType) (q : SelectQuery V)

/-- The entries of the projection with an alias. -/
def aliasedEntries : List String :=
  (q.clauses.selectColumns.getD [] ++ q.rawProjection).filter fun entry => (splitAlias entry.toList).2.isSome

def windowItems : List (SelectItem M.Source M.Value) :=
  q.clauses.windowFunctions.map fun window => M.window q.clauses.ctes (q.windowSql ctx db window)

/-- The select list, as `buildSelectClauseSql` puts it together. -/
def items : List (SelectItem M.Source M.Value) :=
  let columns := (q.clauses.selectColumns.getD []).map fun column =>
    M.column q.clauses.ctes ((q.slots ctx).formatSelectColumnForDb db q.model.tableName column.toList)
  let subqueries := q.clauses.subquerySelectExpressions.map (M.subquery q.clauses.ctes)
  let chosen := columns ++ q.rawProjection.map (M.expression q.clauses.ctes) ++ subqueries
  (if chosen.isEmpty then [M.column q.clauses.ctes (q.defaultProjection db)] else chosen) ++ q.windowItems ctx M db

def source : Multiset M.Source :=
  let joined := M.joined q.clauses.ctes (q.fromAndJoinSql ctx db)
  let filter := q.whereClause ctx db
  if filter.1.isEmpty then joined else joined.filter fun row => M.matching q.clauses.ctes filter row

def core : SelectCore M.Source M.Value where
  source := q.source ctx M db
  keys := q.clauses.groupBy.map fun column =>
    M.groupKey q.clauses.ctes ((q.slots ctx).formatColumnForDb db column.toList)
  having := (q.clauses.havingClauses ctx.builder).map
    (M.having q.clauses.ctes q.aliasedEntries q.clauses.subquerySelectExpressions)
  items := q.items ctx M db
  isDistinct := q.clauses.isDistinct

def arms : List (Arm (List M.Value)) :=
  q.clauses.unions.map fun union : UnionClause V => (decide (union.unionType = .unionAll), (M.arm q.clauses.ctes union).2)

/-- Every union arm has as many columns as the base. -/
def wellFormed : Prop :=
  ∀ union ∈ (q.clauses.unions : List (UnionClause V)), (M.arm q.clauses.ctes union).1 = (q.core ctx M db).width

/-- The rows that an unpaged query's SELECT returns. -/
def rows : Multiset (List M.Value) := mergeArms (q.core ctx M db).rows (q.arms M)

end SelectQuery

/-- The statements that a count and an existence check run. -/
inductive RowStatement (V : Type) where
  | countDirect (q : SelectQuery V)
  | countDerived (q : SelectQuery V)
  | existsDirect (q : SelectQuery V)
  | existsDerived (q : SelectQuery V)

namespace RowStatement

variable {V : Type} (ctx : RenderContext V) (M : SqlMeaning V) (db : DatabaseType)

def sql : RowStatement V → List Char × List V
  | countDirect q => q.buildPlainSelectSql ctx db "COUNT(*) AS count".toList
  | countDerived q =>
    let inner := q.buildSelectSqlWithParamsForDb ctx db
    (selectFromDerived db "COUNT(*) AS count".toList inner.1 "tideorm_count_subquery".toList, inner.2)
  | existsDirect q =>
    let inner := q.buildBaseSelectSql ctx db
    ("SELECT EXISTS(".toList ++ inner.1 ++ " LIMIT 1) AS ".toList ++ quoteIdent db "exists_result".toList, inner.2)
  | existsDerived q =>
    let inner := q.buildSelectSqlWithParamsForDb ctx db
    (selectFromDerived db "1".toList inner.1 "tideorm_exists_subquery".toList ++ " LIMIT 1".toList, inner.2)

def wellFormed : RowStatement V → Prop
  | countDirect _ | existsDirect _ => True
  | countDerived q | existsDerived q => q.wellFormed ctx M db

/-- The number in the one row, or under LIMIT the number of rows; EXISTS answers 1 or 0. -/
def answer : RowStatement V → ℕ
  | countDirect q => (q.source ctx M db).card
  | countDerived q => (q.rows ctx M db).card
  | existsDirect q => min 1 (q.core ctx M db).rows.card
  | existsDerived q => min 1 (q.rows ctx M db).card

end RowStatement

namespace SelectQuery

variable {V : Type} (ctx : RenderContext V) (M : SqlMeaning V) (db : DatabaseType) (q : SelectQuery V)

def countStatement : RowStatement V :=
  if q.countQuery.countsDirectly then .countDirect q.countQuery else .countDerived q.countQuery

def existsStatement : RowStatement V :=
  if q.existsQuery.existsDirectly then .existsDirect q.existsQuery else .existsDerived q.existsQuery

/-- A group's row with the constant in place of the default projection. -/
def constantRow (group : Multiset M.Source) : List M.Value :=
  M.one :: (q.windowItems ctx M db).flatMap fun item => item.value (q.core ctx M db).kept group

/-- When a count and an existence check agree with the rows. A group counts as one row beside the
union arms, and what they leave out of the projection does not make the rows one. -/
structure CountsRows : Prop where
  grouped : q.clauses.groupBy ≠ [] → q.hasExplicitProjection = false →
    (q.clauses.unions ≠ [] → (M.column q.clauses.ctes (q.defaultProjection db)).width = 1) ∧
      (mergedArms (q.arms M)).elim
        (q.clauses.isDistinct = true → ((q.core ctx M db).kept.map (q.core ctx M db).row).Nodup) fun others =>
          (newRows (q.core ctx M db).rows others).card =
            (newRows ((q.core ctx M db).kept.map (q.constantRow ctx M db)) others).card
  aggregated : q.clauses.unions = [] → q.clauses.groupBy = [] → q.clauses.havingConditions = [] →
    q.rawProjection = [] → (q.items ctx M db).any SelectItem.aggregates = true →
      q.source ctx M db ≠ 0 ∧
        (q.clauses.ctes = [] → q.clauses.isDistinct = false → q.clauses.lockForUpdate = false →
          (q.source ctx M db).card = 1)

end SelectQuery

end TideOrm
