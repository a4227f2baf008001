import TideOrm.Spec.ColumnSlots
import TideOrm.Spec.Filters
import TideOrm.Spec.SqlText

/-! The SELECT statement of a query, rendered with its bound values
(`query/sql/rendering/select.rs`, `query/structure.rs`, `query/builder.rs`). The text of the
WHERE filters, which a library renders, is left open. -/

namespace TideOrm

open Lib

inductive UnionType where
  | union | unionAll
deriving DecidableEq

def UnionType.asSql : UnionType → String
  | .union => "UNION"
  | .unionAll => "UNION ALL"

def JoinType.asSql : JoinType → String
  | .inner => "INNER JOIN"
  | .left => "LEFT JOIN"
  | .right => "RIGHT JOIN"

inductive FrameBound where
  | unboundedPreceding | unboundedFollowing | currentRow
  | preceding (n : ℕ)
  | following (n : ℕ)
deriving DecidableEq

def FrameBound.asSql : FrameBound → List Char
  | .unboundedPreceding => "UNBOUNDED PRECEDING".toList
  | .unboundedFollowing => "UNBOUNDED FOLLOWING".toList
  | .currentRow => "CURRENT ROW".toList
  | .preceding n => decimal n ++ " PRECEDING".toList
  | .following n => decimal n ++ " FOLLOWING".toList

inductive FrameType where
  | rows | range | groups
deriving DecidableEq

def FrameType.asSql : FrameType → String
  | .rows => "ROWS"
  | .range => "RANGE"
  | .groups => "GROUPS"

inductive WindowFunctionType where
  | rowNumber | rank | denseRank
  | ntile (n : ℕ)
  | lag (column : String) (offset : Option ℤ) (defaultSql : Option String)
  | lead (column : String) (offset : Option ℤ) (defaultSql : Option String)
  | firstValue (column : String)
  | lastValue (column : String)
  | nthValue (column : String) (n : ℕ)
  | sum (column : String)
  | avg (column : String)
  | count (column : Option String)
  | min (column : String)
  | max (column : String)
  | custom (expression : String)
deriving DecidableEq

structure WindowFunction where
  function : WindowFunctionType
  partitionBy : List String
  orderBy : List (String × Order)
  frameType : Option FrameType
  frameStart : Option FrameBound
  frameEnd : Option FrameBound
  outputAlias : String
deriving DecidableEq

section

variable (V : Type)

/-- A scalar subquery of the projection; `source` is the table and column it reads. -/
structure SubquerySelect where
  querySql : String
  outputAlias : String
  params : List V
  source : Option (String × String)

/-- An operand of a compound select, `raw` when its text is the caller's. -/
structure UnionClause where
  unionType : UnionType
  querySql : String
  params : List V
  raw : Bool

structure Cte where
  name : String
  columns : Option (List String)
  querySql : String
  recursive : Bool
  params : List V

end

/-- What a query's clauses hold, as far as its statement and its key read them. -/
def sqlTypes (V : Type) : QueryTypes where
  Database := Unit
  Condition := WhereCondition V
  Json := Json
  Value := V
  ColumnType := String
  SubquerySelect := SubquerySelect V
  UnionClause := UnionClause V
  WindowFunction := WindowFunction
  Cte := Cte V
  CacheOptions := Unit

/-- A number in the one form that the JSON parser holds it in. -/
def JsonNumber.held : JsonNumber → Bool
  | .posInt n => decide (n < 2 ^ 64)
  | .negInt n => decide (-2 ^ 63 ≤ n ∧ n < 0)
  | .float _ => true

namespace Json

mutual

def held : Json → Bool
  | null | bool _ | string _ => true
  | number n => n.held
  | array items => allHeld items
  | object fields => fieldsHeld fields

def allHeld : List Json → Bool
  | [] => true
  | value :: rest => value.held && allHeld rest

def fieldsHeld : List (String × Json) → Bool
  | [] => true
  | (_, value) :: rest => value.held && fieldsHeld rest

end

end Json

def ConditionValue.held {V : Type} : ConditionValue V → Bool
  | .single value => value.held
  | .list values | .documentList values _ => Json.allHeld values
  | .range low high => low.held && high.held
  | .none | .rawExpr _ | .rawExprWithValues _ _ | .rawTemplate _ _ | .column _ | .invalid _ => true

/-- A query builder: its model, its clauses, and JSON values as the parser holds them. -/
structure SelectQuery (V : Type) where
  model : ModelMeta
  /-- how many `where_has` subqueries over this query's own table enclose it -/
  selfJoinDepth : ℕ
  clauses : Clauses (sqlTypes V)
  held : ∀ condition ∈ (clauses.conditions ++ OrGroup.collectAll clauses.orGroups : List (WhereCondition V)),
    condition.value.held = true

inductive SoftDeleteScope where
  | disabled | activeOnly | withTrashed | onlyTrashed
deriving DecidableEq

/-- What the rendering reads beside the query: what the models declare and the registry knows,
and how the filters of a query are written. -/
structure RenderContext (V : Type) where
  chars : CharTables
  builder : BuilderContext (sqlTypes V)
  registeredColumnNames : Option (List Char) → List Char → List (List Char)
  /-- the condition that some filters and a soft-delete scope build, in a query of the model at a
  depth and with joins -/
  whereSql : DatabaseType → ModelMeta → ℕ → List JoinClause → List (Junction (WhereCondition V)) →
    SoftDeleteScope → List Char × List V
  /-- `Value::BigInt` -/
  bigInt : ℕ → V

/-- Render a list of fragments one after another, each behind the values bound before it. -/
def bindAll {A V : Type} (render : ℕ → A → List Char) (values : A → List V) :
    List V → List A → List (List Char) × List V
  | params, [] => ([], params)
  | params, a :: rest =>
    let others := bindAll render values (params ++ values a) rest
    (render params.length a :: others.1, others.2)

def commaSeparated (parts : List (List Char)) : List Char := ", ".toList.intercalate parts

/-- A column identifier; anything else is quoted as one. -/
def formatColumn (db : DatabaseType) (column : List Char) : List Char :=
  (formatIdentifierReference db (trim column)).getD (quoteIdent db (trim column))

def schemaAndTable (reference : List Char) : Option (List Char) × List Char :=
  match textSplitOnce '.' reference with
  | some (schema, table) => (some schema, table)
  | none => (none, reference)

namespace WindowFunctionType

/-- The column whose own values the function returns. -/
def valueColumn : WindowFunctionType → Option String
  | lag column _ _ | lead column _ _ | firstValue column | lastValue column | nthValue column _ | min column
  | max column => some column
  | rowNumber | rank | denseRank | ntile _ | sum _ | avg _ | count _ | custom _ => none

def mapColumn (column : String → String) : WindowFunctionType → WindowFunctionType
  | lag col offset defaultSql => lag (column col) offset defaultSql
  | lead col offset defaultSql => lead (column col) offset defaultSql
  | firstValue col => firstValue (column col)
  | lastValue col => lastValue (column col)
  | nthValue col n => nthValue (column col) n
  | sum col => sum (column col)
  | avg col => avg (column col)
  | count col => count (col.map column)
  | min col => min (column col)
  | max col => max (column col)
  | function => function

/-- `write!` of an integer -/
def signed (n : ℤ) : List Char := if n < 0 then '-' :: decimal n.natAbs else decimal n.natAbs

def shiftSql (db : DatabaseType) (name : String) (column : String) (offset : Option ℤ) (defaultSql : Option String) :
    List Char :=
  let arguments := match offset with
    | some offset => ", ".toList ++ signed offset ++ (defaultSql.elim [] fun text => ", ".toList ++ text.toList)
    | none => []
  name.toList ++ '(' :: formatColumn db column.toList ++ arguments ++ [')']

def asSqlForDb (db : DatabaseType) : WindowFunctionType → List Char
  | rowNumber => "ROW_NUMBER()".toList
  | rank => "RANK()".toList
  | denseRank => "DENSE_RANK()".toList
  | ntile n => "NTILE(".toList ++ decimal n ++ [')']
  | lag column offset defaultSql => shiftSql db "LAG" column offset defaultSql
  | lead column offset defaultSql => shiftSql db "LEAD" column offset defaultSql
  | firstValue column => "FIRST_VALUE(".toList ++ formatColumn db column.toList ++ [')']
  | lastValue column => "LAST_VALUE(".toList ++ formatColumn db column.toList ++ [')']
  | nthValue column n => "NTH_VALUE(".toList ++ formatColumn db column.toList ++ ", ".toList ++ decimal n ++ [')']
  | sum column => "SUM(".toList ++ formatColumn db column.toList ++ [')']
  | avg column => "AVG(".toList ++ formatColumn db column.toList ++ [')']
  | count (some column) => "COUNT(".toList ++ formatColumn db column.toList ++ [')']
  | count none => "COUNT(*)".toList
  | min column => "MIN(".toList ++ formatColumn db column.toList ++ [')']
  | max column => "MAX(".toList ++ formatColumn db column.toList ++ [')']
  | custom expression => expression.toList

end WindowFunctionType

namespace WindowFunction

def mapColumns (column : String → String) (w : WindowFunction) : WindowFunction :=
  { w with
    function := w.function.mapColumn column
    partitionBy := w.partitionBy.map column
    orderBy := w.orderBy.map fun term => (column term.1, term.2) }

def frameSql (w : WindowFunction) : Option (List Char) :=
  match w.frameType, w.frameStart with
  | some frameType, some start =>
    some (frameType.asSql.toList ++ match w.frameEnd with
      | some stop => " BETWEEN ".toList ++ start.asSql ++ " AND ".toList ++ stop.asSql
      | none => ' ' :: start.asSql)
  | _, _ => none

/-- What goes inside `OVER (..)`. -/
def overClauseForDb (db : DatabaseType) (w : WindowFunction) : List Char :=
  let partition := if w.partitionBy.isEmpty then []
    else ["PARTITION BY ".toList ++ commaSeparated (w.partitionBy.map fun column => formatColumn db column.toList)]
  let order := if w.orderBy.isEmpty then []
    else ["ORDER BY ".toList ++ commaSeparated (w.orderBy.map fun term =>
      formatColumn db term.1.toList ++ ' ' :: term.2.asStr.toList)]
  [' '].intercalate (partition ++ order ++ w.frameSql.toList)

/-- The arguments of a shift with a default, which MariaDB does not take. -/
def shiftDefault : WindowFunctionType → Option (String × String × ℤ × String)
  | .lag column (some offset) (some defaultSql) => some ("LAG", column, offset, defaultSql)
  | .lead column (some offset) (some defaultSql) => some ("LEAD", column, offset, defaultSql)
  | _ => none

def toSqlForDb (db : DatabaseType) (w : WindowFunction) : List Char :=
  let overSql := " OVER (".toList ++ w.overClauseForDb db ++ [')']
  let call := match shiftDefault w.function with
    | some (name, column, offset, defaultSql) =>
      if db = .mySql ∨ db = .mariaDb then
        let shift := WindowFunctionType.signed offset
        "CASE WHEN ".toList ++ name.toList ++ "(1, ".toList ++ shift ++ ")".toList ++ overSql ++ " IS NULL THEN ".toList ++
          defaultSql.toList ++ " ELSE ".toList ++ name.toList ++ '(' :: formatColumn db column.toList ++
          ", ".toList ++ shift ++ ")".toList ++ overSql ++ " END".toList
      else w.function.asSqlForDb db ++ overSql
    | none => w.function.asSqlForDb db ++ overSql
  call ++ " AS ".toList ++ quoteIdent db w.outputAlias.toList

end WindowFunction

/-- `name (columns) AS (body)` -/
def Cte.toSqlWithBodyForDb {V : Type} (db : DatabaseType) (cte : Cte V) (body : List Char) : List Char :=
  quoteIdent db cte.name.toList ++
    (match cte.columns with
      | some columns => " (".toList ++ commaSeparated (columns.map fun column => quoteIdent db column.toList) ++ [')']
      | none => []) ++
    " AS (".toList ++ body ++ [')']

namespace SelectQuery

variable {V : Type} (ctx : RenderContext V) (q : SelectQuery V)

def rawProjection : List String := q.clauses.rawSelectExpressions.filter fun expression => expression != distinctSelectMarker

def hasExplicitProjection : Bool :=
  q.clauses.selectColumns.isSome || !q.clauses.subquerySelectExpressions.isEmpty || !q.rawProjection.isEmpty

/-- Whether the default projection is `table.*`. -/
def readsTableWildcard : Bool := !q.hasExplicitProjection && q.clauses.unions.any UnionClause.raw

def isModelTableQualifier (qualifier : List Char) : Bool :=
  q.model.ownsTableReference qualifier ||
    q.clauses.joins.any fun join =>
      join.qualifier.toList == qualifier && schemaAndTable join.table.toList == (q.model.schemaName, q.model.tableName)

def joinedColumnNames (join : JoinClause) : List (List Char) :=
  if q.isModelTableQualifier join.qualifier.toList then q.model.columnNames
  else
    let reference := schemaAndTable join.table.toList
    ctx.registeredColumnNames reference.1 reference.2

/-- What names are resolved against, before the outputs of the projection are known. -/
def nameSlots : SlotQuery where
  model := q.model
  selfJoinDepth := q.selfJoinDepth
  joins := q.clauses.joins.map fun join => ⟨join.table.toList, join.tableAlias.map String.toList⟩
  hasUnions := !q.clauses.unions.isEmpty
  projectionOutputs := []
  projectionIsClosed := false

/-- The table and column that a plain column reference reads. -/
def columnSource (reference : List Char) : Option (List Char × List Char) :=
  (q.nameSlots.simpleColumnReference reference).map fun (table, column) =>
    (if table.isEmpty then q.model.tableName else table, column)

def namedProjectionOutput (entry : List Char) : Option (List Char × Option (List Char × List Char)) :=
  let (expression, outputAlias) := splitAlias (trim entry)
  let source := q.columnSource expression
  match outputAlias with
  | some outputAlias =>
    let quote := fun ch => ch == '"' || ch == '`'
    some ((outputAlias.dropWhile quote).rdropWhile quote, source)
  | none => source.map fun (table, column) =>
    (if table = q.model.tableName then q.model.columnNamed column else column, source)

def joinedWildcardOutputs (entry : List Char) : List (List Char × Option (List Char × List Char)) :=
  let entry := trim entry
  let outputs := fun (joins : List JoinClause) => joins.flatMap fun join =>
    (q.joinedColumnNames ctx join).map fun column => (column, some (join.qualifier.toList, column))
  if entry = ['*'] then outputs q.clauses.joins
  else if ['.', '*'].isSuffixOf entry then
    outputs (q.clauses.joins.filter fun join => entry.take (entry.length - 2) == join.qualifier.toList)
  else []

/-- Each named result column of the projection, with the table and column it is read from. -/
def projectionOutputs : List (List Char × Option (List Char × List Char)) :=
  ((q.clauses.selectColumns.getD [] ++ q.rawProjection).flatMap fun entry =>
      (q.namedProjectionOutput entry.toList).toList ++ q.joinedWildcardOutputs ctx entry.toList) ++
    (q.clauses.subquerySelectExpressions.map fun subquery : SubquerySelect V =>
      (subquery.outputAlias.toList, subquery.source.map fun source => (source.1.toList, source.2.toList))) ++
    q.clauses.windowFunctions.map fun window : WindowFunction =>
      (window.outputAlias.toList, window.function.valueColumn.bind fun column => q.columnSource column.toList)

def projectionIsClosed : Bool :=
  q.hasExplicitProjection &&
    !(q.clauses.selectColumns.getD [] ++ q.clauses.rawSelectExpressions).any fun entry =>
      let entry := trim entry.toList
      entry == ['*'] || ['.', '*'].isSuffixOf entry

def slots : SlotQuery :=
  { q.nameSlots with projectionOutputs := q.projectionOutputs ctx, projectionIsClosed := q.projectionIsClosed }

def quotedTable (db : DatabaseType) : List Char :=
  (q.model.schemaName.elim [] fun schema => quoteIdent db schema ++ ['.']) ++ quoteIdent db q.model.tableName

/-- The model's columns, or `table.*` beside a raw union arm. -/
def defaultProjection (db : DatabaseType) : List Char :=
  if q.readsTableWildcard then quoteIdent db q.model.tableName ++ ".*".toList
  else commaSeparated (q.model.columnNames.map fun column =>
    quoteIdent db q.model.tableName ++ '.' :: quoteIdent db column)

def subquerySql (db : DatabaseType) (offset : ℕ) (subquery : SubquerySelect V) : List Char :=
  '(' :: rebasePlaceholders ctx.chars db subquery.querySql.toList offset ++ ") AS ".toList ++
    quoteIdent db subquery.outputAlias.toList

def windowSql (db : DatabaseType) (window : WindowFunction) : List Char :=
  (window.mapColumns fun column =>
    String.ofList ((q.slots ctx).canonicalModelIdentifier column.toList)).toSqlForDb db

/-- The projection from every source that contributed one. -/
def buildSelectClauseSql (db : DatabaseType) : List Char × List V :=
  let columns := (q.clauses.selectColumns.getD []).map fun column =>
    (q.slots ctx).formatSelectColumnForDb db q.model.tableName column.toList
  let subqueries := bindAll (subquerySql ctx db) SubquerySelect.params [] q.clauses.subquerySelectExpressions
  let chosen := columns ++ q.rawProjection.map String.toList ++ subqueries.1
  let expressions := (if chosen.isEmpty then [q.defaultProjection db] else chosen) ++
    q.clauses.windowFunctions.map (q.windowSql ctx db)
  let keyword := if q.clauses.isDistinct then "SELECT DISTINCT" else "SELECT"
  (keyword.toList ++ ' ' :: commaSeparated expressions ++ [' '], subqueries.2)

def joinSql (db : DatabaseType) (join : JoinClause) : List Char :=
  let table := formatColumn db join.table.toList
  let joinTable := match join.tableAlias with
    | some tableAlias => table ++ " AS ".toList ++ quoteIdent db tableAlias.toList
    | none => table
  join.joinType.asSql.toList ++ ' ' :: joinTable ++ " ON ".toList ++
    (q.slots ctx).formatColumnForDb db join.leftColumn.toList ++ " = ".toList ++
    (q.slots ctx).formatColumnForDb db join.rightColumn.toList ++ [' ']

def fromAndJoinSql (db : DatabaseType) : List Char :=
  "FROM ".toList ++ q.quotedTable db ++ ' ' :: q.clauses.joins.flatMap (q.joinSql ctx db)

def softDeleteScope : SoftDeleteScope :=
  if !ctx.builder.softDeleteEnabled then .disabled
  else if q.clauses.onlyTrashed then .onlyTrashed
  else if q.clauses.includeTrashed then .withTrashed
  else .activeOnly

/-- The WHERE condition, empty when nothing is filtered. -/
def whereClause (db : DatabaseType) : List Char × List V :=
  let filters := List.filterMap buildConditionExpression q.clauses.conditions ++ buildGroups q.clauses.orGroups
  let scope := q.softDeleteScope ctx
  if filters.isEmpty ∧ (scope = .disabled ∨ scope = .withTrashed) then ([], [])
  else ctx.whereSql db q.model q.selfJoinDepth q.clauses.joins filters scope

def groupByAndHavingSql (db : DatabaseType) (params : List V) : List Char × List V :=
  let groupBy := if q.clauses.groupBy.isEmpty then []
    else "GROUP BY ".toList ++ commaSeparated (q.clauses.groupBy.map fun column =>
      (q.slots ctx).formatColumnForDb db column.toList) ++ [' ']
  let having := bindAll (fun offset clause => renderTemplate ctx.chars db (Prod.fst clause).toList (offset + 1)) Prod.snd
    params (q.clauses.havingClauses ctx.builder)
  if q.clauses.havingConditions.isEmpty then (groupBy, params)
  else (groupBy ++ "HAVING ".toList ++ " AND ".toList.intercalate having.1 ++ [' '], having.2)

/-- The select core: projection, FROM/JOIN, WHERE, GROUP BY and HAVING. -/
def buildBaseSelectSql (db : DatabaseType) : List Char × List V :=
  let projection := q.buildSelectClauseSql ctx db
  let filter := q.whereClause ctx db
  let filterSql := if filter.1.isEmpty then []
    else "WHERE ".toList ++ rebasePlaceholders ctx.chars db filter.1 projection.2.length ++ [' ']
  let grouping := q.groupByAndHavingSql ctx db (projection.2 ++ filter.2)
  (trim (projection.1 ++ q.fromAndJoinSql ctx db ++ filterSql ++ grouping.1), grouping.2)

def cteSql (db : DatabaseType) : List Char × List V :=
  let bodies := bindAll (fun offset (cte : Cte V) =>
    cte.toSqlWithBodyForDb db (rebasePlaceholders ctx.chars db cte.querySql.toList offset)) Cte.params [] q.clauses.ctes
  if q.clauses.ctes.isEmpty then ([], [])
  else
    let keyword := if q.clauses.ctes.any Cte.recursive then "WITH RECURSIVE " else "WITH "
    (keyword.toList ++ commaSeparated bodies.1 ++ [' '], bodies.2)

/-- SQLite takes no parenthesized operand. -/
def unionSql (db : DatabaseType) (params : List V) : List Char × List V :=
  let operands := bindAll (fun offset (union : UnionClause V) =>
    let operand := rebasePlaceholders ctx.chars db union.querySql.toList offset
    ' ' :: union.unionType.asSql.toList ++
      (if db = .sqlite then ' ' :: operand else " (".toList ++ operand ++ [')'])) UnionClause.params params q.clauses.unions
  (operands.1.flatten, operands.2)

/-- One ORDER BY term; a raw expression is written as it is. -/
def orderTermSql (db : DatabaseType) (term : String × Order) : List Char :=
  if SlotQuery.RAW_ORDER_BY_MARKER.isPrefixOf term.1.toList then
    term.1.toList.drop SlotQuery.RAW_ORDER_BY_MARKER.length ++ ' ' :: term.2.asStr.toList
  else (q.slots ctx).formatOrderByForDb db term.1.toList term.2

def orderBySql (db : DatabaseType) : List Char :=
  if q.clauses.orderBy.isEmpty then []
  else " ORDER BY ".toList ++ commaSeparated (q.clauses.orderBy.map (q.orderTermSql ctx db))

def limitOffsetSql (db : DatabaseType) (params : List V) : List Char × List V :=
  let limit := match q.clauses.limitValue, q.clauses.offsetValue with
    | some limit, _ => " LIMIT ".toList ++ decimal limit
    | none, some _ =>
      match db with
      | .postgres => []
      | .sqlite => " LIMIT -1".toList
      | .mySql | .mariaDb => " LIMIT ".toList ++ decimal (2 ^ 64 - 1)
    | none, none => []
  match q.clauses.offsetValue with
  | none => (limit, params)
  | some offset =>
    if offset < 2 ^ 63 then
      let bound := pushParam db params (ctx.bigInt offset)
      (limit ++ " OFFSET ".toList ++ bound.1, bound.2)
    else (limit ++ " OFFSET ".toList ++ decimal offset, params)

/-- The statement and the values bound to its markers. -/
def buildSelectSqlWithParamsForDb (db : DatabaseType) : List Char × List V :=
  let base := q.buildBaseSelectSql ctx db
  let ctes := q.cteSql ctx db
  let unions := q.unionSql ctx db (ctes.2 ++ base.2)
  let limits := q.limitOffsetSql ctx db unions.2
  let lock := if q.clauses.lockForUpdate ∧ db ≠ .sqlite then " FOR UPDATE".toList else []
  (trim (ctes.1 ++ rebasePlaceholders ctx.chars db base.1 ctes.2.length ++ unions.1 ++ q.orderBySql ctx db ++ limits.1 ++
    lock), limits.2)

end SelectQuery

end TideOrm
