import TideOrm.Spec.Chunk
import Mathlib.Logic.Function.Basic

/-! The clauses a query holds (`query/clauses.rs`), the builder calls that add to them and
their merge, by which a fragment is applied to a query. What the merge never looks into is
left as a type. -/

namespace TideOrm

/-- The types of what a query carries. -/
structure QueryTypes where
  Database : Type
  Condition : Type
  Json : Type
  Value : Type
  ColumnType : Type
  SubquerySelect : Type
  UnionClause : Type
  WindowFunction : Type
  Cte : Type
  CacheOptions : Type

inductive LogicalOp where
  | or
  | and
deriving DecidableEq

/-- A group of conditions combined with a logical operator. -/
inductive OrGroup (C : Type) where
  | mk (conditions : List C) (nestedGroups : List (OrGroup C)) (combineWith : LogicalOp)

namespace OrGroup

variable {C : Type}

def new : OrGroup C := .mk [] [] .or

mutual

def isEmpty : OrGroup C → Bool
  | .mk conditions nested _ => conditions.isEmpty && allEmpty nested

def allEmpty : List (OrGroup C) → Bool
  | [] => true
  | group :: groups => group.isEmpty && allEmpty groups

end

def extend (more : List C) : OrGroup C → OrGroup C
  | .mk conditions nested op => .mk (conditions ++ more) nested op

def conditions : OrGroup C → List C
  | .mk conditions _ _ => conditions

end OrGroup

inductive JoinType where
  | inner
  | left
  | right
deriving DecidableEq

structure JoinClause where
  joinType : JoinType
  table : String
  tableAlias : Option String
  leftColumn : String
  rightColumn : String
deriving DecidableEq

/-- What is before and after the last `sep`. -/
def rsplitOnce (sep : Char) (text : String) : Option (String × String) :=
  if sep ∈ text.toList then
    let last := (text.toList.reverse.takeWhile (· != sep)).reverse
    some (String.ofList (text.toList.take (text.toList.length - last.length - 1)), String.ofList last)
  else none

namespace JoinClause

/-- The joined table's name without its schema. -/
def bareTable (join : JoinClause) : String := ((rsplitOnce '.' join.table).map Prod.snd).getD join.table

def qualifier (join : JoinClause) : String := join.tableAlias.getD join.bareTable

end JoinClause

/-- The sentinel that `distinct` leaves among the raw SELECT expressions. -/
def distinctSelectMarker : String := "\x01tideorm_select_distinct\x01"

@[ext]
structure Clauses (S : QueryTypes) where
  dependencies : List String := []
  operandDatabases : List S.Database := []
  conditions : List S.Condition := []
  orGroups : List (OrGroup S.Condition) := []
  /-- the index of the group that the `or_where_*` calls share -/
  simpleOrGroup : Option ℕ := none
  orderBy : List (String × Order) := []
  limitValue : Option ℕ := none
  offsetValue : Option ℕ := none
  selectColumns : Option (List String) := none
  rawSelectExpressions : List String := []
  subquerySelectExpressions : List S.SubquerySelect := []
  groupBy : List String := []
  havingConditions : List String := []
  havingBindings : List (List S.Value) := []
  /-- the map from a clause's index to the column and value of its extremum -/
  havingTypedBindings : ℕ → Option (String × S.Json) := fun _ => none
  havingComparisons : List (String × String) := []
  joins : List JoinClause := []
  unions : List S.UnionClause := []
  windowFunctions : List S.WindowFunction := []
  ctes : List S.Cte := []
  cacheOptions : Option S.CacheOptions := none
  cacheKey : Option String := none
  invalidQueryReason : Option String := none
  invalidPage : Option (String × String) := none
  includeTrashed : Bool := false
  onlyTrashed : Bool := false
  lockForUpdate : Bool := false

namespace Clauses

variable {S : QueryTypes}

def empty : Clauses S := {}

/-- Whether merging these clauses would change nothing. -/
def isEmpty (c : Clauses S) : Bool :=
  c.operandDatabases.isEmpty && c.conditions.isEmpty && c.orGroups.isEmpty && c.orderBy.isEmpty &&
  c.limitValue.isNone && c.offsetValue.isNone && c.selectColumns.isNone && c.rawSelectExpressions.isEmpty &&
  c.subquerySelectExpressions.isEmpty && c.groupBy.isEmpty && c.havingConditions.isEmpty && c.joins.isEmpty &&
  c.unions.isEmpty && c.windowFunctions.isEmpty && c.ctes.isEmpty && c.cacheOptions.isNone && c.cacheKey.isNone &&
  c.invalidQueryReason.isNone && c.invalidPage.isNone && !c.includeTrashed && !c.onlyTrashed && !c.lockForUpdate

def isDistinct (c : Clauses S) : Bool := c.rawSelectExpressions.any (· == distinctSelectMarker)

/-- Bring `bindings` to the clause count. -/
def resize {α : Type} (n : ℕ) (filler : α) (xs : List α) : List α := xs.take n ++ List.replicate (n - xs.length) filler

/-- The HAVING clauses of both, each with the values bound to it. -/
def mergeHaving (c other : Clauses S) : Clauses S :=
  let offset := c.havingConditions.length
  { c with
    havingComparisons := c.havingComparisons ++ other.havingComparisons
    havingTypedBindings := fun i =>
      if offset ≤ i then (other.havingTypedBindings (i - offset)).or (c.havingTypedBindings i) else c.havingTypedBindings i
    havingConditions := c.havingConditions ++ other.havingConditions
    havingBindings := resize offset [] c.havingBindings ++
      (List.range other.havingConditions.length).map fun i => (other.havingBindings[i]?).getD [] }

/-- One group of `other` is appended, or joins the shared group. -/
def mergeOrGroup (simple : Option ℕ) (c : Clauses S) (index : ℕ) (group : OrGroup S.Condition) : Clauses S :=
  if simple ≠ some index then { c with orGroups := c.orGroups ++ [group] }
  else
    match c.simpleOrGroup.bind fun own => (c.orGroups[own]?).map fun g => (own, g) with
    | some (own, g) => { c with orGroups := c.orGroups.set own (g.extend group.conditions) }
    | none => { c with simpleOrGroup := some c.orGroups.length, orGroups := c.orGroups ++ [group] }

def mergeOrGroups (c other : Clauses S) : Clauses S :=
  (other.orGroups.zipIdx).foldl (fun c g => mergeOrGroup other.simpleOrGroup c g.2 g.1) c

/-- Merge `other` in, as the builder calls that made it would. -/
def merge (c other : Clauses S) : Clauses S :=
  let grouped := c.mergeOrGroups other
  let having := c.mergeHaving other
  { dependencies := c.dependencies ++ other.dependencies
    operandDatabases := c.operandDatabases ++ other.operandDatabases
    conditions := c.conditions ++ other.conditions
    orGroups := grouped.orGroups
    simpleOrGroup := grouped.simpleOrGroup
    orderBy := c.orderBy ++ other.orderBy
    limitValue := if other.limitValue.isSome then other.limitValue else c.limitValue
    offsetValue := if other.offsetValue.isSome then other.offsetValue else c.offsetValue
    selectColumns := if other.selectColumns.isSome then other.selectColumns else c.selectColumns
    -- the sentinel is a flag, which a distinct query does not collect again
    rawSelectExpressions := c.rawSelectExpressions ++
      other.rawSelectExpressions.filter fun expression => expression != distinctSelectMarker || !c.isDistinct
    subquerySelectExpressions := c.subquerySelectExpressions ++ other.subquerySelectExpressions
    groupBy := c.groupBy ++ other.groupBy
    havingConditions := having.havingConditions
    havingBindings := having.havingBindings
    havingTypedBindings := having.havingTypedBindings
    havingComparisons := having.havingComparisons
    joins := c.joins ++ other.joins
    unions := c.unions ++ other.unions
    windowFunctions := c.windowFunctions ++ other.windowFunctions
    ctes := c.ctes ++ other.ctes
    cacheOptions := if other.cacheOptions.isSome then other.cacheOptions else c.cacheOptions
    cacheKey := if other.cacheKey.isSome then other.cacheKey else c.cacheKey
    invalidQueryReason := if c.invalidQueryReason.isNone then other.invalidQueryReason else c.invalidQueryReason
    invalidPage := if c.invalidPage.isNone then other.invalidPage else c.invalidPage
    includeTrashed := if other.onlyTrashed then false else if other.includeTrashed then true else c.includeTrashed
    onlyTrashed := if other.onlyTrashed then true else if other.includeTrashed then false else c.onlyTrashed
    lockForUpdate := c.lockForUpdate || other.lockForUpdate }

/-- The first failed builder call is the one reported. -/
def invalidateQuery (c : Clauses S) (reason : String) : Clauses S :=
  if c.invalidQueryReason.isNone then { c with invalidQueryReason := some reason } else c

/-- The checks of a call that failed, in turn. -/
def refuse (c : Clauses S) (reasons : List String) : Clauses S := reasons.foldl invalidateQuery c

/-- The join that a qualifier names. -/
def joinNamed (c : Clauses S) (qualifier : String) : Option JoinClause :=
  c.joins.find? fun join => join.qualifier == qualifier || (join.tableAlias.isNone && join.table == qualifier)

end Clauses

inductive Aggregate where
  | count
  | countDistinct (column : String)
  | sum (column : String)
  | avg (column : String)
  | min (column : String)
  | max (column : String)
deriving DecidableEq

namespace Aggregate

def render (formatColumn : String → String) : Aggregate → String
  | .count => "COUNT(*)"
  | .countDistinct column => "COUNT(DISTINCT " ++ formatColumn column ++ ")"
  | .sum column => "COALESCE(SUM(" ++ formatColumn column ++ "), 0)"
  | .avg column => "AVG(" ++ formatColumn column ++ ")"
  | .min column => "MIN(" ++ formatColumn column ++ ")"
  | .max column => "MAX(" ++ formatColumn column ++ ")"

def extremeColumn : Aggregate → Option String
  | .min column => some column
  | .max column => some column
  | _ => none

def comparedColumn : Aggregate → Option (String × String)
  | .min column => some (column, "MIN/MAX")
  | .max column => some (column, "MIN/MAX")
  | .countDistinct column => some (column, "DISTINCT")
  | .sum column => some (column, "SUM/AVG")
  | .avg column => some (column, "SUM/AVG")
  | .count => none

end Aggregate

structure AggregateCondition (S : QueryTypes) where
  aggregate : Aggregate
  operator : String
  value : Except String S.Json

inductive HavingCondition (S : QueryTypes) where
  | aggregate (condition : AggregateCondition S)
  | raw (sql : String)

/-- What a builder's calls read besides its clauses: its model, its database's dialect and
the registered models. -/
structure BuilderContext (S : QueryTypes) where
  /-- a column as an aggregate writes it, the model's own with its table -/
  formatColumn : String → String
  ownColumnType : String → Option S.ColumnType
  registeredColumnType : (table column : String) → Option S.ColumnType
  isNull : S.Json → Bool
  numericHavingValue : S.Json → Option S.Value
  jsonToColumnValue : S.Json → Option S.ColumnType → S.Value
  /-- why a raw HAVING condition is refused -/
  validateHaving : String → Option String
  softDeleteEnabled : Bool

/-- What a query takes over from one it embeds: the tables it reads, the databases named in
it, and why it could not run. -/
structure Operand (S : QueryTypes) where
  cacheTables : List String
  databases : List S.Database
  error : Option String

namespace Clauses

variable {S : QueryTypes} (ctx : BuilderContext S) (c : Clauses S)

/-- The type a model declares for a column: the query's own model's, else a joined model's. -/
def columnType (column : String) : Option S.ColumnType :=
  (ctx.ownColumnType column).or <| (rsplitOnce '.' column).bind fun (qualifier, name) =>
    (c.joinNamed qualifier).bind fun join => ctx.registeredColumnType join.table name

/-- Each HAVING clause with the values bound to its placeholders. -/
def havingClauses : List (String × List S.Value) :=
  c.havingConditions.mapIdx fun i clause =>
    (clause, match c.havingTypedBindings i with
      | some (column, value) => [ctx.jsonToColumnValue value (c.columnType ctx column)]
      | none => (c.havingBindings[i]?).getD [])

def absorbOperand (operand : Operand S) : Clauses S :=
  { c with
    dependencies := c.dependencies ++ operand.cacheTables
    operandDatabases := c.operandDatabases ++ operand.databases }.refuse operand.error.toList

def pushCondition (condition : S.Condition) : Clauses S := { c with conditions := c.conditions ++ [condition] }

/-- A subquery is absorbed and checked before its condition is pushed; there is none when a
key it is related by is missing. -/
def pushSubqueryCondition (operand : Operand S) (refusals : List String) (condition : Option S.Condition) : Clauses S :=
  let checked := (c.absorbOperand operand).refuse refusals
  match condition with
  | some condition => checked.pushCondition condition
  | none => checked

/-- A condition on related rows, unless its value is refused; a name that is refused leaves it in. -/
def pushRelatedExistsCondition (refusals : List String) (condition : Option S.Condition) : Clauses S :=
  match condition with
  | some condition => (c.refuse refusals).pushCondition condition
  | none => c.refuse refusals

/-- Add a condition to the one group that the `or_where_*` calls share. -/
def pushOrCondition (condition : S.Condition) : Clauses S :=
  match c.simpleOrGroup.bind fun own => (c.orGroups[own]?).map fun g => (own, g) with
  | some (own, g) => { c with orGroups := c.orGroups.set own (g.extend [condition]) }
  | none =>
    { c with simpleOrGroup := some c.orGroups.length, orGroups := c.orGroups ++ [OrGroup.new.extend [condition]] }

def orWhere (group : OrGroup S.Condition) : Clauses S :=
  if group.isEmpty then c else { c with orGroups := c.orGroups ++ [group] }

/-- The branches of a fluent OR: a single condition is a member of the group, more are a
nested AND group. -/
def endOr (branches : List (List S.Condition)) : Clauses S :=
  let branches := branches.filter fun branch => !branch.isEmpty
  if branches.isEmpty then c
  else
    let group : OrGroup S.Condition := .mk (branches.filter fun branch => branch.length == 1).flatten
      ((branches.filter fun branch => branch.length != 1).map fun branch => .mk branch [] .and) .or
    { c with orGroups := c.orGroups ++ [group] }

/-- A column that is refused is not ordered by. -/
def orderByColumn (column : String) (direction : Order) (refused : Option String) : Clauses S :=
  match refused with
  | some reason => c.invalidateQuery reason
  | none => { c with orderBy := c.orderBy ++ [(column, direction)] }

def reorder (column : String) (direction : Order) (refused : Option String) : Clauses S :=
  { c with orderBy := [] }.orderByColumn column direction refused

def setLimit (n : ℕ) : Clauses S := { c with limitValue := some n }

def setOffset (n : ℕ) : Clauses S := { c with offsetValue := some n }

/-- The limit and offset of a page, or the field that is refused and why. -/
def page (numbers : Except (String × String) (ℕ × ℕ)) : Clauses S :=
  match numbers with
  | .ok (perPage, offset) => (c.setLimit perPage).setOffset offset
  | .error refusal => if c.invalidPage.isNone then { c with invalidPage := some refusal } else c

def select (columns : List String) : Clauses S := { c with selectColumns := some columns }

def distinct : Clauses S :=
  if c.isDistinct then c else { c with rawSelectExpressions := c.rawSelectExpressions ++ [distinctSelectMarker] }

def selectRaw (expression : String) (refused : Option String) : Clauses S :=
  let checked := c.refuse refused.toList
  { checked with rawSelectExpressions := checked.rawSelectExpressions ++ [expression] }

def selectSubquery (operand : Operand S) (refusals : List String) (subquery : S.SubquerySelect) : Clauses S :=
  let checked := (c.absorbOperand operand).refuse refusals
  { checked with subquerySelectExpressions := checked.subquerySelectExpressions ++ [subquery] }

def pushGroupBy (column : String) : Clauses S := { c with groupBy := c.groupBy ++ [column] }

def havingWithParams (sqlTemplate : String) (params : List S.Value) : Clauses S :=
  { c with
    havingConditions := c.havingConditions ++ [sqlTemplate]
    havingBindings := c.havingBindings ++ [params] }

/-- The value an aggregate is compared with, by the type of the column in this query for an
extremum; or why the comparison is refused. -/
def havingValue (condition : AggregateCondition S) : Except String S.Value :=
  match condition.value with
  | .error reason => .error ("having(): " ++ reason)
  | .ok value =>
    match condition.aggregate with
    | .min column => .ok (ctx.jsonToColumnValue value (c.columnType ctx column))
    | .max column => .ok (ctx.jsonToColumnValue value (c.columnType ctx column))
    | _ =>
      match ctx.numericHavingValue value with
      | some value => .ok value
      | none => .error "numeric HAVING comparisons require a number"

/-- What a comparison with NULL is written as. -/
def nullOperator (operator : String) : Option String :=
  if operator == "=" then some "IS NULL" else if operator == "<>" then some "IS NOT NULL" else none

/-- Compare an aggregate with a bound value, or with NULL. -/
def compareAggregate (condition : AggregateCondition S) : Clauses S :=
  let expression := condition.aggregate.render ctx.formatColumn
  if condition.value.toOption.any ctx.isNull then
    match nullOperator condition.operator with
    | some operator => c.havingWithParams (expression ++ " " ++ operator) []
    | none => c.invalidateQuery "HAVING ordering comparisons cannot use NULL"
  else
    match c.havingValue ctx condition with
    | .error reason => c.invalidateQuery reason
    | .ok value =>
      let typed := match condition.aggregate.extremeColumn, condition.value with
        | some column, .ok value => Function.update c.havingTypedBindings c.havingConditions.length (some (column, value))
        | _, _ => c.havingTypedBindings
      { c with havingTypedBindings := typed }.havingWithParams (expression ++ " " ++ condition.operator ++ " ?") [value]

/-- The columns compared are checked once every join is known. -/
def havingAggregate (condition : AggregateCondition S) : Clauses S :=
  { c with havingComparisons := c.havingComparisons ++ condition.aggregate.comparedColumn.toList }.compareAggregate ctx condition

def having : HavingCondition S → Clauses S
  | .aggregate condition => c.havingAggregate ctx condition
  | .raw sql => (c.refuse (ctx.validateHaving sql).toList).havingWithParams sql []

def pushJoin (join : JoinClause) (refused : Option String) : Clauses S :=
  match refused with
  | some reason => c.invalidateQuery reason
  | none => { c with joins := c.joins ++ [join] }

def pushCompoundOperand (operand : Operand S) (refusals : List String) (union : S.UnionClause) : Clauses S :=
  let checked := (c.absorbOperand operand).refuse refusals
  { checked with unions := checked.unions ++ [union] }

def pushRawUnion (refused : Option String) (union : S.UnionClause) : Clauses S :=
  let checked := c.refuse refused.toList
  { checked with unions := checked.unions ++ [union] }

def window (function : S.WindowFunction) : Clauses S := { c with windowFunctions := c.windowFunctions ++ [function] }

/-- A CTE, with the query it is the body of when it was given as one. -/
def pushCte (operand : Option (Operand S)) (refusals : List String) (cte : S.Cte) : Clauses S :=
  let checked := (operand.elim c c.absorbOperand).refuse refusals
  { checked with ctes := checked.ctes ++ [cte] }

def cache (options : S.CacheOptions) : Clauses S := { c with cacheOptions := some options }

def cacheWithKey (key : String) (options : S.CacheOptions) : Clauses S :=
  { c with cacheKey := some key, cacheOptions := some options }

def noCache : Clauses S := { c with cacheOptions := none, cacheKey := none }

def withTrashed : Clauses S := { c with includeTrashed := true, onlyTrashed := false }

def setOnlyTrashed : Clauses S :=
  let checked := if ctx.softDeleteEnabled then c
    else c.invalidateQuery "only_trashed() cannot be used: this model has no soft delete"
  { checked with onlyTrashed := true, includeTrashed := false }

def liveRowsOnly : Clauses S := { c with includeTrashed := false, onlyTrashed := false }

def setLockForUpdate : Clauses S := { c with lockForUpdate := true }

end Clauses

/-- The calls that add to a query's clauses, with what the builder's checks answer to their
arguments. -/
inductive BuilderCall (S : QueryTypes) where
  | condition (condition : S.Condition)
  | subqueryCondition (operand : Operand S) (refusals : List String) (condition : Option S.Condition)
  | relatedCondition (refusals : List String) (condition : Option S.Condition)
  | orCondition (condition : S.Condition)
  | orWhere (group : OrGroup S.Condition)
  | endOr (branches : List (List S.Condition))
  | orderBy (column : String) (direction : Order) (refused : Option String)
  | limit (n : ℕ)
  | offset (n : ℕ)
  | page (numbers : Except (String × String) (ℕ × ℕ))
  | select (columns : List String)
  | distinct
  | selectRaw (expression : String) (refused : Option String)
  | selectSubquery (operand : Operand S) (refusals : List String) (subquery : S.SubquerySelect)
  | groupBy (column : String)
  | having (condition : HavingCondition S)
  | join (join : JoinClause) (refused : Option String)
  | union (operand : Operand S) (refusals : List String) (union : S.UnionClause)
  | unionRaw (refused : Option String) (union : S.UnionClause)
  | window (function : S.WindowFunction)
  | cte (operand : Option (Operand S)) (refusals : List String) (cte : S.Cte)
  | cache (options : S.CacheOptions)
  | cacheWithKey (key : String) (options : S.CacheOptions)
  | withTrashed
  | onlyTrashed
  | lockForUpdate

namespace BuilderCall

variable {S : QueryTypes}

def run (ctx : BuilderContext S) (c : Clauses S) : BuilderCall S → Clauses S
  | .condition filter => c.pushCondition filter
  | .subqueryCondition operand refusals filter => c.pushSubqueryCondition operand refusals filter
  | .relatedCondition refusals filter => c.pushRelatedExistsCondition refusals filter
  | .orCondition filter => c.pushOrCondition filter
  | .orWhere group => c.orWhere group
  | .endOr branches => c.endOr branches
  | .orderBy column direction refused => c.orderByColumn column direction refused
  | .limit n => c.setLimit n
  | .offset n => c.setOffset n
  | .page numbers => c.page numbers
  | .select columns => c.select columns
  | .distinct => c.distinct
  | .selectRaw expression refused => c.selectRaw expression refused
  | .selectSubquery operand refusals subquery => c.selectSubquery operand refusals subquery
  | .groupBy column => c.pushGroupBy column
  | .having comparison => c.having ctx comparison
  | .join clause refused => c.pushJoin clause refused
  | .union operand refusals clause => c.pushCompoundOperand operand refusals clause
  | .unionRaw refused clause => c.pushRawUnion refused clause
  | .window function => c.window function
  | .cte operand refusals body => c.pushCte operand refusals body
  | .cache options => c.cache options
  | .cacheWithKey key options => c.cacheWithKey key options
  | .withTrashed => c.withTrashed
  | .onlyTrashed => c.setOnlyTrashed ctx
  | .lockForUpdate => c.setLockForUpdate

/-- The clauses of a builder after a list of calls. -/
def build (ctx : BuilderContext S) (c : Clauses S) (calls : List (BuilderCall S)) : Clauses S := calls.foldl (run ctx) c

end BuilderCall

/-- The clauses that builder calls and merges of fragments can produce. Builders of one model
can differ in their database, so each call has its own context. -/
inductive Reachable {S : QueryTypes} : Clauses S → Prop
  | empty : Reachable .empty
  | call (ctx : BuilderContext S) {c : Clauses S} (call : BuilderCall S) : Reachable c → Reachable (call.run ctx c)
  | reorder {c : Clauses S} (column : String) (direction : Order) (refused : Option String) :
    Reachable c → Reachable (c.reorder column direction refused)
  | noCache {c : Clauses S} : Reachable c → Reachable c.noCache
  | liveRowsOnly {c : Clauses S} : Reachable c → Reachable c.liveRowsOnly
  | apply {c fragment : Clauses S} : Reachable c → Reachable fragment → Reachable (c.merge fragment)

end TideOrm
