import TideOrm.Lib.Junction
import TideOrm.Spec.Clauses
import TideOrm.Spec.Error

/-! The filters of a query (`query/filters.rs`), how they are rendered as one condition
(`query/sql/condition_builders`) and the guard that a bulk mutation passes
(`query/sql/execution/mutation_safety.rs`). -/

namespace TideOrm

open Lib

/-- A number as the JSON parser holds it. -/
inductive JsonNumber where
  | posInt (n : ℕ)
  | negInt (n : ℤ)
  | float (bits : UInt64)
deriving DecidableEq

inductive Json where
  | null
  | bool (b : Bool)
  | number (n : JsonNumber)
  | string (s : String)
  | array (items : List Json)
  | object (fields : List (String × Json))

namespace Json

def isNull : Json → Bool
  | null => true
  | _ => false

end Json

inductive Operator where
  | eq | notEq | gt | gte | lt | lte
  | like | likeEscaped | notLike
  | isIn | notIn | isNull | isNotNull | between | notBetween
  | jsonContains | jsonContainedBy | jsonKeyExists | jsonKeyNotExists | jsonPathExists | jsonPathNotExists
  | arrayContains | arrayContainedBy | arrayOverlaps
  | raw
deriving DecidableEq

/-- `V` are the values bound to SQL. -/
inductive ConditionValue (V : Type) where
  | single (value : Json)
  | list (values : List Json)
  | documentList (values : List Json) (sqlNull : Bool)
  | range (low high : Json)
  | none
  | rawExpr (sql : String)
  | rawExprWithValues (sql : String) (values : List V)
  | rawTemplate (sql : String) (values : List V)
  | column (name : String)
  | invalid (reason : String)

structure WhereCondition (V : Type) where
  column : String
  operator : Operator
  value : ConditionValue V

/-- Whether a condition keeps every row. -/
def conditionIsVacuous {V : Type} (isJson : String → Bool) (condition : WhereCondition V) : Bool :=
  match condition.operator, condition.value with
  | .notIn, .list values => values.all Json.isNull
  | .notIn, .documentList values _ => values.all Json.isNull && !isJson condition.column
  | .notEq, .none => true
  | .notEq, .single .null => !isJson condition.column
  | .arrayContains, .list values => values.isEmpty
  | .like, .single (.string pattern) | .likeEscaped, .single (.string pattern) =>
    !pattern.toList.isEmpty && pattern.toList.all (· == '%')
  | .jsonContains, .single (.object fields) => fields.isEmpty
  | .jsonContains, .single (.array items) => items.isEmpty
  | _, _ => false

inductive ComparisonOperator where
  | eq | notEq | gt | gte | lt | lte
deriving DecidableEq

def ComparisonOperator.of : Operator → Option ComparisonOperator
  | .eq => some .eq
  | .notEq => some .notEq
  | .gt => some .gt
  | .gte => some .gte
  | .lt => some .lt
  | .lte => some .lte
  | _ => none

inductive ListOperator where
  | isIn | notIn
deriving DecidableEq

def ListOperator.of : Operator → Option ListOperator
  | .isIn => some .isIn
  | .notIn => some .notIn
  | _ => none

inductive ArrayOperator where
  | contains | containedBy | overlaps
deriving DecidableEq

def ArrayOperator.of : Operator → Option ArrayOperator
  | .arrayContains => some .contains
  | .arrayContainedBy => some .containedBy
  | .arrayOverlaps => some .overlaps
  | _ => none

inductive JsonContainment where
  | contains | containedBy
deriving DecidableEq

inductive JsonExistence where
  | key | path
deriving DecidableEq

/-- The rendering that a condition's operator and value call for. -/
inductive ConditionSpec (V : Type) where
  | raw (rawSql : String) (values : List V) (template : Bool)
  | compare (operator : ComparisonOperator) (value : Json)
  | compareColumns (operator : ComparisonOperator) (other : String)
  | pattern (negated escaped : Bool) (value : Json)
  | list (operator : ListOperator) (values : List Json) (documents : Option Bool)
  | nullCheck (negated : Bool)
  | between (low high : Json) (negated : Bool)
  | jsonValue (containment : JsonContainment) (value : Json)
  | jsonExists (existence : JsonExistence) (negated : Bool) (target : String)
  | array (operator : ArrayOperator) (values : List Json)

section

variable {V : Type}

def conditionSpec (condition : WhereCondition V) : Option (ConditionSpec V) :=
  match condition.operator, condition.value with
  | .raw, .rawExpr rawSql => some (.raw rawSql [] false)
  | .raw, .rawExprWithValues sql values => some (.raw sql values false)
  | .raw, .rawTemplate sql values => some (.raw sql values true)
  | operator, .column other => (ComparisonOperator.of operator).map fun operator => .compareColumns operator other
  | .eq, .none => some (.nullCheck false)
  | .notEq, .none => some (.nullCheck true)
  | .like, .single value => some (.pattern false false value)
  | .likeEscaped, .single value => some (.pattern false true value)
  | .notLike, .single value => some (.pattern true false value)
  | .jsonContains, .single value => some (.jsonValue .contains value)
  | .jsonContainedBy, .single value => some (.jsonValue .containedBy value)
  | .jsonKeyExists, .single (.string target) => some (.jsonExists .key false target)
  | .jsonKeyNotExists, .single (.string target) => some (.jsonExists .key true target)
  | .jsonPathExists, .single (.string target) => some (.jsonExists .path false target)
  | .jsonPathNotExists, .single (.string target) => some (.jsonExists .path true target)
  | operator, .single value => (ComparisonOperator.of operator).map fun operator => .compare operator value
  | .isNull, .none => some (.nullCheck false)
  | .isNotNull, .none => some (.nullCheck true)
  | .between, .range low high => some (.between low high false)
  | .notBetween, .range low high => some (.between low high true)
  | operator, .list values =>
    match ArrayOperator.of operator with
    | some operator => some (.array operator values)
    | none => (ListOperator.of operator).map fun operator => .list operator values none
  | operator, .documentList values sqlNull =>
    (ListOperator.of operator).map fun operator => .list operator values (some sqlNull)
  | _, _ => none

/-- Why a condition cannot be rendered. -/
inductive Unrepresentable where
  | invalid (column reason : String)
  | nullBound (column : String) (operator : Operator)
  | incompatible (column : String) (operator : Operator)
deriving DecidableEq

def hasNullBound (condition : WhereCondition V) : Bool :=
  match condition.operator, condition.value with
  | .gt, .none | .gte, .none | .lt, .none | .lte, .none => true
  | .gt, .single .null | .gte, .single .null | .lt, .single .null | .lte, .single .null => true
  | .between, .range low high | .notBetween, .range low high => low.isNull || high.isNull
  | _, _ => false

def ensureConditionIsRepresentable (condition : WhereCondition V) : Except Unrepresentable Unit :=
  match condition.value with
  | .invalid reason => .error (.invalid condition.column reason)
  | _ =>
    if hasNullBound condition then .error (.nullBound condition.column condition.operator)
    else if (conditionSpec condition).isSome then .ok ()
    else .error (.incompatible (if condition.column = "" then "<raw>" else condition.column) condition.operator)

namespace OrGroup

mutual

/-- Whether a group still restricts the rows. -/
def isRestrictiveWith {C : Type} (isVacuous : C → Bool) : OrGroup C → Bool
  | .mk conditions nested .and => (conditions.any fun c => !isVacuous c) || anyRestrictive isVacuous nested
  | .mk conditions nested .or =>
    !(conditions.isEmpty && allEmpty nested) && (conditions.all fun c => !isVacuous c) && allRestrictive isVacuous nested

def anyRestrictive {C : Type} (isVacuous : C → Bool) : List (OrGroup C) → Bool
  | [] => false
  | group :: groups => group.isRestrictiveWith isVacuous || anyRestrictive isVacuous groups

/-- The nested groups that are no members, the empty ones, left out. -/
def allRestrictive {C : Type} (isVacuous : C → Bool) : List (OrGroup C) → Bool
  | [] => true
  | group :: groups => (group.isEmpty || group.isRestrictiveWith isVacuous) && allRestrictive isVacuous groups

end

mutual

def collectConditions {C : Type} : OrGroup C → List C
  | .mk conditions nested _ => conditions ++ collectAll nested

def collectAll {C : Type} : List (OrGroup C) → List C
  | [] => []
  | group :: groups => group.collectConditions ++ collectAll groups

end

end OrGroup

/-- A condition's SQL expression, which stands here for its truth value. -/
def buildConditionExpression (condition : WhereCondition V) : Option (Junction (WhereCondition V)) :=
  (conditionSpec condition).map fun _ => .atom condition

def junction {A : Type} (op : LogicalOp) (members : List (Junction A)) : Junction A :=
  match op with
  | .and => .all members
  | .or => .any members

mutual

def buildOrGroupCondition : OrGroup (WhereCondition V) → Junction (WhereCondition V)
  | .mk conditions nested op => junction op (conditions.filterMap buildConditionExpression ++ buildGroups nested)

/-- The conditions of the groups that are not empty. -/
def buildGroups : List (OrGroup (WhereCondition V)) → List (Junction (WhereCondition V))
  | [] => []
  | group :: groups => if group.isEmpty then buildGroups groups else buildOrGroupCondition group :: buildGroups groups

end

/-- `op` of the conditions and of the groups that are not empty. -/
def addFilters (op : LogicalOp) (conditions : List (WhereCondition V)) (groups : List (OrGroup (WhereCondition V))) :
    Junction (WhereCondition V) :=
  junction op (conditions.filterMap buildConditionExpression ++ buildGroups groups)

/-- A bulk mutation: its filters, and what its other checks say. -/
structure Mutation (V : Type) where
  conditions : List (WhereCondition V)
  orGroups : List (OrGroup (WhereCondition V))
  isJsonColumn : String → Bool
  /-- `ensure_query_is_valid`, and the backend's own limits -/
  invalid : Option Error
  /-- the first part of the query the statement cannot keep -/
  blocker : Option String

namespace Mutation

variable (q : Mutation V)

def allConditions : List (WhereCondition V) := q.conditions ++ OrGroup.collectAll q.orGroups

def isVacuous (condition : WhereCondition V) : Bool := conditionIsVacuous q.isJsonColumn condition

inductive Refusal where
  | invalid (error : Error)
  | unrepresentable (reason : Unrepresentable)
  | blocked (operation part : String)
  | unfiltered (error : Error)
deriving DecidableEq

def ensureQueryIsExecutable : Except Refusal Unit :=
  match q.invalid with
  | some error => .error (.invalid error)
  | none => q.allConditions.forM fun condition =>
    (ensureConditionIsRepresentable condition).mapError .unrepresentable

def ensureMutationQueryIsSafe (operation : String) : Except Refusal Unit :=
  match q.blocker with
  | some part => .error (.blocked operation part)
  | none => .ok ()

def hasExplicitMutationFilters : Bool :=
  (q.conditions.any fun condition => !q.isVacuous condition) || OrGroup.anyRestrictive q.isVacuous q.orGroups

def ensureMutationHasExplicitFilters (operation : String) : Except Refusal Unit :=
  if q.hasExplicitMutationFilters then .ok ()
  else .error (.unfiltered (.query (operation ++ " requires at least one explicit filter that can exclude a row; " ++
    "unfiltered bulk mutations are blocked")))

/-- The checks `delete` and `soft_delete` make before the statement is built. -/
def checkDelete (operation : String) : Except Refusal Unit := do
  q.ensureQueryIsExecutable
  q.ensureMutationQueryIsSafe operation
  q.ensureMutationHasExplicitFilters operation

/-- The checks of a batch update. -/
def checkUpdate (operation : String) : Except Refusal Unit := do
  q.ensureMutationQueryIsSafe operation
  q.ensureQueryIsExecutable
  q.ensureMutationHasExplicitFilters operation

end Mutation

end

end TideOrm
