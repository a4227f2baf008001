import TideOrm.Spec.JsonPath
import TideOrm.Spec.SelectQuery

/-! The filter calls of a query (`query/or_clauses.rs`, `query/filters/or_branch_builder.rs`), the one
condition they are rendered as (`query/sql/condition_builders`), and what they say. -/

namespace TideOrm

open Lib

namespace OrGroup

variable {C : Type}

/-- An empty group whose members are ANDed together. -/
def andGroup : OrGroup C := .mk [] [] .and

/-- A group with one more group nested in it. -/
def nest : OrGroup C → OrGroup C → OrGroup C
  | .mk conditions nested op, group => .mk conditions (nested ++ [group]) op

/-- A branch of one condition is a plain member, a longer one a nested group. -/
def addBranch (group branch : OrGroup C) : OrGroup C :=
  if branch.conditions.length = 1 then group.extend branch.conditions else group.nest branch

end OrGroup

section Closures

variable {C : Type}

/-- A call on the group that a closure is given. -/
inductive GroupCall (C : Type) where
  | filter (condition : C)
  | nestedOr (calls : List (GroupCall C))
  | nestedAnd (calls : List (GroupCall C))

namespace GroupCall

mutual

def run : OrGroup C → GroupCall C → OrGroup C
  | group, filter condition => group.extend [condition]
  | group, nestedOr calls => group.nest (runAll .new calls)
  | group, nestedAnd calls => group.nest (runAll .andGroup calls)

def runAll : OrGroup C → List (GroupCall C) → OrGroup C
  | group, [] => group
  | group, call :: calls => runAll (run group call) calls

end

end GroupCall

/-- A call between `begin_or` and `end_or`. -/
inductive BranchCall (C : Type) where
  | orWhere (condition : C)
  | andWhere (condition : C)

namespace BranchCall

def condition : BranchCall C → C
  | orWhere condition | andWhere condition => condition

def isAnd : BranchCall C → Bool
  | orWhere _ => false
  | andWhere _ => true

end BranchCall

end Closures

section Branches

variable {S : QueryTypes}

structure OrBranchBuilder (S : QueryTypes) where
  query : Clauses S
  branches : List (OrGroup S.Condition)
  currentBranch : OrGroup S.Condition

namespace OrBranchBuilder

def new (query : Clauses S) : OrBranchBuilder S := ⟨query, [], .andGroup⟩

def startBranch (b : OrBranchBuilder S) (condition : S.Condition) : OrBranchBuilder S where
  query := b.query
  branches := if b.currentBranch.isEmpty then b.branches else b.branches ++ [b.currentBranch]
  currentBranch := OrGroup.andGroup.extend [condition]

def extendBranch (b : OrBranchBuilder S) (condition : S.Condition) : OrBranchBuilder S :=
  { b with currentBranch := b.currentBranch.extend [condition] }

def run (b : OrBranchBuilder S) : BranchCall S.Condition → OrBranchBuilder S
  | .orWhere condition => b.startBranch condition
  | .andWhere condition => b.extendBranch condition

def endOr (b : OrBranchBuilder S) : Clauses S :=
  let branches := if b.currentBranch.isEmpty then b.branches else b.branches ++ [b.currentBranch]
  if branches.isEmpty then b.query
  else { b.query with orGroups := b.query.orGroups ++ [branches.foldl OrGroup.addBranch .new] }

end OrBranchBuilder

/-- A call on a query. -/
inductive FilterCall (S : QueryTypes) where
  /-- `where_*` -/
  | filter (condition : S.Condition)
  /-- `or_where_*` -/
  | orFilter (condition : S.Condition)
  /-- `or_where`, with its closure -/
  | orWhere (calls : List (GroupCall S.Condition))
  /-- `begin_or`, and the calls up to `end_or` -/
  | beginOr (calls : List (BranchCall S.Condition))
  /-- a call that adds no filter -/
  | other (call : Clauses S → Clauses S)
      (keeps : ∀ c, (call c).conditions = c.conditions ∧ (call c).orGroups = c.orGroups ∧ (call c).simpleOrGroup = c.simpleOrGroup)

namespace FilterCall

def run (c : Clauses S) : FilterCall S → Clauses S
  | filter condition => c.pushCondition condition
  | orFilter condition => c.pushOrCondition condition
  | orWhere calls => c.orWhere (GroupCall.runAll .new calls)
  | beginOr calls => (calls.foldl OrBranchBuilder.run (.new c)).endOr
  | other call _ => call c

/-- The clauses of a query after the calls. -/
def build (calls : List (FilterCall S)) : Clauses S := calls.foldl run .empty

end FilterCall

end Branches

section Rendering

variable {V : Type}

/-- Why a query's filters are refused on a backend. -/
inductive FilterRefusal where
  | unrepresentable (reason : Unrepresentable)
  | nulText
  | jsonPath (column path : String)
deriving DecidableEq

/-- What `ensure_conditions_are_representable` asks of one condition. -/
def ensureRepresentableOn (db : DatabaseType) (condition : WhereCondition V) : Except FilterRefusal Unit :=
  match ensureConditionIsRepresentable condition with
  | .error reason => .error (.unrepresentable reason)
  | .ok () =>
    match condition.operator, condition.value with
    | .likeEscaped, .single (.string text) => if db = .sqlite ∧ '\x00' ∈ text.toList then .error .nulText else .ok ()
    | .jsonPathExists, .single (.string path) | .jsonPathNotExists, .single (.string path) =>
      if db ≠ .postgres ∧ (parseJsonPath path.toList).isNone then .error (.jsonPath condition.column path) else .ok ()
    | _, _ => .ok ()

def ensureConditionsAreRepresentable (db : DatabaseType) (c : Clauses (sqlTypes V)) : Except FilterRefusal Unit :=
  List.forM (c.conditions ++ OrGroup.collectAll c.orGroups : List (WhereCondition V)) (ensureRepresentableOn db)

/-- A condition of the query, or the test of the deleted-at column. -/
inductive FilterAtom (V : Type) where
  | condition (condition : WhereCondition V)
  | deletedAt (isNull : Bool)

def queryScopeFor (softDeleteEnabled includeTrashed onlyTrashed : Bool) : SoftDeleteScope :=
  if !softDeleteEnabled then .disabled
  else if onlyTrashed then .onlyTrashed
  else if includeTrashed then .withTrashed
  else .activeOnly

def buildSoftDeleteExpression : SoftDeleteScope → Option (FilterAtom V)
  | .disabled | .withTrashed => none
  | .activeOnly => some (.deletedAt true)
  | .onlyTrashed => some (.deletedAt false)

def buildSeaCondition (softDeleteEnabled : Bool) (c : Clauses (sqlTypes V)) : Junction (FilterAtom V) :=
  .all (Junction.mapAll .condition (addFilters .and c.conditions c.orGroups).members ++
    (buildSoftDeleteExpression (queryScopeFor softDeleteEnabled c.includeTrashed c.onlyTrashed)).toList.map .atom)

end Rendering

section Meaning

variable {C : Type}

/-- Members that are none make no group. -/
def combined (join : List (Junction C) → Junction C) (members : List (Junction C)) : List (Junction C) :=
  if members.isEmpty then [] else [join members]

namespace GroupCall

mutual

/-- What a call adds to its group. -/
def members : GroupCall C → List (Junction C)
  | filter condition => [.atom condition]
  | nestedOr calls => combined .any (allMembers calls)
  | nestedAnd calls => combined .all (allMembers calls)

def allMembers : List (GroupCall C) → List (Junction C)
  | [] => []
  | call :: calls => call.members ++ allMembers calls

end

mutual

def conditions : GroupCall C → List C
  | filter condition => [condition]
  | nestedOr calls | nestedAnd calls => allConditions calls

def allConditions : List (GroupCall C) → List C
  | [] => []
  | call :: calls => call.conditions ++ allConditions calls

end

end GroupCall

/-- A branch is a call and the `and_where_*` calls behind it. -/
def branches : List (BranchCall C) → List (List C)
  | [] => []
  | call :: calls =>
    (call.condition :: (calls.takeWhile BranchCall.isAnd).map BranchCall.condition) :: branches (calls.dropWhile BranchCall.isAnd)
termination_by calls => calls.length
decreasing_by exact Nat.lt_succ_of_le (List.dropWhile_suffix _).length_le

namespace FilterCall

variable {S : QueryTypes}

def filters : FilterCall S → List S.Condition
  | filter condition => [condition]
  | _ => []

def orFilters : FilterCall S → List S.Condition
  | orFilter condition => [condition]
  | _ => []

/-- The group that a closure builds, or the disjunction of the branches of a fluent OR. -/
def groups : FilterCall S → List (Junction S.Condition)
  | orWhere calls => combined .any (GroupCall.allMembers calls)
  | beginOr calls => combined .any ((branches calls).map fun branch => .all (branch.map .atom))
  | _ => []

/-- The conditions that a call is given. -/
def conditions : FilterCall S → List S.Condition
  | filter condition | orFilter condition => [condition]
  | orWhere calls => GroupCall.allConditions calls
  | beginOr calls => calls.map BranchCall.condition
  | other _ _ => []

/-- What the calls say: every `where_*` condition, one of the `or_where_*` conditions, and each group. -/
def meaning (calls : List (FilterCall S)) : List (Junction S.Condition) :=
  (calls.flatMap filters).map .atom ++ combined .any ((calls.flatMap orFilters).map .atom) ++ calls.flatMap groups

end FilterCall

/-- The conjunction of what the calls say and of the soft-delete scope. -/
def said {V : Type} (calls : List (FilterCall (sqlTypes V))) (scope : SoftDeleteScope) : Junction (FilterAtom V) :=
  .all (Junction.mapAll .condition (FilterCall.meaning calls) ++ (buildSoftDeleteExpression scope).toList.map .atom)

end Meaning

end TideOrm
