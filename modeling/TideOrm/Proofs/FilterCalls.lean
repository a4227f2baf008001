import Mathlib.Algebra.Order.Group.Multiset
import TideOrm.Proofs.Filters
import TideOrm.Spec.FilterCalls

/-! The condition of a query means what its filter calls say. -/

namespace TideOrm

open Lib Junction

section Closures

variable {C : Type}

namespace GroupCall

/-- The conditions that join the group itself. -/
def own : GroupCall C → List C
  | filter condition => [condition]
  | nestedOr _ | nestedAnd _ => []

/-- The group that is nested in it. -/
def nested : GroupCall C → List (OrGroup C)
  | filter _ => []
  | nestedOr calls => [runAll .new calls]
  | nestedAnd calls => [runAll .andGroup calls]

/-- A group after the calls has their conditions and their nested groups. -/
theorem runAll_eq (calls : List (GroupCall C)) (conditions : List C) (groups : List (OrGroup C)) (op : LogicalOp) :
    runAll (.mk conditions groups op) calls = .mk (conditions ++ calls.flatMap own) (groups ++ calls.flatMap nested) op := by
  induction calls generalizing conditions groups with
  | nil => rw [runAll, List.flatMap_nil, List.flatMap_nil, List.append_nil, List.append_nil]
  | cons call calls ih =>
    rw [runAll, List.flatMap_cons, List.flatMap_cons]
    cases call with
    | filter condition => rw [run, OrGroup.extend, ih, own, nested, List.append_assoc, List.nil_append]
    | nestedOr inner | nestedAnd inner => rw [run, OrGroup.nest, ih, own, nested, List.append_assoc, List.nil_append]

theorem runAll_new (calls : List (GroupCall C)) : runAll .new calls = .mk (calls.flatMap own) (calls.flatMap nested) .or :=
  runAll_eq calls [] [] .or

theorem runAll_andGroup (calls : List (GroupCall C)) : runAll .andGroup calls = .mk (calls.flatMap own) (calls.flatMap nested) .and :=
  runAll_eq calls [] [] .and

mutual

theorem call_induction {P : List (GroupCall C) → Prop} (nil : P []) (filter : ∀ condition calls, P calls → P (.filter condition :: calls))
    (nestedOr : ∀ inner calls, P inner → P calls → P (.nestedOr inner :: calls))
    (nestedAnd : ∀ inner calls, P inner → P calls → P (.nestedAnd inner :: calls)) :
    ∀ (call : GroupCall C) (calls : List (GroupCall C)), P calls → P (call :: calls)
  | .filter condition, calls, h => filter condition calls h
  | .nestedOr inner, calls, h => nestedOr inner calls (calls_induction nil filter nestedOr nestedAnd inner) h
  | .nestedAnd inner, calls, h => nestedAnd inner calls (calls_induction nil filter nestedOr nestedAnd inner) h

theorem calls_induction {P : List (GroupCall C) → Prop} (nil : P []) (filter : ∀ condition calls, P calls → P (.filter condition :: calls))
    (nestedOr : ∀ inner calls, P inner → P calls → P (.nestedOr inner :: calls))
    (nestedAnd : ∀ inner calls, P inner → P calls → P (.nestedAnd inner :: calls)) : ∀ calls : List (GroupCall C), P calls
  | [] => nil
  | call :: calls => call_induction nil filter nestedOr nestedAnd call calls (calls_induction nil filter nestedOr nestedAnd calls)

end

theorem combined_isEmpty (join : List (Junction C) → Junction C) (members : List (Junction C)) :
    (combined join members).isEmpty = members.isEmpty := by
  unfold combined
  split_ifs with h
  · exact h.symm
  · exact (Bool.eq_false_iff.2 h).symm

/-- A group is empty when its calls add no member. -/
theorem isEmpty_calls (calls : List (GroupCall C)) :
    ((calls.flatMap own).isEmpty && OrGroup.allEmpty (calls.flatMap nested)) = (allMembers calls).isEmpty := by
  have happend (xs ys : List (Junction C)) : (xs ++ ys).isEmpty = (xs.isEmpty && ys.isEmpty) := by
    cases xs <;> rfl
  induction calls using calls_induction with
  | nil => rfl
  | filter condition calls ih => rfl
  | nestedOr inner calls ihInner ih | nestedAnd inner calls ihInner ih =>
    rw [List.flatMap_cons, List.flatMap_cons, own, nested, List.nil_append, List.singleton_append, OrGroup.allEmpty, allMembers, members,
      happend, combined_isEmpty, ← ihInner, ← ih]
    first | rw [runAll_new] | rw [runAll_andGroup]
    rw [OrGroup.isEmpty, Bool.and_left_comm]

theorem mem_allConditions (x : C) (calls : List (GroupCall C)) :
    x ∈ allConditions calls ↔ x ∈ calls.flatMap own ∨ x ∈ OrGroup.collectAll (calls.flatMap nested) := by
  induction calls using calls_induction with
  | nil => simp [allConditions, OrGroup.collectAll]
  | filter condition calls ih =>
    rw [allConditions, conditions, List.flatMap_cons, List.flatMap_cons, own, nested, List.mem_append, List.mem_append, ih, List.nil_append,
      or_assoc]
  | nestedOr inner calls ihInner ih | nestedAnd inner calls ihInner ih =>
    rw [allConditions, conditions, List.mem_append, ih, ihInner, List.flatMap_cons, List.flatMap_cons, own, nested, List.nil_append,
      List.singleton_append, OrGroup.collectAll, List.mem_append]
    first | rw [runAll_new] | rw [runAll_andGroup]
    rw [OrGroup.collectConditions, List.mem_append, or_left_comm]

end GroupCall

end Closures

section Groups

variable {V M : Type} {m : Connectives M} {value : WhereCondition V → M}

theorem buildOrGroupCondition_eq {conditions : List (WhereCondition V)} (h : Representable conditions)
    (nested : List (OrGroup (WhereCondition V))) (op : LogicalOp) :
    buildOrGroupCondition (.mk conditions nested op) = junction op (conditions.map .atom ++ buildGroups nested) := by
  rw [buildOrGroupCondition, expressions_of_representable h]

/-- The members of a closure's group are what its calls add. -/
theorem same_members (calls : List (GroupCall (WhereCondition V))) (h : Representable (GroupCall.allConditions calls)) :
    Same m value ((calls.flatMap GroupCall.own).map .atom ++ buildGroups (calls.flatMap GroupCall.nested)) (GroupCall.allMembers calls) := by
  have hown (calls : List (GroupCall (WhereCondition V))) (h : Representable (GroupCall.allConditions calls)) :
      Representable (calls.flatMap GroupCall.own) := fun c hc => h c ((GroupCall.mem_allConditions c calls).2 (.inl hc))
  have hnested (inner calls : List (GroupCall (WhereCondition V))) (group : OrGroup (WhereCondition V))
      (join : List (Junction (WhereCondition V)) → Junction (WhereCondition V)) (hempty : group.isEmpty = (GroupCall.allMembers inner).isEmpty)
      (hread : (buildOrGroupCondition group).read m value = (join (GroupCall.allMembers inner)).read m value)
      (ih : Same m value ((calls.flatMap GroupCall.own).map .atom ++ buildGroups (calls.flatMap GroupCall.nested)) (GroupCall.allMembers calls)) :
      Same m value ((calls.flatMap GroupCall.own).map .atom ++ buildGroups (group :: calls.flatMap GroupCall.nested))
        (combined join (GroupCall.allMembers inner) ++ GroupCall.allMembers calls) := by
    rw [buildGroups, hempty, combined]
    split_ifs
    · exact ih
    · exact ih.middle hread
  induction calls using GroupCall.calls_induction with
  | nil => exact List.Perm.refl _
  | filter condition calls ih =>
    exact Same.cons rfl (ih fun c hc => h c (List.mem_append_right _ hc))
  | nestedOr inner calls ihInner ih =>
    have hinner : Representable (GroupCall.allConditions inner) := fun c hc => h c (List.mem_append_left _ hc)
    refine hnested inner calls (GroupCall.runAll .new inner) .any ?_ ?_ (ih fun c hc => h c (List.mem_append_right _ hc))
    · rw [GroupCall.runAll_new, OrGroup.isEmpty, GroupCall.isEmpty_calls]
    · rw [GroupCall.runAll_new, buildOrGroupCondition_eq (hown inner hinner)]
      exact (ihInner hinner).readAny
  | nestedAnd inner calls ihInner ih =>
    have hinner : Representable (GroupCall.allConditions inner) := fun c hc => h c (List.mem_append_left _ hc)
    refine hnested inner calls (GroupCall.runAll .andGroup inner) .all ?_ ?_ (ih fun c hc => h c (List.mem_append_right _ hc))
    · rw [GroupCall.runAll_andGroup, OrGroup.isEmpty, GroupCall.isEmpty_calls]
    · rw [GroupCall.runAll_andGroup, buildOrGroupCondition_eq (hown inner hinner)]
      exact (ihInner hinner).readAll

end Groups

section Branches

variable {S : QueryTypes}

/-- A group of the conditions of one branch. -/
def branchGroup {C : Type} (branch : List C) : OrGroup C := .mk branch [] .and

namespace OrBranchBuilder

/-- The branches that are closed, and the conditions of the one that is open. -/
structure Holds (b : OrBranchBuilder S) (query : Clauses S) (closed : List (List S.Condition)) (current : List S.Condition) : Prop where
  query_eq : b.query = query
  branches_eq : b.branches = closed.map branchGroup
  current_eq : b.currentBranch = branchGroup current

theorem isEmpty_branchGroup {C : Type} (branch : List C) : (branchGroup branch).isEmpty = branch.isEmpty := Bool.and_true _

/-- The branches once the open one, if it has conditions, is closed. -/
def closing {C : Type} (closed : List (List C)) (current : List C) : List (List C) :=
  if current.isEmpty then closed else closed ++ [current]

theorem Holds.close {b : OrBranchBuilder S} {query : Clauses S} {closed : List (List S.Condition)} {current : List S.Condition}
    (h : b.Holds query closed current) : (if b.currentBranch.isEmpty then b.branches else b.branches ++ [b.currentBranch]) =
      (closing closed current).map branchGroup := by
  rw [h.current_eq, h.branches_eq, isEmpty_branchGroup, closing]
  split_ifs
  · rfl
  · rw [List.map_append, List.map_singleton]

theorem Holds.run {b : OrBranchBuilder S} {query : Clauses S} {closed : List (List S.Condition)} {current : List S.Condition}
    (h : b.Holds query closed current) (call : BranchCall S.Condition) : (b.run call).Holds query
      (if call.isAnd then closed else closing closed current) (if call.isAnd then current ++ [call.condition] else [call.condition]) := by
  cases call with
  | orWhere condition => exact ⟨h.query_eq, h.close, rfl⟩
  | andWhere condition =>
    refine ⟨h.query_eq, h.branches_eq, ?_⟩
    show b.currentBranch.extend [condition] = _
    rw [h.current_eq]
    rfl

/-- The branches that the calls leave when the open one has these conditions. -/
def following {C : Type} : List C → List (BranchCall C) → List (List C)
  | [], calls => TideOrm.branches calls
  | first :: rest, calls =>
    (first :: (rest ++ (calls.takeWhile BranchCall.isAnd).map BranchCall.condition)) :: TideOrm.branches (calls.dropWhile BranchCall.isAnd)

theorem following_nil {C : Type} (closed : List (List C)) (current : List C) : closed ++ following current [] = closing closed current := by
  cases current with
  | nil =>
    rw [following, TideOrm.branches]
    exact List.append_nil _
  | cons first rest =>
    rw [following, List.takeWhile_nil, List.dropWhile_nil, TideOrm.branches, List.map_nil, List.append_nil]
    rfl

theorem following_orWhere {C : Type} (closed : List (List C)) (current : List C) (condition : C) (calls : List (BranchCall C)) :
    closed ++ following current (.orWhere condition :: calls) = closing closed current ++ following [condition] calls := by
  have hbranches : TideOrm.branches (.orWhere condition :: calls) = following [condition] calls := by
    rw [TideOrm.branches]
    rfl
  cases current with
  | nil => exact congrArg (closed ++ ·) hbranches
  | cons first rest =>
    rw [following, List.takeWhile_cons_of_neg Bool.false_ne_true, List.dropWhile_cons_of_neg Bool.false_ne_true, hbranches, List.map_nil,
      List.append_nil]
    exact (List.append_assoc closed [first :: rest] _).symm

theorem following_andWhere {C : Type} (current : List C) (condition : C) (calls : List (BranchCall C)) :
    following current (.andWhere condition :: calls) = following (current ++ [condition]) calls := by
  cases current with
  | nil =>
    rw [following, TideOrm.branches]
    rfl
  | cons first rest =>
    rw [following, List.takeWhile_cons_of_pos rfl, List.dropWhile_cons_of_pos rfl, List.cons_append, following, List.append_assoc]
    rfl

/-- The builder after the calls has their branches behind those that were closed. -/
theorem Holds.runs {b : OrBranchBuilder S} {query : Clauses S} (calls : List (BranchCall S.Condition)) {closed : List (List S.Condition)}
    {current : List S.Condition} (h : b.Holds query closed current) : ∃ closed' current',
      (calls.foldl OrBranchBuilder.run b).Holds query closed' current' ∧ closing closed' current' = closed ++ following current calls := by
  induction calls generalizing b closed current with
  | nil => exact ⟨closed, current, h, (following_nil closed current).symm⟩
  | cons call calls ih =>
    obtain ⟨closed', current', hholds, hclosing⟩ := ih (h.run call)
    refine ⟨closed', current', hholds, hclosing.trans ?_⟩
    cases call with
    | orWhere condition => exact (following_orWhere closed current condition calls).symm
    | andWhere condition => exact congrArg (closed ++ ·) (following_andWhere current condition calls).symm

/-- The fluent calls add the one group of their branches. -/
theorem endOr_runs (query : Clauses S) (calls : List (BranchCall S.Condition)) : (calls.foldl OrBranchBuilder.run (.new query)).endOr =
    if (TideOrm.branches calls).isEmpty then query
    else { query with orGroups := query.orGroups ++ [((TideOrm.branches calls).map branchGroup).foldl OrGroup.addBranch .new] } := by
  obtain ⟨closed, current, hholds, hclosing⟩ := @Holds.runs S (.new query) query calls [] [] ⟨rfl, rfl, rfl⟩
  unfold endOr
  dsimp only
  rw [hholds.close, hclosing, hholds.query_eq, List.isEmpty_map]
  rfl

theorem nil_not_mem_branches {C : Type} (calls : List (BranchCall C)) : [] ∉ TideOrm.branches calls := by
  induction calls using TideOrm.branches.induct with
  | case1 =>
    rw [TideOrm.branches]
    exact List.not_mem_nil
  | case2 call calls ih =>
    rw [TideOrm.branches, List.mem_cons, not_or]
    exact ⟨List.cons_ne_nil _ _ ∘ Eq.symm, ih⟩

theorem flatten_branches {C : Type} (calls : List (BranchCall C)) : (TideOrm.branches calls).flatten = calls.map BranchCall.condition := by
  induction calls using TideOrm.branches.induct with
  | case1 =>
    rw [TideOrm.branches]
    rfl
  | case2 call calls ih =>
    rw [TideOrm.branches, List.flatten_cons, ih, List.cons_append, ← List.map_append, List.takeWhile_append_dropWhile]
    rfl

/-- The branches of one condition, and the longer ones. -/
theorem foldl_addBranch {C : Type} (branches : List (List C)) (conditions : List C) (groups : List (OrGroup C)) :
    (branches.map branchGroup).foldl OrGroup.addBranch (.mk conditions groups .or) =
      .mk (conditions ++ branches.flatMap fun branch => if branch.length = 1 then branch else [])
        (groups ++ branches.flatMap fun branch => if branch.length = 1 then [] else [branchGroup branch]) .or := by
  induction branches generalizing conditions groups with
  | nil => rw [List.map_nil, List.foldl_nil, List.flatMap_nil, List.flatMap_nil, List.append_nil, List.append_nil]
  | cons branch branches ih =>
    have hstep : OrGroup.addBranch (.mk conditions groups .or) (branchGroup branch) =
        .mk (conditions ++ if branch.length = 1 then branch else []) (groups ++ if branch.length = 1 then [] else [branchGroup branch]) .or := by
      show (if branch.length = 1 then OrGroup.extend branch _ else OrGroup.nest _ (branchGroup branch)) = _
      split_ifs
      · rw [OrGroup.extend, List.append_nil]
      · rw [OrGroup.nest, List.append_nil]
    rw [List.map_cons, List.foldl_cons, hstep, ih, List.append_assoc, List.append_assoc]
    rfl

end OrBranchBuilder

end Branches

section Reading

variable {V M : Type} {m : Connectives M} {value : WhereCondition V → M}

theorem read_branchGroup {branch : List (WhereCondition V)} (h : Representable branch) :
    (buildOrGroupCondition (branchGroup branch)).read m value = (Junction.all (branch.map .atom)).read m value := by
  rw [branchGroup, buildOrGroupCondition_eq h, buildGroups, List.append_nil]
  rfl

/-- The group of a fluent OR is the disjunction of its branches. -/
theorem read_branches {branches : List (List (WhereCondition V))} (hnil : [] ∉ branches) (h : Representable branches.flatten) :
    (buildOrGroupCondition ((branches.map branchGroup).foldl OrGroup.addBranch .new)).read m value =
      (Junction.any (branches.map fun branch => .all (branch.map .atom))).read m value := by
  have hsingles : Representable (branches.flatMap fun branch => if branch.length = 1 then branch else []) := by
    intro c hc
    obtain ⟨branch, hbranch, hmem⟩ := List.mem_flatMap.1 hc
    split_ifs at hmem
    · exact h c (List.mem_flatten.2 ⟨branch, hbranch, hmem⟩)
    · cases hmem
  rw [OrGroup.new, OrBranchBuilder.foldl_addBranch, List.nil_append, List.nil_append, buildOrGroupCondition_eq hsingles]
  refine Same.readAny ?_
  clear hsingles
  induction branches with
  | nil => exact List.Perm.refl _
  | cons branch branches ih =>
    rw [List.mem_cons, not_or] at hnil
    have hbranch : Representable branch := fun c hc => h c (List.mem_append_left _ hc)
    have hrest := ih hnil.2 fun c hc => h c (List.mem_append_right _ hc)
    rw [List.flatMap_cons, List.flatMap_cons, List.map_cons]
    by_cases hlength : branch.length = 1
    · rw [if_pos hlength, if_pos hlength, List.nil_append]
      obtain ⟨c, rfl⟩ := List.length_eq_one_iff.1 hlength
      exact Same.cons (m.conj_top _).symm hrest
    · rw [if_neg hlength, if_neg hlength, List.nil_append, List.singleton_append, buildGroups, OrBranchBuilder.isEmpty_branchGroup,
        if_neg fun hempty => hnil.1 (List.isEmpty_iff.1 hempty).symm]
      exact hrest.middle (read_branchGroup hbranch)

end Reading

/-- The group that a closure builds, unless it is empty. -/
def closureGroups {C : Type} (calls : List (GroupCall C)) : List (OrGroup C) :=
  if (GroupCall.runAll .new calls).isEmpty then [] else [GroupCall.runAll .new calls]

/-- The group of a fluent OR, unless it has no branch. -/
def fluentGroups {C : Type} (calls : List (BranchCall C)) : List (OrGroup C) :=
  if (branches calls).isEmpty then [] else [((branches calls).map branchGroup).foldl OrGroup.addBranch .new]

namespace FilterCall

section Clauses

variable {S : QueryTypes}

/-- The groups that a call pushes. -/
def pushed : FilterCall S → List (OrGroup S.Condition)
  | orWhere calls => closureGroups calls
  | beginOr calls => fluentGroups calls
  | _ => []

/-- The shared group of the `or_where_*` conditions stands among the groups that were pushed, where its
index says. -/
inductive Groups {C : Type} (orGroups : List (OrGroup C)) (simple : Option ℕ) : List C → List (OrGroup C) → Prop where
  | none (hsimple : simple = .none) : Groups orGroups simple [] orGroups
  | shared {orFilters : List C} {front back : List (OrGroup C)} (hne : orFilters ≠ [])
      (hgroups : orGroups = front ++ .mk orFilters [] .or :: back) (hsimple : simple = some front.length) :
      Groups orGroups simple orFilters (front ++ back)

/-- What the clauses hold of the calls so far. -/
structure Holds (c : Clauses S) (filters orFilters : List S.Condition) (pushed : List (OrGroup S.Condition)) : Prop where
  conditions_eq : c.conditions = filters
  groups : Groups c.orGroups c.simpleOrGroup orFilters pushed

variable {c : Clauses S} {filters orFilters : List S.Condition} {pushed : List (OrGroup S.Condition)}

theorem Groups.append {C : Type} {orGroups pushed : List (OrGroup C)} {simple : Option ℕ} {orFilters : List C}
    (h : Groups orGroups simple orFilters pushed) (more : List (OrGroup C)) : Groups (orGroups ++ more) simple orFilters (pushed ++ more) := by
  cases h with
  | none hnone => exact .none hnone
  | shared hne hshared hsome =>
    rw [List.append_assoc]
    refine .shared hne ?_ hsome
    rw [hshared, List.append_assoc, List.cons_append]

theorem Groups.pushOrCondition (h : Groups c.orGroups c.simpleOrGroup orFilters pushed) (condition : S.Condition) :
    Groups (c.pushOrCondition condition).orGroups (c.pushOrCondition condition).simpleOrGroup (orFilters ++ [condition]) pushed := by
  unfold Clauses.pushOrCondition
  cases h with
  | none hnone =>
    rw [hnone, Option.bind_none]
    have hshared := @Groups.shared _ (c.orGroups ++ [OrGroup.new.extend [condition]]) (some c.orGroups.length) [condition] c.orGroups []
      (List.cons_ne_nil _ _) rfl rfl
    rw [List.append_nil] at hshared
    exact hshared
  | @shared _ front back hne hshared hsome =>
    have hget : c.orGroups[front.length]? = some (.mk orFilters [] .or) := by
      rw [hshared, List.getElem?_append_right (Nat.le_refl _), Nat.sub_self]
      rfl
    rw [hsome, Option.bind_some, hget, Option.map_some]
    refine .shared (by simp) ?_ rfl
    show c.orGroups.set front.length _ = _
    rw [hshared, List.set_append_right _ _ (Nat.le_refl _), Nat.sub_self]
    rfl

theorem Holds.append (h : Holds c filters orFilters pushed) (more : List (OrGroup S.Condition)) :
    Holds { c with orGroups := c.orGroups ++ more } filters orFilters (pushed ++ more) :=
  ⟨h.conditions_eq, h.groups.append more⟩

theorem Holds.run (h : Holds c filters orFilters pushed) (call : FilterCall S) :
    Holds (call.run c) (filters ++ call.filters) (orFilters ++ call.orFilters) (pushed ++ call.pushed) := by
  cases call with
  | filter condition =>
    show Holds (c.pushCondition condition) (filters ++ [condition]) (orFilters ++ []) (pushed ++ [])
    rw [List.append_nil, List.append_nil]
    exact ⟨congrArg (· ++ [condition]) h.conditions_eq, h.groups⟩
  | orFilter condition =>
    show Holds (c.pushOrCondition condition) (filters ++ []) (orFilters ++ [condition]) (pushed ++ [])
    rw [List.append_nil, List.append_nil]
    refine ⟨?_, h.groups.pushOrCondition condition⟩
    unfold Clauses.pushOrCondition
    split <;> exact h.conditions_eq
  | orWhere calls =>
    show Holds (c.orWhere (GroupCall.runAll .new calls)) (filters ++ []) (orFilters ++ [])
      (pushed ++ if (GroupCall.runAll .new calls).isEmpty then [] else [GroupCall.runAll .new calls])
    rw [List.append_nil, List.append_nil, Clauses.orWhere]
    split_ifs
    · rw [List.append_nil]
      exact h
    · exact h.append _
  | beginOr calls =>
    show Holds (calls.foldl OrBranchBuilder.run (.new c)).endOr (filters ++ []) (orFilters ++ [])
      (pushed ++ if (branches calls).isEmpty then [] else [((branches calls).map branchGroup).foldl OrGroup.addBranch .new])
    rw [List.append_nil, List.append_nil, OrBranchBuilder.endOr_runs]
    split_ifs
    · rw [List.append_nil]
      exact h
    · exact h.append _
  | other call keeps =>
    obtain ⟨hconditions, hgroups, hsimple⟩ := keeps c
    show Holds (call c) (filters ++ []) (orFilters ++ []) (pushed ++ [])
    rw [List.append_nil, List.append_nil, List.append_nil]
    refine ⟨hconditions.trans h.conditions_eq, ?_⟩
    rw [hgroups, hsimple]
    exact h.groups

theorem holds_foldl (calls : List (FilterCall S)) (h : Holds c filters orFilters pushed) : Holds (calls.foldl FilterCall.run c)
    (filters ++ calls.flatMap FilterCall.filters) (orFilters ++ calls.flatMap FilterCall.orFilters) (pushed ++ calls.flatMap FilterCall.pushed) := by
  induction calls generalizing c filters orFilters pushed with
  | nil =>
    rw [List.flatMap_nil, List.flatMap_nil, List.flatMap_nil, List.append_nil, List.append_nil, List.append_nil]
    exact h
  | cons call calls ih =>
    rw [List.flatMap_cons, List.flatMap_cons, List.flatMap_cons, ← List.append_assoc, ← List.append_assoc, ← List.append_assoc]
    exact ih (h.run call)

theorem holds_build (calls : List (FilterCall S)) : Holds (build calls) (calls.flatMap FilterCall.filters)
    (calls.flatMap FilterCall.orFilters) (calls.flatMap FilterCall.pushed) :=
  holds_foldl calls ⟨rfl, .none rfl⟩

end Clauses

end FilterCall

section Collected

variable {C : Type}

theorem OrGroup.mem_collectAll (x : C) (groups : List (OrGroup C)) :
    x ∈ OrGroup.collectAll groups ↔ ∃ group ∈ groups, x ∈ group.collectConditions := by
  induction groups with
  | nil => exact iff_of_false List.not_mem_nil fun ⟨_, h, _⟩ => List.not_mem_nil h
  | cons group groups ih => rw [OrGroup.collectAll, List.mem_append, ih, List.exists_mem_cons_iff]

mutual

theorem OrGroup.collectConditions_of_isEmpty : ∀ group : OrGroup C, group.isEmpty = true → group.collectConditions = []
  | .mk conditions nested _, h => by
    rw [OrGroup.isEmpty, Bool.and_eq_true] at h
    rw [OrGroup.collectConditions, List.isEmpty_iff.1 h.1, OrGroup.collectAll_of_allEmpty nested h.2]
    rfl

theorem OrGroup.collectAll_of_allEmpty : ∀ groups : List (OrGroup C), OrGroup.allEmpty groups = true → OrGroup.collectAll groups = []
  | [], _ => rfl
  | group :: groups, h => by
    rw [OrGroup.allEmpty, Bool.and_eq_true] at h
    rw [OrGroup.collectAll, OrGroup.collectConditions_of_isEmpty group h.1, OrGroup.collectAll_of_allEmpty groups h.2]
    rfl

end

/-- The group of a fluent OR has the conditions of its branches. -/
theorem mem_collect_branches {x : C} {branches : List (List C)} (h : x ∈ branches.flatten) :
    x ∈ ((branches.map branchGroup).foldl OrGroup.addBranch .new).collectConditions := by
  obtain ⟨branch, hbranch, hx⟩ := List.mem_flatten.1 h
  rw [OrGroup.new, OrBranchBuilder.foldl_addBranch, List.nil_append, List.nil_append, OrGroup.collectConditions, List.mem_append]
  by_cases hlength : branch.length = 1
  · exact .inl (List.mem_flatMap.2 ⟨branch, hbranch, by rw [if_pos hlength]; exact hx⟩)
  · refine .inr ((OrGroup.mem_collectAll x _).2 ⟨branchGroup branch, List.mem_flatMap.2 ⟨branch, hbranch, ?_⟩, ?_⟩)
    · rw [if_neg hlength]
      exact List.mem_singleton_self _
    · exact List.mem_append_left _ hx

end Collected

section Queries

variable {V M : Type} {m : Connectives M} {value : WhereCondition V → M}

theorem buildGroups_append (front back : List (OrGroup (WhereCondition V))) :
    buildGroups (front ++ back) = buildGroups front ++ buildGroups back := by
  induction front with
  | nil => rfl
  | cons group front ih =>
    rw [List.cons_append, buildGroups, buildGroups, ih]
    split_ifs <;> rfl

/-- One group that is not empty. -/
theorem buildGroups_single {group : OrGroup (WhereCondition V)} (h : ¬group.isEmpty = true) :
    buildGroups [group] = [buildOrGroupCondition group] := by
  rw [buildGroups, if_neg h, buildGroups]

theorem collectAll_single {C : Type} (group : OrGroup C) : OrGroup.collectAll [group] = group.collectConditions := List.append_nil _

theorem same_closure (calls : List (GroupCall (WhereCondition V))) (h : Representable (OrGroup.collectAll (closureGroups calls))) :
    Same m value (buildGroups (closureGroups calls)) (combined .any (GroupCall.allMembers calls)) := by
  have hempty : (GroupCall.runAll .new calls).isEmpty = (GroupCall.allMembers calls).isEmpty := by
    rw [GroupCall.runAll_new, OrGroup.isEmpty, GroupCall.isEmpty_calls]
  rw [closureGroups] at h ⊢
  rw [combined, ← hempty]
  split_ifs at h ⊢ with hgroup
  · exact List.Perm.refl _
  · rw [buildGroups_single hgroup]
    rw [collectAll_single, GroupCall.runAll_new, OrGroup.collectConditions] at h
    refine Same.cons ?_ (List.Perm.refl _)
    rw [GroupCall.runAll_new, buildOrGroupCondition_eq fun c hc => h c (List.mem_append_left _ hc)]
    exact (same_members calls fun c hc => h c (List.mem_append.2 ((GroupCall.mem_allConditions c calls).1 hc))).readAny

theorem same_fluent (calls : List (BranchCall (WhereCondition V))) (h : Representable (OrGroup.collectAll (fluentGroups calls))) :
    Same m value (buildGroups (fluentGroups calls)) (combined .any ((branches calls).map fun branch => .all (branch.map .atom))) := by
  rw [fluentGroups] at h ⊢
  rw [combined, List.isEmpty_map]
  split_ifs at h ⊢ with hbranches
  · exact List.Perm.refl _
  · rw [collectAll_single] at h
    have hnil := OrBranchBuilder.nil_not_mem_branches calls
    have hgroup : ¬(((branches calls).map branchGroup).foldl OrGroup.addBranch .new).isEmpty = true := by
      obtain ⟨branch, hbranch⟩ := List.exists_mem_of_ne_nil _ fun hempty => hbranches (List.isEmpty_iff.2 hempty)
      obtain ⟨c, hc⟩ := List.exists_mem_of_ne_nil branch fun hempty => hnil (hempty ▸ hbranch)
      intro hempty
      have hmem := mem_collect_branches (List.mem_flatten.2 ⟨branch, hbranch, hc⟩)
      rw [OrGroup.collectConditions_of_isEmpty _ hempty] at hmem
      exact List.not_mem_nil hmem
    rw [buildGroups_single hgroup]
    exact Same.cons (read_branches hnil fun c hc => h c (mem_collect_branches hc)) (List.Perm.refl _)

/-- What a call pushes means what the call says. -/
theorem same_pushed (call : FilterCall (sqlTypes V)) (h : Representable (OrGroup.collectAll call.pushed)) :
    Same m value (buildGroups call.pushed) call.groups := by
  cases call with
  | filter _ | orFilter _ | other _ _ => exact List.Perm.refl _
  | orWhere calls => exact same_closure calls h
  | beginOr calls => exact same_fluent calls h

theorem same_flatMap {A : Type} {pushed : A → List (OrGroup (WhereCondition V))} {groups : A → List (Junction (WhereCondition V))}
    (hsame : ∀ a, Representable (OrGroup.collectAll (pushed a)) → Same m value (buildGroups (pushed a)) (groups a)) (calls : List A)
    (h : Representable (OrGroup.collectAll (calls.flatMap pushed))) : Same m value (buildGroups (calls.flatMap pushed)) (calls.flatMap groups) := by
  induction calls with
  | nil => exact List.Perm.refl _
  | cons call calls ih =>
    rw [List.flatMap_cons] at h
    have hmem (front : List (OrGroup (WhereCondition V))) (hfront : front ⊆ pushed call ++ calls.flatMap pushed) :
        Representable (OrGroup.collectAll front) := by
      intro c hc
      obtain ⟨group, hgroup, hc⟩ := (OrGroup.mem_collectAll c front).1 hc
      exact h c ((OrGroup.mem_collectAll c _).2 ⟨group, hfront hgroup, hc⟩)
    rw [List.flatMap_cons, List.flatMap_cons, buildGroups_append]
    exact (hsame call (hmem _ (List.subset_append_left _ _))).append (ih (hmem _ (List.subset_append_right _ _)))

/-- The members of the condition are what the calls say. -/
theorem same_meaning {conditions filters orFilters : List (WhereCondition V)} {orGroups pushed : List (OrGroup (WhereCondition V))}
    {simple : Option ℕ} {groups : List (Junction (WhereCondition V))} (hconditions : conditions = filters)
    (hgroups : FilterCall.Groups orGroups simple orFilters pushed) (h : Representable (conditions ++ OrGroup.collectAll orGroups))
    (hpushed : Representable (OrGroup.collectAll pushed) → Same m value (buildGroups pushed) groups) :
    Same m value (addFilters .and conditions orGroups).members (filters.map .atom ++ combined .any (orFilters.map .atom) ++ groups) := by
  subst hconditions
  show Same m value (conditions.filterMap buildConditionExpression ++ buildGroups orGroups) _
  rw [expressions_of_representable fun c hc => h c (List.mem_append_left _ hc), List.append_assoc]
  refine Same.append (List.Perm.refl _) ?_
  cases hgroups with
  | none _ => exact hpushed fun c hc => h c (List.mem_append_right _ hc)
  | @shared _ front back hne hshared _ =>
    have hmem (c : WhereCondition V) (hc : ∃ group ∈ front ++ .mk orFilters [] .or :: back, c ∈ group.collectConditions) :
        (conditionSpec c).isSome = true :=
      h c (List.mem_append_right _ (hshared ▸ (OrGroup.mem_collectAll c _).2 hc))
    have horFilters : Representable orFilters := fun c hc =>
      hmem c ⟨.mk orFilters [] .or, List.mem_append_right _ List.mem_cons_self, List.mem_append_left _ hc⟩
    have hothers : Representable (OrGroup.collectAll (front ++ back)) := by
      intro c hc
      obtain ⟨group, hgroup, hc⟩ := (OrGroup.mem_collectAll c _).1 hc
      exact hmem c ⟨group, ((List.sublist_cons_self _ back).append_left front).subset hgroup, hc⟩
    have hempty : ¬(OrGroup.mk orFilters [] .or).isEmpty = true := by
      rw [OrGroup.isEmpty, OrGroup.allEmpty, Bool.and_true, List.isEmpty_iff]
      exact hne
    have hsome : combined .any (orFilters.map .atom) = [Junction.any (orFilters.map .atom)] := by
      rw [combined, List.isEmpty_map, if_neg fun hnil => hne (List.isEmpty_iff.1 hnil)]
    rw [hshared, buildGroups_append, buildGroups, if_neg hempty, hsome, List.singleton_append]
    refine Same.middle ?_ (buildGroups_append front back ▸ hpushed hothers)
    rw [buildOrGroupCondition_eq horFilters, buildGroups, List.append_nil]
    rfl

end Queries

section Meaning

variable {V : Type}

/-- However its connectives are taken, the condition is read as what the calls say. -/
theorem read_build {M : Type} (m : Connectives M) (value : FilterAtom V → M) (softDeleteEnabled : Bool) (calls : List (FilterCall (sqlTypes V)))
    (h : Representable ((FilterCall.build calls).conditions ++ OrGroup.collectAll (FilterCall.build calls).orGroups)) :
    (buildSeaCondition softDeleteEnabled (FilterCall.build calls)).read m value = (said calls (queryScopeFor softDeleteEnabled
      (FilterCall.build calls).includeTrashed (FilterCall.build calls).onlyTrashed)).read m value := by
  have hholds := FilterCall.holds_build calls
  have hsame : Same m (fun condition => value (.condition condition)) (addFilters .and (FilterCall.build calls).conditions
      (FilterCall.build calls).orGroups).members (FilterCall.meaning calls) :=
    same_meaning hholds.conditions_eq hholds.groups h (same_flatMap same_pushed calls)
  show readAll m value (mapAll .condition _ ++ _) = readAll m value (mapAll .condition _ ++ _)
  rw [readAll_append, readAll_append]
  exact congrArg (m.conj · _) ((readAll_map _ _).trans (hsame.readAll.trans (readAll_map _ _).symm))

end Meaning

section Atoms

variable {C B : Type} (g : C → B)

/-- The members' atoms, each as `g` names it. -/
def atomsOf (members : List (Junction C)) : Multiset B := readAll (.counts B) (fun c => {g c}) members

theorem atomsOf_any (members : List (Junction C)) : readAny (.counts B) (fun c => {g c}) members = atomsOf g members := by
  induction members with
  | nil => rfl
  | cons member rest ih =>
    rw [readAny, ih]
    rfl

theorem atomsOf_append (front back : List (Junction C)) : atomsOf g (front ++ back) = atomsOf g front + atomsOf g back :=
  readAll_append front back

theorem atomsOf_atoms (conditions : List C) : atomsOf g (conditions.map .atom) = conditions.map g := by
  induction conditions with
  | nil => rfl
  | cons c conditions ih =>
    rw [List.map_cons, List.map_cons, ← Multiset.cons_coe, ← ih]
    rfl

theorem atomsOf_any_combined (members : List (Junction C)) : atomsOf g (combined .any members) = atomsOf g members := by
  unfold combined
  split_ifs with h
  · rw [List.isEmpty_iff.1 h]
  · exact (Multiset.add_zero _).trans (atomsOf_any g members)

theorem atomsOf_all_combined (members : List (Junction C)) : atomsOf g (combined .all members) = atomsOf g members := by
  unfold combined
  split_ifs with h
  · rw [List.isEmpty_iff.1 h]
  · exact Multiset.add_zero _

theorem atomsOf_calls (calls : List (GroupCall C)) : atomsOf g (GroupCall.allMembers calls) = (GroupCall.allConditions calls).map g := by
  induction calls using GroupCall.calls_induction with
  | nil => rfl
  | filter condition calls ih =>
    rw [GroupCall.allMembers, atomsOf_append, ih, GroupCall.allConditions, List.map_append, ← Multiset.coe_add]
    rfl
  | nestedOr inner calls ihInner ih =>
    rw [GroupCall.allMembers, atomsOf_append, ih, GroupCall.allConditions, List.map_append, ← Multiset.coe_add, GroupCall.members,
      atomsOf_any_combined, ihInner, GroupCall.conditions]
  | nestedAnd inner calls ihInner ih =>
    rw [GroupCall.allMembers, atomsOf_append, ih, GroupCall.allConditions, List.map_append, ← Multiset.coe_add, GroupCall.members,
      atomsOf_all_combined, ihInner, GroupCall.conditions]

theorem atomsOf_branches (branches : List (List C)) :
    atomsOf g (branches.map fun branch => .all (branch.map .atom)) = branches.flatten.map g := by
  induction branches with
  | nil => rfl
  | cons branch branches ih =>
    rw [List.map_cons, List.flatten_cons, List.map_append, ← Multiset.coe_add, ← ih, ← atomsOf_atoms]
    rfl

variable {S : QueryTypes} (g : S.Condition → B)

/-- What a call says has the conditions that it is given. -/
theorem atomsOf_groups (call : FilterCall S) :
    (call.filters.map g : Multiset B) + call.orFilters.map g + atomsOf g call.groups = call.conditions.map g := by
  cases call with
  | filter _ | orFilter _ | other _ _ => rfl
  | orWhere calls => exact (Multiset.zero_add _).trans ((atomsOf_any_combined g _).trans (atomsOf_calls g calls))
  | beginOr calls =>
    refine (Multiset.zero_add _).trans ((atomsOf_any_combined g _).trans ((atomsOf_branches g _).trans ?_))
    rw [OrBranchBuilder.flatten_branches]
    rfl

theorem atomsOf_meaning (calls : List (FilterCall S)) :
    atomsOf g (FilterCall.meaning calls) = (calls.flatMap FilterCall.conditions).map g := by
  rw [FilterCall.meaning, atomsOf_append, atomsOf_append, atomsOf_any_combined, atomsOf_atoms, atomsOf_atoms]
  induction calls with
  | nil => rfl
  | cons call calls ih =>
    rw [List.flatMap_cons, List.flatMap_cons, List.flatMap_cons, List.flatMap_cons, List.map_append, List.map_append, List.map_append,
      ← Multiset.coe_add, ← Multiset.coe_add, ← Multiset.coe_add, atomsOf_append, ← ih, ← atomsOf_groups]
    ac_rfl

end Atoms

section Queries

variable {V : Type}

theorem representable_of_ensured {db : DatabaseType} {c : Clauses (sqlTypes V)} (h : ensureConditionsAreRepresentable db c = .ok ()) :
    Representable (c.conditions ++ OrGroup.collectAll c.orGroups) := by
  intro condition hcondition
  have hok := forM_eq_ok h condition hcondition
  unfold ensureRepresentableOn at hok
  split at hok
  · cases hok
  · next hrepresentable => exact isSome_of_representable hrepresentable

/-- The condition of a query is, in the truth values of its conditions, what its calls say, and has each
condition as often as it was given. -/
theorem filters_mean_calls (db : DatabaseType) (softDeleteEnabled : Bool) (calls : List (FilterCall (sqlTypes V)))
    (h : ensureConditionsAreRepresentable db (FilterCall.build calls) = .ok ()) :
    let scope := queryScopeFor softDeleteEnabled (FilterCall.build calls).includeTrashed (FilterCall.build calls).onlyTrashed
    let built := buildSeaCondition softDeleteEnabled (FilterCall.build calls)
    (∀ truth : FilterAtom V → Kleene, built.read Kleene.connectives truth = (said calls scope).read Kleene.connectives truth) ∧
      built.atoms = ((calls.flatMap FilterCall.conditions).map FilterAtom.condition ++ (buildSoftDeleteExpression scope).toList : List (FilterAtom V)) := by
  intro scope built
  have hread := fun {M : Type} (m : Connectives M) value => read_build m value softDeleteEnabled calls (representable_of_ensured h)
  refine ⟨hread _, (hread _ _).trans ?_⟩
  show readAll (.counts (FilterAtom V)) _ (mapAll FilterAtom.condition _ ++ _) = _
  rw [readAll_append, ← Multiset.coe_add]
  have hscope := @atomsOf_atoms (FilterAtom V) (FilterAtom V) id (buildSoftDeleteExpression scope).toList
  rw [List.map_id] at hscope
  have hmeaning : atomsOf (fun c => (FilterAtom.condition c : FilterAtom V)) (FilterCall.meaning calls) = _ := atomsOf_meaning _ calls
  exact congrArg₂ (· + ·) ((readAll_map _ _).trans hmeaning) hscope

end Queries

section Users

def columnIsTrue (column : String) : WhereCondition Unit := ⟨column, .eq, .single (.bool true)⟩

/-- A query with a filter of each kind. -/
def usersFilters : List (FilterCall (sqlTypes Unit)) :=
  [.orFilter (columnIsTrue "admin"), .filter (columnIsTrue "active"), .orWhere [.nestedAnd [], .nestedOr [.filter (columnIsTrue "paid")]],
    .beginOr [.orWhere (columnIsTrue "old"), .andWhere (columnIsTrue "kept"), .orWhere (columnIsTrue "new")], .orFilter (columnIsTrue "owner")]

theorem filters_mean_users_filters : (buildSeaCondition true (FilterCall.build usersFilters)).atoms =
    ([.condition (columnIsTrue "admin"), .condition (columnIsTrue "active"), .condition (columnIsTrue "paid"), .condition (columnIsTrue "old"),
      .condition (columnIsTrue "kept"), .condition (columnIsTrue "new"), .condition (columnIsTrue "owner"), .deletedAt true] : List (FilterAtom Unit)) :=
  (filters_mean_calls .sqlite true usersFilters rfl).2

end Users

end TideOrm
