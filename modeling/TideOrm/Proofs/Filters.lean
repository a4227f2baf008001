import TideOrm.Spec.Filters

/-! The guard of bulk mutations agrees with the rendered filters: a tree of conditions
restricts the rows exactly when its predicate is false with every condition false that is
not vacuous. -/

namespace TideOrm

open Lib

namespace OrGroup

variable {C : Type} (isVacuous : C → Bool)

mutual

theorem isRestrictiveWith_of_isEmpty : ∀ group : OrGroup C, group.isEmpty = true →
    group.isRestrictiveWith isVacuous = false
  | .mk conditions nested .and, h => by
    rw [isEmpty, Bool.and_eq_true] at h
    rw [isRestrictiveWith, anyRestrictive_of_allEmpty nested h.2, List.isEmpty_iff.1 h.1]
    rfl
  | .mk conditions nested .or, h => by
    rw [isEmpty] at h
    rw [isRestrictiveWith, h]
    rfl

theorem anyRestrictive_of_allEmpty : ∀ groups : List (OrGroup C), allEmpty groups = true →
    anyRestrictive isVacuous groups = false
  | [], _ => rfl
  | group :: groups, h => by
    rw [allEmpty, Bool.and_eq_true] at h
    rw [anyRestrictive, isRestrictiveWith_of_isEmpty group h.1, anyRestrictive_of_allEmpty groups h.2]
    rfl

end

end OrGroup

section Rendered

variable {V : Type} {isVacuous : WhereCondition V → Bool}

/-- Every condition has a rendering. -/
def Representable (conditions : List (WhereCondition V)) : Prop := ∀ c ∈ conditions, (conditionSpec c).isSome = true

theorem expressions_of_representable {conditions : List (WhereCondition V)} (h : Representable conditions) :
    conditions.filterMap buildConditionExpression = conditions.map .atom := by
  induction conditions with
  | nil => rfl
  | cons c conditions ih =>
    obtain ⟨spec, hspec⟩ := Option.isSome_iff_exists.1 (h c List.mem_cons_self)
    have hc : buildConditionExpression c = some (.atom c) := by rw [buildConditionExpression, hspec]; rfl
    rw [List.filterMap_cons_some hc, List.map_cons, ih fun other hother => h other (List.mem_cons_of_mem _ hother)]

theorem eval_junction_and {conditions : List (WhereCondition V)} (h : Representable conditions)
    (groups : List (Junction (WhereCondition V))) :
    (junction .and (conditions.filterMap buildConditionExpression ++ groups)).eval isVacuous =
      !((conditions.any fun c => !isVacuous c) || !Junction.evalAll isVacuous groups) := by
  rw [junction, Junction.eval, Junction.evalAll_append, expressions_of_representable h, Junction.evalAll_atoms,
    Bool.not_or, List.not_any_eq_all_not]
  simp

theorem eval_junction_or {conditions : List (WhereCondition V)} (h : Representable conditions)
    (groups : List (Junction (WhereCondition V))) :
    (junction .or (conditions.filterMap buildConditionExpression ++ groups)).eval isVacuous =
      !((conditions.all fun c => !isVacuous c) && !Junction.evalAny isVacuous groups) := by
  rw [junction, Junction.eval, Junction.evalAny_append, expressions_of_representable h, Junction.evalAny_atoms,
    Bool.not_and, List.not_all_eq_any_not]
  simp

mutual

/-- A group's predicate, with every condition false that is not vacuous. -/
theorem eval_group : ∀ group : OrGroup (WhereCondition V), Representable group.collectConditions → group.isEmpty = false →
    (buildOrGroupCondition group).eval isVacuous = !group.isRestrictiveWith isVacuous
  | .mk conditions nested .and, h, _ => by
    have hown : Representable conditions := fun c hc => h c (List.mem_append_left _ hc)
    have hnested : Representable (OrGroup.collectAll nested) := fun c hc => h c (List.mem_append_right _ hc)
    rw [buildOrGroupCondition, eval_junction_and hown, evalAll_groups nested hnested, Bool.not_not,
      OrGroup.isRestrictiveWith]
  | .mk conditions nested .or, h, hempty => by
    have hown : Representable conditions := fun c hc => h c (List.mem_append_left _ hc)
    have hnested : Representable (OrGroup.collectAll nested) := fun c hc => h c (List.mem_append_right _ hc)
    rw [OrGroup.isEmpty] at hempty
    rw [buildOrGroupCondition, eval_junction_or hown, evalAny_groups nested hnested, Bool.not_not,
      OrGroup.isRestrictiveWith, hempty, Bool.not_false, Bool.true_and]

theorem evalAll_groups : ∀ groups : List (OrGroup (WhereCondition V)), Representable (OrGroup.collectAll groups) →
    Junction.evalAll isVacuous (buildGroups groups) = !OrGroup.anyRestrictive isVacuous groups
  | [], _ => rfl
  | group :: groups, h => by
    have hgroup : Representable group.collectConditions := fun c hc => h c (List.mem_append_left _ hc)
    have hrest : Representable (OrGroup.collectAll groups) := fun c hc => h c (List.mem_append_right _ hc)
    rw [buildGroups, OrGroup.anyRestrictive]
    cases hempty : group.isEmpty with
    | true =>
      rw [if_pos rfl, evalAll_groups groups hrest, OrGroup.isRestrictiveWith_of_isEmpty isVacuous group hempty,
        Bool.false_or]
    | false =>
      rw [if_neg Bool.false_ne_true, Junction.evalAll, eval_group group hgroup hempty, evalAll_groups groups hrest,
        Bool.not_or]

theorem evalAny_groups : ∀ groups : List (OrGroup (WhereCondition V)), Representable (OrGroup.collectAll groups) →
    Junction.evalAny isVacuous (buildGroups groups) = !OrGroup.allRestrictive isVacuous groups
  | [], _ => rfl
  | group :: groups, h => by
    have hgroup : Representable group.collectConditions := fun c hc => h c (List.mem_append_left _ hc)
    have hrest : Representable (OrGroup.collectAll groups) := fun c hc => h c (List.mem_append_right _ hc)
    rw [buildGroups, OrGroup.allRestrictive]
    cases hempty : group.isEmpty with
    | true => rw [if_pos rfl, evalAny_groups groups hrest, Bool.true_or, Bool.true_and]
    | false =>
      rw [if_neg Bool.false_ne_true, Junction.evalAny, eval_group group hgroup hempty, evalAny_groups groups hrest,
        Bool.false_or, Bool.not_and]

end

end Rendered

section Guard

variable {V : Type}

/-- A rendered predicate that is false for some truth values of the conditions that are not
vacuous. -/
def CanExclude (isVacuous : WhereCondition V → Bool) (predicate : Junction (WhereCondition V)) : Prop :=
  ∃ truth : WhereCondition V → Bool, predicate.eval (fun c => isVacuous c || truth c) = false

/-- The predicate emitted for a group; an empty one is left out. -/
def renderedGroup (group : OrGroup (WhereCondition V)) : Option (Junction (WhereCondition V)) :=
  if group.isEmpty then none else some (buildOrGroupCondition group)

theorem restrictive_iff_canExclude (isVacuous : WhereCondition V → Bool) (group : OrGroup (WhereCondition V))
    (h : Representable group.collectConditions) :
    group.isRestrictiveWith isVacuous = true ↔ ∃ predicate ∈ renderedGroup group, CanExclude isVacuous predicate := by
  unfold renderedGroup
  cases hempty : group.isEmpty with
  | true => simp [OrGroup.isRestrictiveWith_of_isEmpty isVacuous group hempty]
  | false =>
    simp only [Bool.false_eq_true, if_false, Option.mem_def, Option.some.injEq, exists_eq_left']
    rw [CanExclude, Junction.exists_eval_false_iff, eval_group group h hempty, Bool.not_eq_false']

theorem explicit_iff_canExclude (q : Mutation V) (h : Representable q.allConditions) :
    q.hasExplicitMutationFilters = true ↔ CanExclude q.isVacuous (addFilters .and q.conditions q.orGroups) := by
  have hown : Representable q.conditions := fun c hc => h c (List.mem_append_left _ hc)
  have hgroups : Representable (OrGroup.collectAll q.orGroups) := fun c hc => h c (List.mem_append_right _ hc)
  rw [CanExclude, Junction.exists_eval_false_iff, addFilters, eval_junction_and hown, evalAll_groups _ hgroups,
    Bool.not_not, Bool.not_eq_false', Mutation.hasExplicitMutationFilters]

theorem forM_eq_ok {α ε : Type} {f : α → Except ε Unit} {items : List α} (h : items.forM f = .ok ()) :
    ∀ item ∈ items, f item = .ok () := by
  induction items with
  | nil =>
    intro item hitem
    cases hitem
  | cons first items ih =>
    change (f first >>= fun _ => items.forM f) = .ok () at h
    cases hfirst : f first with
    | error e =>
      rw [hfirst] at h
      cases h
    | ok =>
      rw [hfirst] at h
      intro item hitem
      rcases List.mem_cons.1 hitem with rfl | hitem
      · exact hfirst
      · exact ih h item hitem

theorem isSome_of_representable {condition : WhereCondition V} (h : ensureConditionIsRepresentable condition = .ok ()) :
    (conditionSpec condition).isSome = true := by
  unfold ensureConditionIsRepresentable at h
  split at h
  · cases h
  · split_ifs at h with hnull hspec
    exact hspec

/-- A query whose conditions cannot all be rendered does not run. -/
theorem representable_of_executable {q : Mutation V} (h : q.ensureQueryIsExecutable = .ok ()) :
    Representable q.allConditions := by
  unfold Mutation.ensureQueryIsExecutable at h
  split at h
  · cases h
  · intro condition hcondition
    have hok := forM_eq_ok h condition hcondition
    apply isSome_of_representable
    cases hresult : ensureConditionIsRepresentable condition with
    | error reason =>
      rw [hresult] at hok
      cases hok
    | ok => rfl

theorem checks_of_delete {q : Mutation V} {operation : String} (h : q.checkDelete operation = .ok ()) :
    q.ensureQueryIsExecutable = .ok () ∧ q.ensureMutationHasExplicitFilters operation = .ok () := by
  unfold Mutation.checkDelete at h
  cases hexecutable : q.ensureQueryIsExecutable with
  | error e =>
    rw [hexecutable] at h
    cases h
  | ok =>
    cases hsafe : q.ensureMutationQueryIsSafe operation with
    | error e =>
      rw [hexecutable, hsafe] at h
      cases h
    | ok =>
      rw [hexecutable, hsafe] at h
      exact ⟨rfl, h⟩

theorem checks_of_update {q : Mutation V} {operation : String} (h : q.checkUpdate operation = .ok ()) :
    q.ensureQueryIsExecutable = .ok () ∧ q.ensureMutationHasExplicitFilters operation = .ok () := by
  unfold Mutation.checkUpdate at h
  cases hsafe : q.ensureMutationQueryIsSafe operation with
  | error e =>
    rw [hsafe] at h
    cases h
  | ok =>
    cases hexecutable : q.ensureQueryIsExecutable with
    | error e =>
      rw [hexecutable, hsafe] at h
      cases h
    | ok =>
      rw [hexecutable, hsafe] at h
      exact ⟨rfl, h⟩

theorem explicit_of_ok {q : Mutation V} {operation : String} (h : q.ensureMutationHasExplicitFilters operation = .ok ()) :
    q.hasExplicitMutationFilters = true := by
  unfold Mutation.ensureMutationHasExplicitFilters at h
  split_ifs at h with hexplicit
  exact hexplicit

end Guard

/-- The guard is exact on every tree of conditions that can be rendered, and a mutation that
passes its checks has a filter that can exclude a row. -/
theorem mutation_guard_exact (V : Type) :
    (∀ (isVacuous : WhereCondition V → Bool) (group : OrGroup (WhereCondition V)),
      Representable group.collectConditions →
      (group.isRestrictiveWith isVacuous = true ↔ ∃ predicate ∈ renderedGroup group, CanExclude isVacuous predicate)) ∧
    (∀ q : Mutation V, Representable q.allConditions →
      (q.hasExplicitMutationFilters = true ↔ CanExclude q.isVacuous (addFilters .and q.conditions q.orGroups))) ∧
    ∀ (q : Mutation V) (operation : String), q.checkDelete operation = .ok () ∨ q.checkUpdate operation = .ok () →
      CanExclude q.isVacuous (addFilters .and q.conditions q.orGroups) := by
  refine ⟨restrictive_iff_canExclude, explicit_iff_canExclude, fun q operation h => ?_⟩
  have hchecks := h.elim checks_of_delete checks_of_update
  exact (explicit_iff_canExclude q (representable_of_executable hchecks.1)).1 (explicit_of_ok hchecks.2)

/-- `WHERE active = TRUE OR (name LIKE '%' AND age > 1)`, nested under an AND. -/
def guardedQuery : Mutation Unit where
  conditions := []
  orGroups := [.mk [⟨"active", .eq, .single (.bool true)⟩]
    [.mk [⟨"name", .like, .single (.string "%")⟩, ⟨"age", .gt, .single (.number (.posInt 1))⟩] [] .and, .mk [] [] .or] .or]
  isJsonColumn := fun _ => false
  invalid := none
  blocker := none

theorem guarded_query_excludes :
    guardedQuery.checkDelete "delete" = .ok () ∧
      CanExclude guardedQuery.isVacuous (addFilters .and guardedQuery.conditions guardedQuery.orGroups) := by
  have hcheck : guardedQuery.checkDelete "delete" = .ok () := by rfl
  exact ⟨hcheck, (mutation_guard_exact Unit).2.2 guardedQuery "delete" (Or.inl hcheck)⟩

end TideOrm
