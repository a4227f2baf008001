import TideOrm.Spec.WhereHas
import TideOrm.Sanity.Placeholders

/-! Nested conditions on related rows capture no name as long as no level goes by the name of the
level directly around it: a name that recurs further out is never needed again. -/

namespace TideOrm

section

variable {fold : List Char → List Char}

theorem resolve_self (name : List Char) (outer : List (List Char)) : resolve fold (name :: outer) name = some 0 := by
  rw [resolve, List.findIdx?_cons, if_pos (beq_self_eq_true _)]

/-- A level is reached from the one inside it unless that one goes by the same name. -/
theorem resolve_enclosing (inner name : List Char) (outer : List (List Char)) :
    resolve fold (inner :: name :: outer) name = some 1 ↔ fold inner ≠ fold name := by
  rw [resolve, List.findIdx?_cons]
  by_cases hsame : fold inner = fold name
  · rw [if_pos (by simpa using hsame)]
    simp [hsame]
  · rw [if_neg (by simpa using hsame), List.findIdx?_cons, if_pos (beq_self_eq_true _)]
    simp [hsame]

theorem allUncaptured_append (scopes : List (List Char)) (predicates rest : List Predicate) :
    Predicate.AllUncaptured fold scopes (predicates ++ rest) ↔
      Predicate.AllUncaptured fold scopes predicates ∧ Predicate.AllUncaptured fold scopes rest := by
  induction predicates with
  | nil => simp [Predicate.AllUncaptured]
  | cons predicate predicates ih => rw [List.cons_append, Predicate.AllUncaptured, Predicate.AllUncaptured, ih, and_assoc]

theorem allUncaptured_toList (scopes : List (List Char)) (predicate : Option Predicate) :
    Predicate.AllUncaptured fold scopes predicate.toList ↔ ∀ p ∈ predicate, p.Uncaptured fold scopes := by
  cases predicate with
  | none => simp [Predicate.AllUncaptured]
  | some p => simp [Predicate.AllUncaptured]

/-- A qualified column of the model goes by the name the table has in the query. -/
theorem modelIdentifier_own {m : ModelMeta} {identifier name : List Char} (selfJoinDepth : ℕ) (qualifyOwn : Bool)
    (hown : ((m.canonicalColumnParts identifier).1.all fun table => table == m.tableName) = true)
    (hname : name ∈ (modelIdentifier m selfJoinDepth identifier qualifyOwn).1) : name = ownTableRef m selfJoinDepth := by
  unfold modelIdentifier at hname
  rcases hparts : m.canonicalColumnParts identifier with ⟨_ | table, column⟩ <;> rw [hparts] at hown hname
  · dsimp only at hname
    split_ifs at hname
    · exact (Option.some.inj hname).symm
    · cases hname
  · rw [Option.all_some, beq_iff_eq] at hown
    dsimp only at hname
    rw [if_pos hown] at hname
    exact (Option.some.inj hname).symm

/-- The related rows are read under the name the related query gives them. -/
theorem exposedName_related (related : ModelMeta) (depth : ℕ) :
    FromTable.exposedName ⟨related.schemaName, related.tableName,
      if 0 < depth then some (ownTableRef related depth) else none⟩ = ownTableRef related depth := by
  cases depth with
  | zero => rfl
  | succ depth => rw [if_pos (Nat.succ_pos depth)]; rfl

mutual

theorem uncaptured_push (m : ModelMeta) (selfJoinDepth : ℕ) (outer : List (List Char)) : ∀ condition : HasCondition,
    (∀ p ∈ condition.push m selfJoinDepth, p.Uncaptured fold (ownTableRef m selfJoinDepth :: outer)) ↔
      condition.Separate fold m selfJoinDepth
  | .filter identifier qualifyOwn => by
    simp only [HasCondition.push, HasCondition.Separate, Option.mem_some_iff, forall_eq', Predicate.Uncaptured, iff_true]
    intro hown name hname
    rw [modelIdentifier_own selfJoinDepth qualifyOwn hown hname]
    exact resolve_self _ outer
  | .whereHas negated related foreignKey localKey fresh constrain => by
    rw [HasCondition.push, HasCondition.Separate]
    cases hforeign : related.ownColumnName foreignKey with
    | none => simp
    | some foreign =>
      cases hlocal : m.ownColumnName localKey with
      | none => simp
      | some own =>
        dsimp only
        rw [Option.isSome_some, Option.isSome_some]
        simp only [Option.mem_some_iff, forall_eq', Predicate.Uncaptured, exposedName_related, resolve_self,
          resolve_enclosing, true_and, forall_true_left]
        rw [allUncaptured_pushAll related _ (ownTableRef m selfJoinDepth :: outer) constrain]
  | .hasRelated negated relatedTable foreignKey localKey conditionColumn => by
    rw [HasCondition.push, HasCondition.Separate]
    by_cases htable : relatedTable = m.tableName
    · simp only [htable, if_true, Option.mem_some_iff, forall_eq', Predicate.Uncaptured, FromTable.exposedName,
        Option.getD_some, resolve_self, resolve_enclosing, true_and, and_iff_left_iff_imp]
      cases conditionColumn with
      | none => exact fun _ => trivial
      | some column => simp [Predicate.AllUncaptured, Predicate.Uncaptured, resolve_self]
    · simp only [htable, if_false, Option.mem_some_iff, forall_eq', Predicate.Uncaptured, FromTable.exposedName,
        Option.getD_none, resolve_self, resolve_enclosing, true_and, and_iff_left_iff_imp]
      cases conditionColumn with
      | none => exact fun _ => trivial
      | some column => simp [Predicate.AllUncaptured, Predicate.Uncaptured, resolve_self]

theorem allUncaptured_pushAll (m : ModelMeta) (selfJoinDepth : ℕ) (outer : List (List Char)) :
    ∀ conditions : List HasCondition,
      Predicate.AllUncaptured fold (ownTableRef m selfJoinDepth :: outer) (HasCondition.pushAll m selfJoinDepth conditions) ↔
        HasCondition.AllSeparate fold m selfJoinDepth conditions
  | [] => by rw [HasCondition.pushAll, HasCondition.AllSeparate, Predicate.AllUncaptured]
  | condition :: rest => by
    rw [HasCondition.pushAll, HasCondition.AllSeparate, allUncaptured_append, allUncaptured_toList,
      uncaptured_push m selfJoinDepth outer condition, allUncaptured_pushAll m selfJoinDepth outer rest]

end

/-- The conditions of a query capture no name exactly when no level goes by the name of the level
directly around it. -/
theorem whereHas_uncaptured_iff (fold : List Char → List Char) (m : ModelMeta) (conditions : List HasCondition) :
    Predicate.AllUncaptured fold [m.tableName] (HasCondition.pushAll m 0 conditions) ↔
      HasCondition.AllSeparate fold m 0 conditions :=
  allUncaptured_pushAll m 0 [] conditions

end

theorem relatedAlias_succ {depth : ℕ} (hdepth : 0 < depth) : relatedAlias (depth + 1) ≠ relatedAlias depth := by
  intro h
  rw [relatedAlias, relatedAlias, if_neg (by omega)] at h
  split_ifs at h with hone
  · have hlen := congrArg List.length h
    rw [hone] at hlen
    exact absurd hlen (by decide)
  · have hdecimal := congrArg (List.foldl (fun n ch => 10 * n + (ch.toNat - 48)) 0) (List.append_cancel_left h)
    rw [foldl_decimal, foldl_decimal] at hdecimal
    omega

/-- Names compared as they are written: a query handed to a closure goes by the name of the one
around it only over a table that is named like an alias. -/
theorem handed_same_name_iff (m : ModelMeta) (depth : ℕ) (related : ModelMeta) :
    ownTableRef related (relatedQuery m depth related) = ownTableRef m depth ↔
      if related.tableName = m.tableName then depth = 0 ∧ m.tableName = relatedAlias 1
      else 0 < depth ∧ related.tableName = relatedAlias depth := by
  rw [relatedQuery, ownTableRef, ownTableRef]
  by_cases htable : related.tableName = m.tableName
  · rw [if_pos htable, if_neg (Nat.succ_ne_zero depth), if_pos htable]
    by_cases hdepth : depth = 0
    · rw [if_pos hdepth, hdepth]
      exact ⟨fun h => ⟨rfl, h.symm⟩, fun h => h.2.symm⟩
    · rw [if_neg hdepth]
      exact ⟨fun h => absurd h (relatedAlias_succ (Nat.pos_of_ne_zero hdepth)), fun h => absurd h.1 hdepth⟩
  · rw [if_neg htable, if_pos rfl, if_neg htable]
    by_cases hdepth : depth = 0
    · rw [if_pos hdepth]
      exact ⟨fun h => absurd h htable, fun h => absurd hdepth (Nat.ne_of_gt h.1)⟩
    · rw [if_neg hdepth]
      exact ⟨fun h => ⟨Nat.pos_of_ne_zero hdepth, h⟩, fun h => h.2⟩

/-- A tree of rows that name their parent. -/
def treeModel (table : List Char) : ModelMeta where
  schemaName := none
  tableName := table
  fieldNames := ["id".toList, "parent_id".toList]
  columnNames := ["id".toList, "parent_id".toList]

/-- A table named like the alias is captured by it, and so is any table by a query that the
closure did not build on the one it was handed. -/
theorem self_relation_captured :
    ¬Predicate.AllUncaptured id [relatedAlias 1] (HasCondition.pushAll (treeModel (relatedAlias 1)) 0
      [.whereHas false (treeModel (relatedAlias 1)) "parent_id".toList "id".toList none []]) ∧
    ¬Predicate.AllUncaptured id ["users".toList] (HasCondition.pushAll (treeModel "users".toList) 0
      [.whereHas false (treeModel "users".toList) "parent_id".toList "id".toList (some 0) []]) := by
  constructor
  · intro h
    have hown : resolve id [relatedAlias 1, relatedAlias 1] (relatedAlias 1) = some 1 := h.1.2.1
    exact absurd hown (by decide)
  · intro h
    have hown : resolve id ["users".toList, "users".toList] "users".toList = some 1 := h.1.2.1
    exact absurd hown (by decide)

end TideOrm
