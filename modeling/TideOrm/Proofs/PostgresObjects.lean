import TideOrm.Lib.Order
import TideOrm.Spec.PostgresObjects

/-! The statements of a PostgreSQL schema come out with every object after those it depends on,
unless the dependencies of exported objects have a cycle. -/

namespace TideOrm

open Lib

namespace PostgresObjects

section Layers

variable {waits : ObjectKey → List ObjectKey} {nodes : List (ObjectKey × List String)}

theorem isReady_iff {node : ObjectKey × List String} :
    isReady waits nodes node = true ↔ ∀ dependency ∈ waits node.1, dependency ∉ nodes.map Prod.fst := by
  simp [isReady]

/-- With nothing ready, every node waits for one that is left, so one of them waits for itself. -/
theorem cycle_of_none_ready (hne : nodes.isEmpty = false) (hready : readyNodes waits nodes = []) :
    ∃ c, Relation.TransGen (fun dependency owner => dependency ∈ waits owner ∧ owner ∈ nodes.map Prod.fst) c c := by
  have hbefore : ∀ owner ∈ nodes.map Prod.fst, ∃ dependency ∈ nodes.map Prod.fst,
      dependency ∈ waits owner ∧ owner ∈ nodes.map Prod.fst := by
    intro owner howner
    obtain ⟨node, hnode, rfl⟩ := List.mem_map.1 howner
    have hwaits := List.filter_eq_nil_iff.1 hready node hnode
    rw [isReady_iff] at hwaits
    push Not at hwaits
    obtain ⟨dependency, hdependency, hleft⟩ := hwaits
    exact ⟨dependency, hleft, hdependency, howner⟩
  obtain ⟨node, hnode⟩ := List.exists_mem_of_ne_nil nodes (by simpa using hne)
  obtain ⟨c, hcycle, -⟩ := exists_cycle_before _ hbefore (List.mem_map_of_mem hnode)
  exact ⟨c, hcycle⟩

/-- Every node is written once, after those it waits for; or some node waits for itself. -/
theorem orderedFrom_spec (waits : ObjectKey → List ObjectKey) (nodes : List (ObjectKey × List String))
    (statements : List String) :
    (∃ order : List (ObjectKey × List String), order.Perm nodes ∧
        order.Pairwise (fun a b => b.1 ∉ waits a.1) ∧ (∀ node ∈ order, node.1 ∉ waits node.1) ∧
        orderedFrom waits nodes statements = .ok (statements ++ order.flatMap Prod.snd)) ∨
      (∃ c, Relation.TransGen (fun dependency owner => dependency ∈ waits owner ∧ owner ∈ nodes.map Prod.fst) c c) ∧
        orderedFrom waits nodes statements =
          .error (.query "Cannot export cyclic PostgreSQL object dependencies") := by
  fun_induction orderedFrom waits nodes statements with
  | case1 nodes statements hempty =>
    have hnil : nodes = [] := List.isEmpty_iff.1 hempty
    exact .inl ⟨[], by rw [hnil], List.Pairwise.nil, by simp, by simp⟩
  | case2 nodes statements hne hready =>
    exact .inr ⟨cycle_of_none_ready (by simpa using hne) hready, rfl⟩
  | case3 nodes statements hne _ ih =>
    have hready : ∀ node ∈ readyNodes waits nodes, ∀ other ∈ nodes, other.1 ∉ waits node.1 := by
      intro node hnode other hother hwaits
      exact isReady_iff.1 (List.mem_filter.1 hnode).2 _ hwaits (List.mem_map_of_mem hother)
    have hmem : ∀ node ∈ readyNodes waits nodes, node ∈ nodes := fun node hnode => (List.mem_filter.1 hnode).1
    rcases ih with ⟨order, hperm, hpairwise, hself, heq⟩ | ⟨⟨c, hcycle⟩, heq⟩
    · have hrest : ∀ node ∈ order, node ∈ nodes := fun node hnode =>
        (List.mem_filter.1 (hperm.mem_iff.1 hnode)).1
      refine .inl ⟨readyNodes waits nodes ++ order, ?_, ?_, ?_, ?_⟩
      · exact (hperm.append_left (readyNodes waits nodes)).trans (List.filter_append_perm (isReady waits nodes) nodes)
      · refine List.pairwise_append.2 ⟨?_, hpairwise, fun node hnode other hother => ?_⟩
        · exact List.Pairwise.imp_of_mem (fun {a b} ha hb _ => hready a ha b (hmem b hb))
            (List.pairwise_of_forall fun _ _ => trivial)
        · exact hready node hnode other (hrest other hother)
      · intro node hnode
        rcases List.mem_append.1 hnode with hnode | hnode
        · exact hready node hnode node (hmem node hnode)
        · exact hself node hnode
      · rw [heq, List.flatMap_append, List.append_assoc]
    · refine .inr ⟨⟨c, Relation.TransGen.lift id (fun dependency owner hstep => ⟨hstep.1, ?_⟩) c c hcycle⟩, heq⟩
      exact (List.filter_sublist.map Prod.fst).subset hstep.2

end Layers

section Ordered

variable {objects : PostgresObjects} {rows : List (ObjectKey × ObjectKey)}

/-- A dependency row between two different objects of the export. -/
def DependsOn (objects : PostgresObjects) (rows : List (ObjectKey × ObjectKey)) (owner dependency : ObjectKey) : Prop :=
  (owner, dependency) ∈ rows ∧ owner ≠ dependency ∧ owner ∈ objects.nodes.map Prod.fst ∧
    dependency ∈ objects.nodes.map Prod.fst

theorem dependsOn_iff {owner dependency : ObjectKey} : DependsOn objects rows owner dependency ↔
    dependency ∈ dependencies objects.nodes rows owner ∧ owner ∈ objects.nodes.map Prod.fst := by
  rw [dependencies, List.mem_map]
  constructor
  · rintro ⟨hrow, hne, howner, hdependency⟩
    exact ⟨⟨(owner, dependency), List.mem_filter.2 ⟨hrow, decide_eq_true ⟨rfl, hne, hdependency⟩⟩, rfl⟩, howner⟩
  · rintro ⟨⟨⟨first, second⟩, hrow, rfl⟩, howner⟩
    obtain ⟨hmem, hkeep⟩ := List.mem_filter.1 hrow
    obtain ⟨rfl, hne, hdependency⟩ := of_decide_eq_true hkeep
    exact ⟨hmem, hne, howner, hdependency⟩

/-- The statements of the objects come after the prelude, once each and together, and after those
of every object they depend on; an error is given exactly when the dependencies have a cycle. -/
theorem ordered_by_dependency (objects : PostgresObjects) (rows : List (ObjectKey × ObjectKey)) :
    ((∃ order : List (ObjectKey × List String), order.Perm objects.nodes ∧
        (∀ owner dependency, DependsOn objects rows owner dependency →
          Precedes (order.map Prod.fst) dependency owner) ∧
        objects.ordered rows = .ok (objects.preludeSql ++ order.flatMap Prod.snd)) ∨
      objects.ordered rows = .error (.query "Cannot export cyclic PostgreSQL object dependencies")) ∧
    ((∃ error, objects.ordered rows = .error error) ↔ ∃ c, Relation.TransGen (DependsOn objects rows) c c) := by
  have hspec := orderedFrom_spec (dependencies objects.nodes rows) objects.nodes objects.preludeSql
  rw [← ordered] at hspec
  rcases hspec with ⟨order, hperm, hpairwise, hself, heq⟩ | ⟨⟨c, hcycle⟩, heq⟩
  · have hmem : ∀ owner dependency, DependsOn objects rows owner dependency →
        owner ∈ order.map Prod.fst ∧ dependency ∈ order.map Prod.fst := by
      intro owner dependency h
      exact ⟨(hperm.map Prod.fst).mem_iff.2 h.2.2.1, (hperm.map Prod.fst).mem_iff.2 h.2.2.2⟩
    have hforward : (order.map Prod.fst).Pairwise fun x y => ¬ DependsOn objects rows x y :=
      List.pairwise_map.2 (hpairwise.imp fun hwaits h => hwaits (dependsOn_iff.1 h).1)
    refine ⟨.inl ⟨order, hperm, fun owner dependency h => ?_, heq⟩, ?_, ?_⟩
    · exact precedes_of_pairwise hforward (hmem _ _ h).2 (hmem _ _ h).1 h.2.1.symm (not_not.2 h)
    · rintro ⟨error, herror⟩
      rw [heq] at herror
      cases herror
    · rintro ⟨c, hcycle⟩
      refine absurd (Relation.transGen_swap.1 hcycle) ?_
      exact acyclic_of_pairwise (r := Function.swap (DependsOn objects rows)) hforward
        (fun _ _ h => (hmem _ _ h).symm) (fun _ h => h.2.1 rfl) c
  · refine ⟨.inr heq, fun _ => ⟨c, ?_⟩, fun _ => ⟨_, heq⟩⟩
    refine Relation.transGen_swap.1 (Relation.TransGen.lift id (fun dependency owner h => ?_) c c hcycle)
    exact dependsOn_iff.2 h

end Ordered

end PostgresObjects

end TideOrm
