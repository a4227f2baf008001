import TideOrm.Spec.Error
import Mathlib.Data.Prod.Lex

/-! `schema/writer/postgres_dependencies.rs`: the objects of a PostgreSQL schema, written after
the objects they depend on. -/

namespace TideOrm

/-- A kind of object, and its number in the catalog. -/
abbrev ObjectKey := String × ℤ

structure PostgresObjects where
  preludeSql : List String
  /-- the statements of each object, in the order of the keys -/
  nodes : List (ObjectKey × List String)
  sorted : nodes.Pairwise fun a b => toLex a.1 < toLex b.1

namespace PostgresObjects

/-- Of the dependency rows, the objects of the export that `owner` waits for. -/
def dependencies (nodes : List (ObjectKey × List String)) (rows : List (ObjectKey × ObjectKey)) (owner : ObjectKey) :
    List ObjectKey :=
  (rows.filter fun row => row.1 = owner ∧ row.1 ≠ row.2 ∧ row.2 ∈ nodes.map Prod.fst).map Prod.snd

/-- Whether nothing that the node waits for is left. -/
def isReady (waits : ObjectKey → List ObjectKey) (nodes : List (ObjectKey × List String))
    (node : ObjectKey × List String) : Bool :=
  (waits node.1).all fun dependency => decide (dependency ∉ nodes.map Prod.fst)

def readyNodes (waits : ObjectKey → List ObjectKey) (nodes : List (ObjectKey × List String)) :
    List (ObjectKey × List String) :=
  nodes.filter (isReady waits nodes)

def waitingNodes (waits : ObjectKey → List ObjectKey) (nodes : List (ObjectKey × List String)) :
    List (ObjectKey × List String) :=
  nodes.filter fun node => !isReady waits nodes node

theorem length_waitingNodes_lt {waits : ObjectKey → List ObjectKey} {nodes : List (ObjectKey × List String)}
    (h : readyNodes waits nodes ≠ []) : (waitingNodes waits nodes).length < nodes.length := by
  obtain ⟨node, hnode⟩ := List.exists_mem_of_ne_nil _ h
  obtain ⟨hmem, hready⟩ := List.mem_filter.1 hnode
  exact List.length_filter_lt_length_iff_exists.2 ⟨node, hmem, by simp [hready]⟩

/-- Write the nodes that are ready, all of them at once, until none is left. -/
def orderedFrom (waits : ObjectKey → List ObjectKey) (nodes : List (ObjectKey × List String)) (statements : List String) :
    Except Error (List String) :=
  if nodes.isEmpty then .ok statements
  else if _hready : readyNodes waits nodes = [] then
    .error (.query "Cannot export cyclic PostgreSQL object dependencies")
  else orderedFrom waits (waitingNodes waits nodes) (statements ++ (readyNodes waits nodes).flatMap Prod.snd)
termination_by nodes.length
decreasing_by exact length_waitingNodes_lt _hready

def ordered (objects : PostgresObjects) (rows : List (ObjectKey × ObjectKey)) : Except Error (List String) :=
  orderedFrom (dependencies objects.nodes rows) objects.nodes objects.preludeSql

end PostgresObjects

end TideOrm
