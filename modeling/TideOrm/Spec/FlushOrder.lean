import TideOrm.Lib.HashMap
import TideOrm.Spec.Topology

/-! The order a flush writes its entries in (`entity_manager/managed.rs`): inserts,
then updates, then deletes; inside a kind the tables in dependency order, and
inside a table the rows that reference each other. -/

namespace TideOrm

open Lib

inductive EntityState where
  | new
  | managed
  | removed
  | detached
deriving DecidableEq

def flushOrderRank : EntityState → ℕ
  | .new => 0
  | .managed => 1
  | .removed => 2
  | .detached => 3

/-- One self-referencing foreign key as it applies to one row. -/
structure RowLink where
  foreignKey : String
  referenced : String
  provides : Option String
  requires : Option String
deriving DecidableEq

/-- What the flush planner reads of a managed entry and its model. -/
structure FlushEntry where
  /-- the address of the entry, the same through every handle of it -/
  address : ℕ
  currentState : EntityState
  tableName : String
  parentTables : List String
  childTables : List String
  /-- related table, foreign key and referenced column of each declared reference -/
  rowReferences : List (String × String × String)
  pkIsNew : Bool
  /-- the names that resolve to a primary-key column -/
  primaryKeyNames : List String
  /-- the row's fields that are not NULL, as key text -/
  fields : List (String × String)
deriving DecidableEq

namespace FlushEntry

def keyText (e : FlushEntry) (name : String) : Option String := e.fields.lookup name

/-- The links a self-referencing foreign key makes between this entry's row and
other rows of its table. A key the database has not numbered yet is no row's to
reference. -/
def rowLinks (e : FlushEntry) : List RowLink :=
  (e.rowReferences.filter fun reference => decide (reference.1 = e.tableName)).map
    fun (_, foreignKey, referenced) =>
      { foreignKey
        referenced
        provides :=
          if e.pkIsNew && decide (referenced ∈ e.primaryKeyNames) then none else e.keyText referenced
        requires := e.keyText foreignKey }

end FlushEntry

/-- Table-level dependency order for one pass of a flush. -/
structure FlushOrder where
  ranks : HashMap String ℕ
  unordered : List String

def FlushOrder.rank (order : FlushOrder) (table : String) : ℕ := (order.ranks.lookup table).getD 0

/-- Record `parent -> child` unless it leaves the pass or is a self-edge. -/
def addDependencyEdge (tables : List String) (edges : List (String × String)) (parent child : String) :
    List (String × String) :=
  if parent = child ∨ parent ∉ tables ∨ child ∉ tables then edges
  else if (parent, child) ∈ edges then edges
  else edges ++ [(parent, child)]

def flushTables (entries : List FlushEntry) : List String :=
  entries.foldl (fun tables entry =>
    if entry.tableName ∈ tables then tables else tables ++ [entry.tableName]) []

def dependencyEdges (tables : List String) (entries : List FlushEntry) : List (String × String) :=
  entries.foldl (fun edges entry =>
    let edges := entry.parentTables.foldl (fun edges parent =>
      addDependencyEdge tables edges parent entry.tableName) edges
    entry.childTables.foldl (fun edges child =>
      addDependencyEdge tables edges entry.tableName child) edges) []

/-- Topologically sort the tables taking part in this flush pass. -/
def planFlushOrder (entries : List FlushEntry) : FlushOrder :=
  let tables := flushTables entries
  let edges := (dependencyEdges tables entries).map
    fun (parent, child) => (tables.idxOf parent, tables.idxOf child)
  let (ordered, cycle) := topologicalOrder tables.length edges id
  { ranks := (ordered ++ cycle).zipIdx.foldl (fun ranks (index, rank) =>
      match tables[index]? with
      | some table => ranks.insert table rank
      | none => ranks) ∅
    unordered := cycle.filterMap fun index => tables[index]? }

/-- Stable sort key placing an entry inside its operation kind. -/
def flushSortKey (order : FlushOrder) (entry : FlushEntry) : ℕ × ℕ :=
  let rank := order.rank entry.tableName
  let withinKind :=
    match entry.currentState with
    | .new => rank
    | .removed => order.ranks.len - rank
    | .managed | .detached => 0
  (flushOrderRank entry.currentState, withinKind)

/-- The rows that hold a referenced value. -/
def providers (links : List (List RowLink)) (foreignKey referenced provided : String) : List ℕ :=
  links.zipIdx.flatMap fun (rowLinks, index) =>
    rowLinks.filterMap fun link =>
      if link.provides = some provided ∧ link.foreignKey = foreignKey ∧ link.referenced = referenced
      then some index else none

def referenceEdges (links : List (List RowLink)) (referencingFirst : Bool) : List (ℕ × ℕ) :=
  links.zipIdx.flatMap fun (rowLinks, referencing) =>
    rowLinks.flatMap fun link =>
      match link.requires with
      | none => []
      | some required =>
        ((providers links link.foreignKey link.referenced required).filter
            fun referenced => decide (referenced ≠ referencing)).map
          fun referenced =>
            if referencingFirst then (referencing, referenced) else (referenced, referencing)

/-- Topologically order `rows`, referenced rows first, or last when
`referencingFirst`. -/
def orderRows (rows : List FlushEntry) (referencingFirst : Bool) : List FlushEntry :=
  let edges := referenceEdges (rows.map FlushEntry.rowLinks) referencingFirst
  if edges.isEmpty then rows
  else
    let (order, cycle) := topologicalOrder rows.length edges id
    (order ++ cycle).filterMap fun index => rows[index]?

def sameRun (a b : FlushEntry) : Bool :=
  decide (b.currentState = a.currentState) && decide (b.tableName = a.tableName)

/-- Reorder each run of one table's inserts or deletes; `fuel` bounds the number
of runs. -/
def orderRuns : ℕ → List FlushEntry → List FlushEntry
  | 0, entries => entries
  | _ + 1, [] => []
  | fuel + 1, entry :: rest =>
    let run := entry :: rest.takeWhile (sameRun entry)
    let run :=
      if (entry.currentState = .new ∨ entry.currentState = .removed) ∧ 1 < run.length then
        orderRows run (decide (entry.currentState = .removed))
      else run
    run ++ orderRuns fuel (rest.dropWhile (sameRun entry))

def orderSelfReferences (entries : List FlushEntry) : List FlushEntry :=
  orderRuns entries.length entries

/-- The order one pass of a flush writes `entries` in. The sort is stable. -/
def flushPlan (entries : List FlushEntry) : List FlushEntry :=
  let order := planFlushOrder entries
  orderSelfReferences
    (entries.insertionSort fun a b => toLex (flushSortKey order a) ≤ toLex (flushSortKey order b))

end TideOrm
