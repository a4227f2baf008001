import TideOrm.Lib.MinHeap
import Mathlib.Data.Prod.Lex

/-! `internal/topology.rs`: ordering nodes after the nodes they depend on. -/

namespace TideOrm

open Lib

section

variable {K : Type} [LinearOrder K]

/-- The state of the loop: the predecessors each node still waits for, the nodes
that wait for none, and the nodes taken so far. -/
structure Topology (K : Type) [LinearOrder K] where
  unmet : ℕ → ℕ
  ready : MinHeap (K ×ₗ ℕ)
  ordered : List ℕ

namespace Topology

def followers (edges : List (ℕ × ℕ)) (node : ℕ) : List ℕ :=
  (edges.filter fun edge => edge.1 = node).map Prod.snd

def init (count : ℕ) (edges : List (ℕ × ℕ)) (key : ℕ → K) : Topology K :=
  let unmet := fun node => (edges.filter fun edge => edge.2 = node).length
  { unmet
    ready := .ofList (((List.range count).filter fun node => unmet node = 0).map
      fun node => toLex (key node, node))
    ordered := [] }

/-- One predecessor of `follower` has been taken. -/
def release (key : ℕ → K) (t : Topology K) (follower : ℕ) : Topology K :=
  let unmet := Function.update t.unmet follower (t.unmet follower - 1)
  { t with
    unmet
    ready := if unmet follower = 0 then t.ready.push (toLex (key follower, follower)) else t.ready }

/-- Take the ready nodes, the least first, for at most `fuel` of them. -/
def drain (edges : List (ℕ × ℕ)) (key : ℕ → K) : ℕ → Topology K → Topology K
  | 0, t => t
  | fuel + 1, t =>
    match t.ready.pop with
    | none => t
    | some (popped, ready) =>
      let node := (ofLex popped).2
      drain edges key fuel
        ((followers edges node).foldl (release key) { t with ready, ordered := t.ordered ++ [node] })

/-- `release` as `usize` arithmetic does it, which fails below zero. -/
def releaseChecked (key : ℕ → K) (t : Topology K) (follower : ℕ) : Option (Topology K) :=
  if t.unmet follower = 0 then none else some (release key t follower)

/-- The loop itself, none where it underflows or is not done after `fuel` looks at the heap. -/
def drainChecked (edges : List (ℕ × ℕ)) (key : ℕ → K) : ℕ → Topology K → Option (Topology K)
  | 0, _ => none
  | fuel + 1, t =>
    match t.ready.pop with
    | none => some t
    | some (popped, ready) => do
      let node := (ofLex popped).2
      let released ← (followers edges node).foldlM (releaseChecked key) { t with ready, ordered := t.ordered ++ [node] }
      drainChecked edges key fuel released

end Topology

/-- Kahn's algorithm. Returns the order, and the nodes left over on or behind a
cycle, in index order. A node is taken once, so `count` rounds drain the heap. -/
def topologicalOrder (count : ℕ) (edges : List (ℕ × ℕ)) (key : ℕ → K) : List ℕ × List ℕ :=
  let t := (Topology.init count edges key).drain edges key count
  (t.ordered, (List.range count).filter fun node => decide (0 < t.unmet node))

def topologicalOrderChecked (fuel count : ℕ) (edges : List (ℕ × ℕ)) (key : ℕ → K) : Option (List ℕ × List ℕ) :=
  ((Topology.init count edges key).drainChecked edges key fuel).map fun t =>
    (t.ordered, (List.range count).filter fun node => decide (0 < t.unmet node))

end

end TideOrm
