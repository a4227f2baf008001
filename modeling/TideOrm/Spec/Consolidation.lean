import TideOrm.Lib.Slots

/-! `query/structure/consolidation.rs`: the flat rows a join returns, regrouped into the nested shape they
describe. None where a slot is outside the vector it points into. -/

namespace TideOrm

open Lib

section

variable {A B C G K KA KB : Type} [DecidableEq K] [DecidableEq KA] [DecidableEq KB]

/-- The slot of `key` in `groups`, which `make` joins as a new group for a key not seen before. -/
def groupSlot (index : HashMap K ℕ) (groups : List G) (key : K) (make : G) : ℕ × HashMap K ℕ × List G :=
  match index.lookup key with
  | some slot => (slot, index, groups)
  | none =>
    let groups := groups ++ [make]
    (groups.length - 1, index.insert key (groups.length - 1), groups)

def pairStep (keyFn : A → K) (s : HashMap K ℕ × List (A × List B)) (item : A × Option B) :
    Option (HashMap K ℕ × List (A × List B)) :=
  match groupSlot s.1 s.2 (keyFn item.1) (item.1, []) with
  | (slot, index, groups) => do
    let group ← groups[slot]?
    return (index, groups.set slot (group.1, group.2 ++ item.2.toList))

def groupPairs (items : List (A × Option B)) (keyFn : A → K) : Option (List (A × List B)) :=
  (items.foldlM (pairStep keyFn) (∅, [])).map Prod.snd

/-- One outer parent, with its middle rows in order of first appearance and the index that finds
them by key. -/
structure ParentGroup (A B C KB : Type) [DecidableEq KB] where
  parent : A
  children : List (B × List C)
  childIndex : HashMap KB ℕ

def tripleStep (keyA : A → KA) (keyB : B → KB) (s : HashMap KA ℕ × List (ParentGroup A B C KB)) (item : A × B × Option C) :
    Option (HashMap KA ℕ × List (ParentGroup A B C KB)) :=
  match groupSlot s.1 s.2 (keyA item.1) ⟨item.1, [], ∅⟩ with
  | (aSlot, aIndex, groups) => do
    let group ← groups[aSlot]?
    match groupSlot group.childIndex group.children (keyB item.2.1) (item.2.1, []) with
    | (bSlot, childIndex, children) => do
      let child ← children[bSlot]?
      let children := children.set bSlot (child.1, child.2 ++ item.2.2.toList)
      return (aIndex, groups.set aSlot { group with children, childIndex })

def groupTriples (items : List (A × B × Option C)) (keyA : A → KA) (keyB : B → KB) : Option (List (A × List (B × List C))) :=
  (items.foldlM (tripleStep keyA keyB) (∅, [])).map fun s => s.2.map fun group => (group.parent, group.children)

/-- The middle rows of a parent's rows, each with its children. -/
def middles (keyB : B → KB) (rows : List (A × B × Option C)) : List (B × List C) :=
  (byKey (fun item => keyB item.2.1) rows).map fun group => (group.1.2.1, group.2.filterMap fun item => item.2.2)

end

end TideOrm
