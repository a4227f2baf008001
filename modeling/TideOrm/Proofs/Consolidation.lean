import TideOrm.Lib.Slots
import TideOrm.Spec.Consolidation

/-! The rows of a parent are put together whatever rows are between them: none is lost, repeated or
moved to another parent. -/

namespace TideOrm

open Lib

section

variable {A B C G R K KA KB : Type} [DecidableEq K] [DecidableEq KA] [DecidableEq KB]

theorem groupSlot_eq (index : HashMap K ℕ) (groups : List G) (key : K) (make : G) :
    groupSlot index groups key make = enter index groups key make := by
  rw [groupSlot, enter]
  cases index.lookup key with
  | some slot => rfl
  | none => simp

/-- A child, where the row has one, joins the children of its parent. -/
def addChild (child : R → Option C) (group : B × List C) (row : R) : Option (B × List C) :=
  some (group.1, group.2 ++ (child row).toList)

theorem addChildren_eq (child : R → Option C) (rows : List R) : ∀ group : B × List C,
    rows.foldlM (addChild child) group = some (group.1, group.2 ++ rows.filterMap child) := by
  induction rows with
  | nil => intro group; simp
  | cons row rows ih =>
    intro group
    rw [List.foldlM_cons]
    refine (Option.bind_some ..).trans ((ih _).trans ?_)
    cases hchild : child row <;> simp [hchild]

/-- Rows that all can be added to their groups make exactly these groups. -/
theorem join_groups (key : R → K) (make : R → G) {add : G → R → Option G} {rows : List R} {result : R × List R → G}
    (h : ∀ group ∈ groups (sameKey key) rows, group.2.foldlM add (make group.1) = some (result group)) :
    ∃ index, rows.foldlM (join key make add) (∅, []) = some (index, (groups (sameKey key) rows).map result) := by
  have hjoined : joined key make add rows = ((groups (sameKey key) rows).map result).map some := by
    rw [joined, List.map_map]
    exact List.map_congr_left h
  have hall : ∀ group ∈ joined key make add rows, group.isSome = true := by
    intro group hgroup
    rw [hjoined] at hgroup
    obtain ⟨g, -, rfl⟩ := List.mem_map.1 hgroup
    rfl
  obtain ⟨s, hs, haligned⟩ := join_run rows hall
  refine ⟨s.1, hs.trans (congrArg some (Prod.ext rfl ?_))⟩
  exact List.map_injective_iff.2 (fun _ _ => Option.some_inj.1) (haligned.groups.trans hjoined)

theorem pairStep_eq (keyFn : A → K) :
    pairStep keyFn = join (fun item : A × Option B => keyFn item.1) (fun item => (item.1, [])) (addChild Prod.snd) := by
  funext s item
  rw [pairStep, join, groupSlot_eq]
  rfl

theorem groupPairs_eq (items : List (A × Option B)) (keyFn : A → K) : groupPairs items keyFn =
    some ((byKey (fun item => keyFn item.1) items).map fun group => (group.1.1, group.2.filterMap Prod.snd)) := by
  have hrows (group : (A × Option B) × List (A × Option B)) :
      group.2.foldlM (addChild Prod.snd) (group.1.1, []) = some (group.1.1, group.2.filterMap Prod.snd) :=
    addChildren_eq Prod.snd group.2 _
  obtain ⟨index, hrun⟩ := join_groups (fun item => keyFn item.1) (fun item => (item.1, [])) fun group (_ : group ∈ groups _ items) => hrows group
  rw [groupPairs, pairStep_eq, hrun, groups_sameKey]
  rfl

/-- A row joins the middle rows of its parent. -/
def addMiddle (keyB : B → KB) (group : ParentGroup A B C KB) (item : A × B × Option C) : Option (ParentGroup A B C KB) :=
  (join (fun item : A × B × Option C => keyB item.2.1) (fun item => (item.2.1, [])) (addChild fun item => item.2.2)
    (group.childIndex, group.children) item).map fun s => { group with childIndex := s.1, children := s.2 }

theorem tripleStep_eq (keyA : A → KA) (keyB : B → KB) : tripleStep (C := C) keyA keyB =
    join (fun item => keyA item.1) (fun item => ⟨item.1, [], ∅⟩) (addMiddle keyB) := by
  funext s item
  rw [tripleStep, join, groupSlot_eq]
  dsimp only
  cases (enter s.1 s.2 (keyA item.1) ⟨item.1, [], ∅⟩).2.2[(enter s.1 s.2 (keyA item.1) ⟨item.1, [], ∅⟩).1]? with
  | none => rfl
  | some group =>
    simp only [addMiddle, join, groupSlot_eq, addChild, Option.bind_eq_bind, Option.bind_some]
    cases (enter group.childIndex group.children (keyB item.2.1) (item.2.1, [])).2.2[(enter group.childIndex group.children (keyB item.2.1) (item.2.1, [])).1]? with
    | none => rfl
    | some child => rfl

theorem addMiddles_eq (keyB : B → KB) (rows : List (A × B × Option C)) : ∀ group : ParentGroup A B C KB,
    rows.foldlM (addMiddle keyB) group =
      (rows.foldlM (join (fun item : A × B × Option C => keyB item.2.1) (fun item => (item.2.1, [])) (addChild fun item => item.2.2))
        (group.childIndex, group.children)).map fun s => { group with childIndex := s.1, children := s.2 } := by
  induction rows with
  | nil => exact fun _ => rfl
  | cons row rows ih =>
    intro group
    rw [List.foldlM_cons, List.foldlM_cons, addMiddle]
    cases join (fun item : A × B × Option C => keyB item.2.1) (fun item => (item.2.1, [])) (addChild fun item => item.2.2)
      (group.childIndex, group.children) row with
    | none => rfl
    | some s => exact ih _

theorem groupTriples_eq (items : List (A × B × Option C)) (keyA : A → KA) (keyB : B → KB) : groupTriples items keyA keyB =
    some ((byKey (fun item => keyA item.1) items).map fun group => (group.1.1, middles keyB group.2)) := by
  have hmiddles (rows : List (A × B × Option C)) : ∃ index, rows.foldlM (join (fun item : A × B × Option C => keyB item.2.1)
      (fun item => (item.2.1, [])) (addChild fun item => item.2.2)) (∅, []) = some (index, middles keyB rows) := by
    have hrows (group : (A × B × Option C) × List (A × B × Option C)) :
        group.2.foldlM (addChild fun item => item.2.2) (group.1.2.1, []) = some (group.1.2.1, group.2.filterMap fun item => item.2.2) :=
      addChildren_eq (fun item => item.2.2) group.2 _
    rw [middles, ← groups_sameKey]
    exact join_groups _ _ fun group _ => hrows group
  choose index hindex using hmiddles
  have hgroups (group : (A × B × Option C) × List (A × B × Option C)) :
      group.2.foldlM (addMiddle keyB) ⟨group.1.1, [], ∅⟩ = some ⟨group.1.1, middles keyB group.2, index group.2⟩ := by
    rw [addMiddles_eq, hindex]
    rfl
  obtain ⟨outer, hrun⟩ := join_groups (fun item => keyA item.1) (fun item => (⟨item.1, [], ∅⟩ : ParentGroup A B C KB))
    fun group (_ : group ∈ groups _ items) => hgroups group
  rw [groupTriples, tripleStep_eq, hrun, Option.map_some, List.map_map, groups_sameKey]
  rfl

/-- Each parent comes once, where its key first appears, and has exactly the children of its rows, in their order. -/
theorem consolidates (pairs : List (A × Option B)) (keyFn : A → K) (triples : List (A × B × Option C)) (keyA : A → KA) (keyB : B → KB) :
    groupPairs pairs keyFn =
        some ((byKey (fun item => keyFn item.1) pairs).map fun group => (group.1.1, group.2.filterMap Prod.snd)) ∧
      groupTriples triples keyA keyB =
        some ((byKey (fun item => keyA item.1) triples).map fun group => (group.1.1, middles keyB group.2)) :=
  ⟨groupPairs_eq pairs keyFn, groupTriples_eq triples keyA keyB⟩

end

end TideOrm
