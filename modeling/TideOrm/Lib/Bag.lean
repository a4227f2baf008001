import Mathlib.Algebra.GroupWithZero.Nat
import Mathlib.Data.Multiset.Dedup
import Mathlib.Data.Finset.Card
import Mathlib.Data.Multiset.UnionInter
import Mathlib.Tactic.SplitIfs

/-! SELECT statements over bags of rows: the groups that a select core makes of the rows it
reads, the row that it selects of each, and the bag that UNION and UNION ALL arms leave. -/

namespace Lib

/-- An entry of a select list. What it selects of a group may depend on the other groups, as a
window function does; one that aggregates makes the whole source one group. -/
structure SelectItem (ρ α : Type*) where
  width : ℕ
  aggregates : Bool
  value : Multiset (Multiset ρ) → Multiset ρ → List α

structure SelectCore (ρ α : Type*) where
  source : Multiset ρ
  keys : List (ρ → α)
  having : List (Multiset ρ → Bool)
  items : List (SelectItem ρ α)
  isDistinct : Bool

namespace SelectCore

variable {ρ α : Type*} [DecidableEq α] (s : SelectCore ρ α)

def width : ℕ := (s.items.map SelectItem.width).sum

def aggregates : Bool := !s.having.isEmpty || s.items.any SelectItem.aggregates

def keyOf (row : ρ) : List α := s.keys.map fun key => key row

def groups : Multiset (Multiset ρ) :=
  if s.keys.isEmpty then if s.aggregates then {s.source} else s.source.map fun row => {row}
  else (s.source.map s.keyOf).dedup.map fun key => s.source.filter fun row => s.keyOf row = key

/-- The groups that HAVING lets through. -/
def kept : Multiset (Multiset ρ) := s.groups.filter fun group => s.having.all fun condition => condition group

def row (group : Multiset ρ) : List α := s.items.flatMap fun item => item.value s.kept group

def rows : Multiset (List α) := if s.isDistinct then (s.kept.map s.row).dedup else s.kept.map s.row

theorem rows_of_not_distinct (h : s.isDistinct = false) : s.rows = s.kept.map s.row := by simp [rows, h]

theorem rows_eq_zero : s.rows = 0 ↔ s.kept = 0 := by
  rw [rows]
  split_ifs
  · rw [Multiset.dedup_eq_zero, Multiset.map_eq_zero]
  · rw [Multiset.map_eq_zero]

/-- Every kept group gives a row, unless equal rows are merged. -/
theorem card_rows : s.rows.card = s.kept.card ↔ (s.isDistinct = true → (s.kept.map s.row).Nodup) := by
  rw [rows]
  split_ifs with hdistinct
  · refine ⟨fun hcard _ => ?_, fun hnodup => ?_⟩
    · have hle := Multiset.dedup_le (s.kept.map s.row)
      have heq := Multiset.eq_of_le_of_card_le hle (by rw [hcard, Multiset.card_map])
      exact Multiset.dedup_eq_self.1 heq
    · rw [Multiset.dedup_eq_self.2 (hnodup hdistinct), Multiset.card_map]
  · simp [Multiset.card_map, hdistinct]

variable {s} {t : SelectCore ρ α}

/-- The groups do not depend on the select list, but for whether it aggregates. -/
theorem kept_congr (hsource : t.source = s.source) (hkeys : t.keys = s.keys) (hhaving : t.having = s.having)
    (haggregates : s.keys = [] → s.having = [] →
      t.items.any SelectItem.aggregates = s.items.any SelectItem.aggregates) : t.kept = s.kept := by
  have hkeyOf : t.keyOf = s.keyOf := by
    funext row
    rw [keyOf, keyOf, hkeys]
  have hgroups : t.groups = s.groups := by
    cases hempty : s.keys with
    | cons key keys => simp [groups, hkeyOf, hsource, hkeys, hempty]
    | nil =>
      have hall : t.aggregates = s.aggregates := by
        cases hnone : s.having with
        | cons condition conditions => simp [aggregates, hhaving, hnone]
        | nil => rw [aggregates, aggregates, hhaving, haggregates hempty hnone]
      simp [groups, hsource, hkeys, hempty, hall]
  rw [kept, kept, hgroups, hhaving]

/-- Ungrouped and with no HAVING, every source row is selected, or all of them at once. -/
theorem card_kept (hkeys : s.keys = []) (hhaving : s.having = []) :
    s.kept.card = if s.items.any SelectItem.aggregates then 1 else s.source.card := by
  simp only [kept, groups, aggregates, hkeys, hhaving, List.isEmpty_nil, List.all_nil, Multiset.filter_true, if_true,
    Bool.not_true, Bool.false_or]
  split_ifs
  · rfl
  · rw [Multiset.card_map]

end SelectCore

section Arms

variable {β : Type*} [DecidableEq β]

/-- An arm of a compound select: whether it keeps duplicates, and its rows. -/
abbrev Arm (β : Type*) := Bool × Multiset β

def mergeArm (rows : Multiset β) (arm : Arm β) : Multiset β :=
  if arm.1 then rows + arm.2 else (rows + arm.2).dedup

def mergeArms (rows : Multiset β) (arms : List (Arm β)) : Multiset β := arms.foldl mergeArm rows

/-- The rows of the arms up to the last that merges duplicates, if one does. -/
def mergedArms : List (Arm β) → Option (Multiset β)
  | [] => none
  | arm :: arms =>
    match mergedArms arms with
    | some rows => some (arm.2 + rows)
    | none => if arm.1 then none else some arm.2

/-- The rows of the arms after that one. -/
def appendedArms : List (Arm β) → Multiset β
  | [] => 0
  | arm :: arms =>
    match mergedArms arms with
    | some _ => appendedArms arms
    | none => if arm.1 then arm.2 + appendedArms arms else appendedArms arms

theorem mergeArms_eq (rows : Multiset β) (arms : List (Arm β)) :
    mergeArms rows arms = ((mergedArms arms).elim rows fun others => (rows + others).dedup) + appendedArms arms := by
  induction arms generalizing rows with
  | nil => simp [mergeArms, mergedArms, appendedArms]
  | cons arm arms ih =>
    have hstep : mergeArms rows (arm :: arms) = mergeArms (mergeArm rows arm) arms := rfl
    rw [hstep, ih, mergedArms, appendedArms, mergeArm]
    cases mergedArms arms with
    | some others =>
      split_ifs
      · rw [Option.elim_some, Option.elim_some, Multiset.add_assoc]
      · have hsame : ((rows + arm.2).dedup + others).dedup = (rows + (arm.2 + others)).dedup :=
          Multiset.dedup_ext.2 fun row => by simp [or_assoc]
        rw [Option.elim_some, Option.elim_some, hsame]
    | none =>
      split_ifs
      · rw [Option.elim_none, Option.elim_none, Multiset.add_assoc]
      · rw [Option.elim_none, Option.elim_some]

/-- What rows add to others when duplicates are merged. -/
def newRows (rows others : Multiset β) : Multiset β := (rows.filter fun row => row ∉ others).dedup

theorem card_dedup_add (rows others : Multiset β) :
    (rows + others).dedup.card = (newRows rows others).card + others.dedup.card := by
  have hnew : (newRows rows others).card = (rows.toFinset \ others.toFinset).card := by
    rw [newRows, ← Multiset.toFinset_card_of_nodup (Multiset.nodup_dedup _), Multiset.toFinset_dedup]
    congr 1
    ext row
    simp
  have hothers : others.dedup.card = others.toFinset.card := rfl
  have hboth : (rows + others).dedup.card = (rows.toFinset ∪ others.toFinset).card := by
    rw [← Multiset.toFinset_add]
    rfl
  rw [hnew, hothers, hboth, Finset.card_sdiff_add_card]

/-- When two bags leave as many rows beside the same arms. -/
theorem card_mergeArms_eq (rows rows' : Multiset β) (arms : List (Arm β)) :
    (mergeArms rows arms).card = (mergeArms rows' arms).card ↔
      (mergedArms arms).elim (rows.card = rows'.card) fun others =>
        (newRows rows others).card = (newRows rows' others).card := by
  rw [mergeArms_eq, mergeArms_eq, Multiset.card_add, Multiset.card_add]
  cases mergedArms arms with
  | none => simp
  | some others =>
    rw [Option.elim_some, Option.elim_some, Option.elim_some, card_dedup_add, card_dedup_add]
    omega

end Arms

end Lib
