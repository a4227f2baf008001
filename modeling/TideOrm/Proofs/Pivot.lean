import TideOrm.Lib.Traverse
import TideOrm.Spec.Pivot
import Mathlib.Data.Set.Insert

/-! What the calls of a many-to-many relation do to the pairs its pivot table links: one after another, and
with calls of other clients in between. -/

namespace TideOrm

open Lib

namespace Pivot

variable {K : Type} {pivot : Pivot K} {keys : PivotKeys} {rows rows' : List (PivotRow K)} {parent related : K}
  {parentPk relatedId : Json}

theorem isLive_newRow : pivot.isLive (pivot.newRow keys parent related) = true := by
  simp [isLive, newRow, PivotRow.isTrashed]

theorem column_newRow (pivot : Pivot K) (keys : PivotKeys) (parent related : K) :
    (pivot.newRow keys parent related).column keys.foreignKey = parent ∧
      (pivot.newRow keys parent related).column keys.relatedKey = related := by
  rw [newRow]
  exact ⟨Function.update_self .., (Function.update_of_ne keys.ne.symm ..).trans (Function.update_self ..)⟩

/-- A statement that writes does so, or is refused and leaves the rows as they were. -/
theorem exec_write {α : Type} (pivot : Pivot K) (f : List (PivotRow K) → α × List (PivotRow K)) (rows : List (PivotRow K)) :
    (∃ e, (pivot.write f).exec rows = (.error e, rows)) ∨ (pivot.write f).exec rows = (.ok (f rows).1, (f rows).2) := by
  rw [write, Call.exec_attempt]
  cases pivot.faults.1 rows (f rows).2 with
  | none => exact Or.inr rfl
  | some e => exact Or.inl ⟨e, rfl⟩

theorem exec_write_same {α : Type} {pivot : Pivot K} {f : List (PivotRow K) → α × List (PivotRow K)} (h : (f rows).2 = rows) :
    (pivot.write f).exec rows = (.ok (f rows).1, rows) := by
  rw [write, Call.exec_attempt, h, pivot.faults.2 rows]

theorem insertRow_eq (pivot : Pivot K) (keys : PivotKeys) (parent related : K) (rows : List (PivotRow K)) :
    pivot.insertRow keys parent related rows = (0, rows) ∨
      pivot.insertRow keys parent related rows = (1, rows ++ [pivot.newRow keys parent related]) ∧
        pivot.refuses rows (pivot.newRow keys parent related) = false := by
  rw [insertRow]
  split_ifs with hrefuses
  · exact Or.inl rfl
  · exact Or.inr ⟨rfl, eq_false_of_ne_true hrefuses⟩

variable [DecidableEq K]

/-- A row of the table links the pair. -/
def Linked (pivot : Pivot K) (keys : PivotKeys) (rows : List (PivotRow K)) (parent related : K) : Prop :=
  ∃ row ∈ rows, row.isPair keys parent related = true ∧ pivot.isLive row = true

theorem isPair_iff {row : PivotRow K} : row.isPair keys parent related = true ↔
    row.column keys.foreignKey = parent ∧ row.column keys.relatedKey = related := by
  rw [PivotRow.isPair, Bool.and_eq_true, decide_eq_true_eq, decide_eq_true_eq]

theorem isPair_newRow_iff {p r : K} : (pivot.newRow keys parent related).isPair keys p r = true ↔ p = parent ∧ r = related := by
  rw [isPair_iff, (column_newRow ..).1, (column_newRow ..).2, eq_comm, eq_comm (b := r)]

theorem isPair_newRow : (pivot.newRow keys parent related).isPair keys parent related = true := isPair_newRow_iff.2 ⟨rfl, rfl⟩

/-- Read from the other side, the pair is the other way round. -/
theorem isPair_inverse (row : PivotRow K) : row.isPair keys.inverse related parent = row.isPair keys parent related := Bool.and_comm ..

theorem linked_append_newRow {p r : K} :
    Linked pivot keys (rows ++ [pivot.newRow keys parent related]) p r ↔ Linked pivot keys rows p r ∨ p = parent ∧ r = related := by
  constructor
  · rintro ⟨row, hrow, hpair, hlive⟩
    rcases List.mem_append.1 hrow with hrow | hrow
    · exact Or.inl ⟨row, hrow, hpair, hlive⟩
    · rw [List.mem_singleton.1 hrow] at hpair
      exact Or.inr (isPair_newRow_iff.1 hpair)
  · rintro (⟨row, hrow, hpair, hlive⟩ | ⟨rfl, rfl⟩)
    · exact ⟨row, List.mem_append_left _ hrow, hpair, hlive⟩
    · exact ⟨_, List.mem_append_right _ (List.mem_singleton_self _), isPair_newRow, isLive_newRow⟩

theorem linked_inverse : Linked pivot keys.inverse rows related parent ↔ Linked pivot keys rows parent related := by
  simp only [Linked, isPair_inverse]

theorem any_linked (pivot : Pivot K) (keys : PivotKeys) (rows : List (PivotRow K)) (parent related : K) :
    (rows.any fun row => row.isPair keys parent related && (false || pivot.isLive row)) = true ↔ Linked pivot keys rows parent related := by
  simp [Linked]

theorem exec_pairExists (withTrashed : Bool) (rows : List (PivotRow K)) :
    (pivot.pairExists keys withTrashed parent related).exec rows =
      (.ok (rows.any fun row => row.isPair keys parent related && (withTrashed || pivot.isLive row)), rows) := rfl

/-- What the insert does alone: it fails, or does nothing, which it reports but for MySQL, or it writes the row. -/
theorem exec_pivotInsert (pivot : Pivot K) (keys : PivotKeys) (parent related : K) (rows : List (PivotRow K)) :
    (∃ e, (pivot.pivotInsert keys parent related).exec rows = (.error e, rows)) ∨
      (∃ written, (pivot.pivotInsert keys parent related).exec rows = (.ok written, rows) ∧
        (written = 0 ∨ pivot.isMysqlFamily = true)) ∨
      (pivot.pivotInsert keys parent related).exec rows = (.ok 1, rows ++ [pivot.newRow keys parent related]) := by
  have hinsert := insertRow_eq pivot keys parent related rows
  have hunconditional (hmysql : pivot.isMysqlFamily = true) (x : Statement ℕ)
      (hx : x = pivot.write fun rows => (1, (pivot.insertRow keys parent related rows).2)) :
      (∃ e, x.exec rows = (.error e, rows)) ∨ (∃ written, x.exec rows = (.ok written, rows) ∧
        (written = 0 ∨ pivot.isMysqlFamily = true)) ∨ x.exec rows = (.ok 1, rows ++ [pivot.newRow keys parent related]) := by
    rw [hx]
    rcases exec_write pivot (fun rows => (1, (pivot.insertRow keys parent related rows).2)) rows with h | h
    · exact Or.inl h
    · rw [h]
      rcases hinsert with hsame | ⟨hnew, -⟩
      · exact Or.inr (Or.inl ⟨1, by rw [hsame], Or.inr hmysql⟩)
      · exact Or.inr (Or.inr (by rw [hnew]))
  have hwrite (x : Statement ℕ) (f : List (PivotRow K) → ℕ × List (PivotRow K))
      (hf : f rows = (0, rows) ∨ f rows = pivot.insertRow keys parent related rows) (hx : x.exec rows = (pivot.write f).exec rows) :
      (∃ e, x.exec rows = (.error e, rows)) ∨ (∃ written, x.exec rows = (.ok written, rows) ∧
        (written = 0 ∨ pivot.isMysqlFamily = true)) ∨ x.exec rows = (.ok 1, rows ++ [pivot.newRow keys parent related]) := by
    rw [hx]
    rcases exec_write pivot f rows with h | h
    · exact Or.inl h
    · rw [h]
      rcases hf with hf | hf
      · exact Or.inr (Or.inl ⟨0, by rw [hf], Or.inl rfl⟩)
      · rcases hinsert with hsame | ⟨hnew, -⟩
        · exact Or.inr (Or.inl ⟨0, by rw [hf, hsame], Or.inl rfl⟩)
        · exact Or.inr (Or.inr (by rw [hf, hnew]))
  rw [pivotInsert]
  cases hdb : pivot.dbType with
  | mySql | mariaDb => exact hunconditional (by rw [isMysqlFamily, hdb]; rfl) _ rfl
  | sqlite =>
    refine hwrite _ _ ?_ rfl
    split_ifs
    · exact Or.inl rfl
    · exact Or.inr rfl
  | postgres =>
    dsimp only
    rw [Call.exec_bind, Call.exec_atomically]
    dsimp only
    split_ifs
    · exact Or.inr (Or.inl ⟨0, rfl, Or.inl rfl⟩)
    · exact hwrite _ _ (Or.inr rfl) rfl

/-- The pair is linked when the insert reports success, by a row that was there or by the one it wrote; a failure leaves
the rows as they were. -/
theorem exec_insertPivotPair (pivot : Pivot K) (keys : PivotKeys) (parentPk relatedId : Json) (rows : List (PivotRow K)) :
    (∃ e, (pivot.insertPivotPair keys parentPk relatedId).exec rows = (.error e, rows)) ∨
      (pivot.insertPivotPair keys parentPk relatedId).exec rows = (.ok (), rows) ∧
        Linked pivot keys rows (pivot.bind keys.foreignKey parentPk) (pivot.bind keys.relatedKey relatedId) ∨
      (pivot.insertPivotPair keys parentPk relatedId).exec rows =
        (.ok (), rows ++ [pivot.newRow keys (pivot.bind keys.foreignKey parentPk) (pivot.bind keys.relatedKey relatedId)]) := by
  rw [insertPivotPair]
  dsimp only
  rw [Call.exec_bind]
  rcases exec_pivotInsert pivot keys (pivot.bind keys.foreignKey parentPk) (pivot.bind keys.relatedKey relatedId) rows with
    ⟨e, h⟩ | ⟨written, h, hcount⟩ | h
  · exact Or.inl ⟨e, by rw [h]⟩
  · have hunconfirmed : (written == 0 || pivot.isMysqlFamily) = true := by
      rw [Bool.or_eq_true, beq_iff_eq]
      exact hcount
    rw [h]
    dsimp only
    rw [if_pos hunconfirmed, Call.exec_bind, exec_pairExists]
    dsimp only
    split_ifs with hmissing
    · exact Or.inl ⟨_, rfl⟩
    · rw [Bool.not_eq_true', Bool.not_eq_false, any_linked] at hmissing
      exact Or.inr (Or.inl ⟨rfl, hmissing⟩)
  · rw [h]
    dsimp only
    split_ifs with hunconfirmed
    · rw [Call.exec_bind, exec_pairExists]
      dsimp only
      have hlinked := (any_linked pivot keys
        (rows ++ [pivot.newRow keys (pivot.bind keys.foreignKey parentPk) (pivot.bind keys.relatedKey relatedId)]) _ _).2
          (linked_append_newRow.2 (Or.inr ⟨rfl, rfl⟩))
      rw [hlinked]
      exact Or.inr (Or.inr rfl)
    · exact Or.inr (Or.inr rfl)

/-- The rows of other pairs. -/
def others (keys : PivotKeys) (parent related : K) (rows : List (PivotRow K)) : List (PivotRow K) := rows.filter fun row => !row.isPair keys parent related

theorem others_append_newRow : others keys parent related (rows ++ [pivot.newRow keys parent related]) = others keys parent related rows := by
  rw [others, List.filter_append, List.filter_singleton, isPair_newRow]
  exact List.append_nil _

def restored (keys : PivotKeys) (parent related : K) (rows : List (PivotRow K)) : List (PivotRow K) :=
  rows.map fun row => if row.isPair keys parent related then { row with deletedAt := none } else row

theorem isPair_restored (row : PivotRow K) (p r : K) :
    (if row.isPair keys parent related then { row with deletedAt := none } else row).isPair keys p r = row.isPair keys p r := by
  split_ifs <;> rfl

theorem others_restored (parent related : K) (rows : List (PivotRow K)) :
    others keys parent related (restored keys parent related rows) = others keys parent related rows := by
  rw [others, restored, List.filter_map]
  have hfilter : (fun row : PivotRow K => !row.isPair keys parent related) ∘
      (fun row : PivotRow K => if row.isPair keys parent related then { row with deletedAt := none } else row) =
        fun row => !row.isPair keys parent related := by
    funext row
    rw [Function.comp_apply, isPair_restored]
  rw [hfilter, others]
  refine (List.map_congr_left fun row hrow => ?_).trans (List.map_id _)
  have hother := (List.mem_filter.1 hrow).2
  rw [Bool.not_eq_true'] at hother
  rw [hother]
  rfl

theorem linked_restored {p r : K} (htrashed : ∃ row ∈ rows, row.isPair keys parent related = true ∧ row.isTrashed = true) :
    Linked pivot keys (restored keys parent related rows) p r ↔ Linked pivot keys rows p r ∨ p = parent ∧ r = related := by
  have hlive (row : PivotRow K) : pivot.isLive { row with deletedAt := none } = true := by simp [isLive, PivotRow.isTrashed]
  constructor
  · rintro ⟨_, hmem, hpair, hrowLive⟩
    obtain ⟨row, hrow, rfl⟩ := List.mem_map.1 hmem
    rw [isPair_restored] at hpair
    split_ifs at hrowLive with hown
    · obtain ⟨rfl, rfl⟩ := isPair_iff.1 hpair
      obtain ⟨rfl, rfl⟩ := isPair_iff.1 hown
      exact Or.inr ⟨rfl, rfl⟩
    · exact Or.inl ⟨row, hrow, hpair, hrowLive⟩
  · rintro (⟨row, hrow, hpair, hrowLive⟩ | ⟨rfl, rfl⟩)
    · refine ⟨_, List.mem_map_of_mem hrow, (isPair_restored row p r).trans hpair, ?_⟩
      split_ifs
      · exact hlive row
      · exact hrowLive
    · obtain ⟨row, hrow, hpair, -⟩ := htrashed
      refine ⟨_, List.mem_map_of_mem hrow, (isPair_restored row p r).trans hpair, ?_⟩
      rw [if_pos hpair]
      exact hlive row

theorem restored_eq_self (h : ∀ row ∈ rows, row.isPair keys parent related = true → row.isTrashed = false) :
    restored keys parent related rows = rows := by
  refine (List.map_congr_left fun row hrow => ?_).trans (List.map_id rows)
  split_ifs with hpair
  · have hnone : row.deletedAt = none := by simpa [PivotRow.isTrashed] using h row hrow hpair
    cases row
    exact congrArg (PivotRow.mk _) hnone.symm
  · rfl

/-- What a call did to one pair: it is linked, none of its rows is in the trash, and the other pairs' rows are as they were. -/
structure Attached (pivot : Pivot K) (keys : PivotKeys) (parent related : K) (rows rows' : List (PivotRow K)) : Prop where
  linked : ∀ p r, Linked pivot keys rows' p r ↔ Linked pivot keys rows p r ∨ p = parent ∧ r = related
  untrashed : pivot.softDelete = true → ∀ row ∈ rows', row.isPair keys parent related = true → row.isTrashed = false
  others : others keys parent related rows' = others keys parent related rows

theorem attached_same (hlinked : Linked pivot keys rows parent related)
    (huntrashed : pivot.softDelete = true → ∀ row ∈ rows, row.isPair keys parent related = true → row.isTrashed = false) :
    Attached pivot keys parent related rows rows := by
  refine ⟨fun p r => (or_iff_left_of_imp ?_).symm, huntrashed, rfl⟩
  rintro ⟨rfl, rfl⟩
  exact hlinked

theorem attached_newRow (huntrashed : pivot.softDelete = true → ∀ row ∈ rows, row.isPair keys parent related = true → row.isTrashed = false) :
    Attached pivot keys parent related rows (rows ++ [pivot.newRow keys parent related]) := by
  refine ⟨fun p r => linked_append_newRow, fun hsoft row hrow hpair => ?_, others_append_newRow⟩
  rcases List.mem_append.1 hrow with hrow | hrow
  · exact huntrashed hsoft row hrow hpair
  · rw [List.mem_singleton.1 hrow]
    rfl

theorem attached_restored (htrashed : ∃ row ∈ rows, row.isPair keys parent related = true ∧ row.isTrashed = true) :
    Attached pivot keys parent related rows (restored keys parent related rows) := by
  refine ⟨fun p r => linked_restored htrashed, fun _ row hrow hpair => ?_, others_restored ..⟩
  obtain ⟨before, hbefore, rfl⟩ := List.mem_map.1 hrow
  rw [isPair_restored] at hpair
  rw [if_pos hpair]
  rfl

theorem exec_restorePair (pivot : Pivot K) (keys : PivotKeys) (parent related : K) (rows : List (PivotRow K)) :
    (∃ e, (pivot.restorePair keys parent related).exec rows = (.error e, rows)) ∨
      (pivot.restorePair keys parent related).exec rows =
        (.ok (rows.countP fun row => row.isPair keys parent related && row.isTrashed), restored keys parent related rows) :=
  exec_write ..

/-- Where no row of the pair is in the trash, the pair is linked afterwards, or nothing changed and the call failed. -/
theorem exec_attachMissing (huntrashed : pivot.softDelete = true → ∀ row ∈ rows,
      row.isPair keys (pivot.bind keys.foreignKey parentPk) (pivot.bind keys.relatedKey relatedId) = true → row.isTrashed = false) :
    (∃ e, (pivot.attachMissing keys parentPk relatedId).exec rows = (.error e, rows)) ∨
      ∃ rows', (pivot.attachMissing keys parentPk relatedId).exec rows = (.ok (), rows') ∧
        Attached pivot keys (pivot.bind keys.foreignKey parentPk) (pivot.bind keys.relatedKey relatedId) rows rows' := by
  have hinsert : (∃ e, (pivot.insertPivotPair keys parentPk relatedId).exec rows = (.error e, rows)) ∨
      ∃ rows', (pivot.insertPivotPair keys parentPk relatedId).exec rows = (.ok (), rows') ∧
        Attached pivot keys (pivot.bind keys.foreignKey parentPk) (pivot.bind keys.relatedKey relatedId) rows rows' := by
    rcases exec_insertPivotPair pivot keys parentPk relatedId rows with h | ⟨h, hlinked⟩ | h
    · exact Or.inl h
    · exact Or.inr ⟨rows, h, attached_same hlinked huntrashed⟩
    · exact Or.inr ⟨_, h, attached_newRow huntrashed⟩
  rw [attachMissing]
  dsimp only
  split_ifs
  · rw [Call.exec_bind, exec_pairExists]
    dsimp only
    split_ifs with hfound
    · obtain ⟨row, hrow, hpair⟩ := List.any_eq_true.1 hfound
      rw [Bool.true_or, Bool.and_true] at hpair
      have hlive : pivot.isLive row = true := by
        rw [isLive]
        rcases hsoft : pivot.softDelete with _ | _
        · rfl
        · rw [huntrashed hsoft row hrow hpair]
          rfl
      exact Or.inr ⟨rows, rfl, attached_same ⟨row, hrow, hpair, hlive⟩ huntrashed⟩
    · exact hinsert
  · exact hinsert

/-- `attach` alone: the pair is linked by it, or it failed and changed nothing. -/
theorem exec_attachPair (pivot : Pivot K) (keys : PivotKeys) (parentPk relatedId : Json) (rows : List (PivotRow K)) :
    (∃ e, (pivot.attachPair keys parentPk relatedId).exec rows = (.error e, rows)) ∨
      ∃ rows', (pivot.attachPair keys parentPk relatedId).exec rows = (.ok (), rows') ∧
        Attached pivot keys (pivot.bind keys.foreignKey parentPk) (pivot.bind keys.relatedKey relatedId) rows rows' := by
  rw [attachPair]
  split_ifs with hsoft
  · rw [Call.exec_bind]
    rcases exec_restorePair pivot keys (pivot.bind keys.foreignKey parentPk) (pivot.bind keys.relatedKey relatedId) rows with ⟨e, h⟩ | h
    · exact Or.inl ⟨e, by rw [h]⟩
    rw [h]
    dsimp only
    split_ifs with hcount
    · obtain ⟨row, hrow, htrashed⟩ := List.countP_pos_iff.1 hcount
      rw [Bool.and_eq_true] at htrashed
      exact Or.inr ⟨_, rfl, attached_restored ⟨row, hrow, htrashed⟩⟩
    · have huntrashed : ∀ row ∈ rows, row.isPair keys (pivot.bind keys.foreignKey parentPk) (pivot.bind keys.relatedKey relatedId) = true →
          row.isTrashed = false := by
        intro row hrow hpair
        refine eq_false_of_ne_true fun htrashed => hcount (List.countP_pos_iff.2 ⟨row, hrow, ?_⟩)
        rw [hpair, htrashed]
        rfl
      rw [restored_eq_self huntrashed]
      exact exec_attachMissing fun _ => huntrashed
  · exact exec_attachMissing fun h => absurd h hsoft

def trashedPair (now : ℕ) (pivot : Pivot K) (keys : PivotKeys) (parent related : K) (rows : List (PivotRow K)) : List (PivotRow K) :=
  if pivot.softDelete then
    rows.map fun row => if row.isPair keys parent related && pivot.isLive row then { row with deletedAt := some now } else row
  else rows.filter fun row => !row.isPair keys parent related

/-- `detach` unlinks its pair and no other. -/
theorem linked_trashedPair {now : ℕ} {p r : K} : Linked pivot keys (trashedPair now pivot keys parent related rows) p r ↔
    Linked pivot keys rows p r ∧ ¬(p = parent ∧ r = related) := by
  rw [trashedPair]
  split_ifs with hsoft
  · constructor
    · rintro ⟨_, hmem, hpair, hlive⟩
      obtain ⟨row, hrow, rfl⟩ := List.mem_map.1 hmem
      split_ifs at hpair hlive with hown
      · rw [isLive, hsoft] at hlive
        cases hlive
      · refine ⟨⟨row, hrow, hpair, hlive⟩, ?_⟩
        rintro ⟨rfl, rfl⟩
        exact hown (by rw [hpair, hlive]; rfl)
    · rintro ⟨⟨row, hrow, hpair, hlive⟩, hne⟩
      have hother : (row.isPair keys parent related && pivot.isLive row) ≠ true := by
        rw [Ne, Bool.and_eq_true, isPair_iff]
        rintro ⟨⟨rfl, rfl⟩, -⟩
        exact hne ⟨(isPair_iff.1 hpair).1.symm, (isPair_iff.1 hpair).2.symm⟩
      have hmem : row ∈ rows.map fun row => if row.isPair keys parent related && pivot.isLive row then { row with deletedAt := some now } else row :=
        List.mem_map.2 ⟨row, hrow, if_neg hother⟩
      exact ⟨row, hmem, hpair, hlive⟩
  · constructor
    · rintro ⟨row, hmem, hpair, hlive⟩
      obtain ⟨hrow, hother⟩ := List.mem_filter.1 hmem
      refine ⟨⟨row, hrow, hpair, hlive⟩, ?_⟩
      rintro ⟨rfl, rfl⟩
      rw [hpair] at hother
      cases hother
    · rintro ⟨⟨row, hrow, hpair, hlive⟩, hne⟩
      refine ⟨row, List.mem_filter.2 ⟨hrow, ?_⟩, hpair, hlive⟩
      rw [Bool.not_eq_true', Bool.eq_false_iff, Ne, isPair_iff]
      rintro ⟨rfl, rfl⟩
      exact hne ⟨(isPair_iff.1 hpair).1.symm, (isPair_iff.1 hpair).2.symm⟩

/-- The inserts of `sync`, one after another: they link their pairs, or one fails. -/
theorem exec_inserts (pivot : Pivot K) (keys : PivotKeys) (parentPk : Json) (wanted : List Json) (rows : List (PivotRow K)) :
    (∃ e, (Call.exec (wanted.forM fun id => pivot.insertPivotPair keys parentPk id) rows).1 = .error e) ∨
      ∃ rows', Call.exec (wanted.forM fun id => pivot.insertPivotPair keys parentPk id) rows = (.ok (), rows') ∧
        ∀ p r, Linked pivot keys rows' p r ↔
          Linked pivot keys rows p r ∨ p = pivot.bind keys.foreignKey parentPk ∧ ∃ id ∈ wanted, pivot.bind keys.relatedKey id = r := by
  induction wanted generalizing rows with
  | nil => exact Or.inr ⟨rows, rfl, fun p r => by simp⟩
  | cons id wanted ih =>
    have hfirst : (∃ e, (pivot.insertPivotPair keys parentPk id).exec rows = (.error e, rows)) ∨
        ∃ rows', (pivot.insertPivotPair keys parentPk id).exec rows = (.ok (), rows') ∧
          ∀ p r, Linked pivot keys rows' p r ↔
            Linked pivot keys rows p r ∨ p = pivot.bind keys.foreignKey parentPk ∧ r = pivot.bind keys.relatedKey id := by
      rcases exec_insertPivotPair pivot keys parentPk id rows with h | ⟨h, hlinked⟩ | h
      · exact Or.inl h
      · refine Or.inr ⟨rows, h, fun p r => (or_iff_left_of_imp ?_).symm⟩
        rintro ⟨rfl, rfl⟩
        exact hlinked
      · exact Or.inr ⟨_, h, fun p r => linked_append_newRow⟩
    rw [Call.exec_forM_cons]
    rcases hfirst with ⟨e, h⟩ | ⟨rows', h, hlinked⟩
    · exact Or.inl ⟨e, by rw [h]⟩
    · rw [h]
      dsimp only
      rcases ih rows' with herror | ⟨rows'', hexec, hlinked'⟩
      · exact Or.inl herror
      · refine Or.inr ⟨rows'', hexec, fun p r => ?_⟩
        rw [hlinked', hlinked, or_assoc, ← and_or_left, List.exists_mem_cons_iff, eq_comm (b := pivot.bind keys.relatedKey id)]

theorem linked_deleteOwner {p r : K} : Linked pivot keys (rows.filter fun row => !decide (row.column keys.foreignKey = parent)) p r ↔
    Linked pivot keys rows p r ∧ p ≠ parent := by
  constructor
  · rintro ⟨row, hmem, hpair, hlive⟩
    obtain ⟨hrow, hparent⟩ := List.mem_filter.1 hmem
    refine ⟨⟨row, hrow, hpair, hlive⟩, ?_⟩
    rw [Bool.not_eq_true', decide_eq_false_iff_not] at hparent
    exact (isPair_iff.1 hpair).1 ▸ hparent
  · rintro ⟨⟨row, hrow, hpair, hlive⟩, hne⟩
    refine ⟨row, List.mem_filter.2 ⟨hrow, ?_⟩, hpair, hlive⟩
    rw [Bool.not_eq_true', decide_eq_false_iff_not, (isPair_iff.1 hpair).1]
    exact hne

/-- The transaction of `sync` alone: the owner is linked with what was wanted and nothing else, or nothing changed. -/
theorem exec_replacePairs (pivot : Pivot K) (keys : PivotKeys) (parentPk : Json) (wanted : List Json) (rows : List (PivotRow K)) :
    (∃ e, (pivot.replacePairs keys parentPk wanted).exec rows = (.error e, rows)) ∨
      ∃ rows', (pivot.replacePairs keys parentPk wanted).exec rows = (.ok (), rows') ∧
        ∀ p r, Linked pivot keys rows' p r ↔ Linked pivot keys rows p r ∧ p ≠ pivot.bind keys.foreignKey parentPk ∨
          p = pivot.bind keys.foreignKey parentPk ∧ ∃ id ∈ wanted, pivot.bind keys.relatedKey id = r := by
  rw [replacePairs, Call.exec_transaction, Call.exec_bind]
  rcases exec_write pivot (fun rows => (rows.countP fun row => decide (row.column keys.foreignKey = pivot.bind keys.foreignKey parentPk),
    rows.filter fun row => !decide (row.column keys.foreignKey = pivot.bind keys.foreignKey parentPk))) rows with ⟨e, h⟩ | h
  · refine Or.inl ⟨e, ?_⟩
    rw [forceDeleteOwner, h]
  rw [forceDeleteOwner, h]
  dsimp only
  rcases exec_inserts pivot keys parentPk wanted
    (rows.filter fun row => !decide (row.column keys.foreignKey = pivot.bind keys.foreignKey parentPk)) with
    ⟨e, herror⟩ | ⟨rows', hexec, hlinked⟩
  · left
    refine ⟨e, ?_⟩
    generalize Call.exec (wanted.forM fun id => pivot.insertPivotPair keys parentPk id)
      (rows.filter fun row => !decide (row.column keys.foreignKey = pivot.bind keys.foreignKey parentPk)) = outcome at herror ⊢
    rcases outcome with ⟨result, rows'⟩
    rw [show result = .error e from herror]
  · rw [hexec]
    refine Or.inr ⟨rows', rfl, fun p r => ?_⟩
    rw [hlinked, linked_deleteOwner]

end Pivot

theorem eq_of_linkableKey {key key' : Json} {context : String} (h : linkableKey key context = .ok key') : key' = key := by
  rw [linkableKey] at h
  split_ifs at h
  exact (Except.ok.inj h).symm

theorem nonNull_of_linkableKey {key key' : Json} {context : String} (h : linkableKey key context = .ok key') : key.isNull = false := by
  rw [linkableKey] at h
  split_ifs at h with hnull
  exact eq_false_of_ne_true hnull

theorem eq_of_requireScalar {key key' : Json} {context : String} (h : requireScalarRelationKey key context = .ok key') : key' = key := by
  rw [requireScalarRelationKey.eq_def] at h
  split at h
  · cases h
  · cases h
  · exact (Except.ok.inj h).symm

namespace HasManyThrough

open Pivot

variable {K : Type} {relation : HasManyThrough} {pivot : Pivot K}

theorem key_of_parentKey {context : String} {pk : Json} (h : relation.parentKey pivot context = .ok pk) : relation.key = some pk := by
  obtain ⟨-, -, hrequired⟩ := bind_eq_ok h
  rw [requiredKey.eq_def] at hrequired
  split at hrequired
  · cases hrequired
  · rename_i key hkey
    rw [hkey, eq_of_requireScalar hrequired]

/-- The value the relation's pivot rows are matched on. -/
def owner (relation : HasManyThrough) (pivot : Pivot K) : K := pivot.bind relation.foreignKey (relation.key.getD .null)

theorem owner_of_linkable {context context' : String} {pk : Json}
    (h : (do linkableKey (← relation.parentKey pivot context) context') = .ok pk) : pivot.bind relation.foreignKey pk = relation.owner pivot := by
  obtain ⟨key, hkey, hlinkable⟩ := bind_eq_ok h
  rw [owner, key_of_parentKey hkey, eq_of_linkableKey hlinkable]
  rfl

theorem nonNull_of_linkable {context context' : String} {pk : Json}
    (h : (do linkableKey (← relation.parentKey pivot context) context') = .ok pk) : pk.isNull = false := by
  obtain ⟨key, -, hlinkable⟩ := bind_eq_ok h
  rw [eq_of_linkableKey hlinkable]
  exact nonNull_of_linkableKey hlinkable

theorem wantedKeys_spec (pivot : Pivot K) {seen : List String} {ids wanted : List Json} (h : wantedKeys pivot seen ids = .ok wanted) :
    (∀ id ∈ wanted, id ∈ ids) ∧ ∀ id ∈ ids, (∃ other ∈ wanted, pivot.display other = pivot.display id) ∨ pivot.display id ∈ seen := by
  induction ids generalizing seen wanted with
  | nil =>
    obtain rfl := Except.ok.inj h
    exact ⟨fun id hid => hid, fun id hid => (List.not_mem_nil hid).elim⟩
  | cons id ids ih =>
    rw [wantedKeys] at h
    obtain ⟨key, -, hlinkable⟩ := bind_eq_ok h
    obtain ⟨_, -, hrest⟩ := bind_eq_ok hlinkable
    split_ifs at hrest with hseen
    · obtain ⟨hsub, hall⟩ := ih hrest
      refine ⟨fun other hother => List.mem_cons_of_mem _ (hsub other hother), List.forall_mem_cons.2 ⟨Or.inr ?_, hall⟩⟩
      exact List.contains_iff_mem.1 hseen
    · obtain ⟨rest, htail, hwanted⟩ := bind_eq_ok hrest
      obtain rfl := Except.ok.inj hwanted
      obtain ⟨hsub, hall⟩ := ih htail
      refine ⟨List.forall_mem_cons.2 ⟨List.mem_cons_self, fun other hother => List.mem_cons_of_mem _ (hsub other hother)⟩,
        List.forall_mem_cons.2 ⟨Or.inl ⟨id, List.mem_cons_self, rfl⟩, fun other hother => ?_⟩⟩
      rcases hall other hother with ⟨found, hfound, hsame⟩ | hmem
      · exact Or.inl ⟨found, List.mem_cons_of_mem _ hfound, hsame⟩
      · rcases List.mem_cons.1 hmem with hsame | hmem
        · exact Or.inl ⟨id, List.mem_cons_self, hsame.symm⟩
        · exact Or.inr hmem

theorem wantedKeys_nonNull {seen : List String} {ids wanted : List Json} (h : wantedKeys pivot seen ids = .ok wanted) :
    ∀ id ∈ ids, id.isNull = false := by
  induction ids generalizing seen wanted with
  | nil => exact fun id hid => (List.not_mem_nil hid).elim
  | cons id ids ih =>
    rw [wantedKeys] at h
    obtain ⟨key, hscalar, hlinkable⟩ := bind_eq_ok h
    obtain ⟨linked, hlinked, hrest⟩ := bind_eq_ok hlinkable
    have hid : id.isNull = false := by
      rw [← eq_of_requireScalar hscalar]
      exact nonNull_of_linkableKey hlinked
    refine List.forall_mem_cons.2 ⟨hid, ?_⟩
    split_ifs at hrest with hseen
    · exact ih hrest
    · obtain ⟨rest, htail, -⟩ := bind_eq_ok hrest
      exact ih htail

/-- The checks on the parent's key pass or fail whatever the call. -/
theorem parentKey_context {context : String} {pk : Json} (h : relation.parentKey pivot context = .ok pk) (context' : String) :
    relation.parentKey pivot context' = .ok pk := by
  obtain ⟨configured, hconfigured, hrequired⟩ := bind_eq_ok h
  rw [parentKey, hconfigured]
  rw [requiredKey.eq_def] at hrequired
  split at hrequired
  · cases hrequired
  · rename_i key hkey
    change requiredKey relation.key "Parent primary key" context' = .ok pk
    rw [hkey, requiredKey]
    rw [requireScalarRelationKey.eq_def] at hrequired ⊢
    split at hrequired
    · cases hrequired
    · cases hrequired
    · exact hrequired

variable [DecidableEq K]

/-- `attach` fails before its first statement, or is that of its keys. -/
theorem attach_cases (relation : HasManyThrough) (pivot : Pivot K) (relatedId : Json) :
    (∃ e, relation.attach pivot relatedId = throw e) ∨
      ∃ pk, pk.isNull = false ∧ relatedId.isNull = false ∧ pivot.bind relation.foreignKey pk = relation.owner pivot ∧
        relation.attach pivot relatedId = pivot.attachPair relation.toPivotKeys pk relatedId := by
  rw [attach]
  rcases Call.liftExcept_bind_cases _ _ with ⟨e, -, h⟩ | ⟨pk, hpk, h⟩
  · exact Or.inl ⟨e, h⟩
  rw [h]
  rcases Call.liftExcept_bind_cases _ _ with ⟨e, -, h⟩ | ⟨id, hid, h⟩
  · exact Or.inl ⟨e, h⟩
  rw [h]
  obtain ⟨key, hscalar, hlinkable⟩ := bind_eq_ok hid
  have hnull := nonNull_of_linkableKey hlinkable
  obtain rfl := eq_of_linkableKey hlinkable
  obtain rfl := eq_of_requireScalar hscalar
  exact Or.inr ⟨pk, nonNull_of_linkable hpk, hnull, owner_of_linkable hpk, rfl⟩

theorem exec_attach (relation : HasManyThrough) (pivot : Pivot K) (relatedId : Json) (rows : List (PivotRow K)) :
    (∃ e, (relation.attach pivot relatedId).exec rows = (.error e, rows)) ∨
      ∃ rows', (relation.attach pivot relatedId).exec rows = (.ok (), rows') ∧
        Attached pivot relation.toPivotKeys (relation.owner pivot) (pivot.bind relation.relatedKey relatedId) rows rows' := by
  rcases attach_cases relation pivot relatedId with ⟨e, h⟩ | ⟨pk, -, -, hpk, h⟩
  · exact Or.inl ⟨e, by rw [h]; rfl⟩
  · rw [h, ← hpk]
    exact exec_attachPair pivot relation.toPivotKeys pk relatedId rows

theorem exec_detach (relation : HasManyThrough) (pivot : Pivot K) (now : ℕ) (relatedId : Json) (rows : List (PivotRow K)) :
    (∃ e, (relation.detach pivot now relatedId).exec rows = (.error e, rows)) ∨
      ∃ told, (relation.detach pivot now relatedId).exec rows =
        (.ok told, trashedPair now pivot relation.toPivotKeys (relation.owner pivot) (pivot.bind relation.relatedKey relatedId) rows) := by
  rw [detach]
  rcases Call.liftExcept_bind_cases _ _ with ⟨e, -, h⟩ | ⟨pk, hpk, h⟩
  · exact Or.inl ⟨e, by rw [h]; rfl⟩
  · rw [h, owner_of_linkable hpk]
    exact (exec_write ..).imp id fun h => ⟨_, h⟩

/-- `sync` fails before its first statement, or is the transaction of its keys. -/
theorem sync_cases (relation : HasManyThrough) (pivot : Pivot K) (ids : List Json) :
    (∃ e, relation.sync pivot ids = throw e) ∨
      ∃ pk wanted, (do linkableKey (← relation.parentKey pivot "HasManyThrough::sync") "HasManyThrough::sync") = .ok pk ∧
        wantedKeys pivot [] ids = .ok wanted ∧ relation.sync pivot ids = pivot.replacePairs relation.toPivotKeys pk wanted := by
  rw [sync]
  rcases Call.liftExcept_bind_cases _ _ with ⟨e, -, h⟩ | ⟨pk, hpk, h⟩
  · exact Or.inl ⟨e, h⟩
  rw [h]
  rcases Call.liftExcept_bind_cases _ _ with ⟨e, -, h⟩ | ⟨wanted, hwanted, h⟩
  · exact Or.inl ⟨e, h⟩
  · exact Or.inr ⟨pk, wanted, hpk, hwanted, h⟩

theorem exec_sync (relation : HasManyThrough) (pivot : Pivot K) (ids : List Json) (rows : List (PivotRow K)) :
    (∃ e, (relation.sync pivot ids).exec rows = (.error e, rows)) ∨
      ∃ rows', (relation.sync pivot ids).exec rows = (.ok (), rows') ∧
        ∀ p r, Linked pivot relation.toPivotKeys rows' p r ↔ Linked pivot relation.toPivotKeys rows p r ∧ p ≠ relation.owner pivot ∨
          p = relation.owner pivot ∧ ∃ id ∈ ids, pivot.bind relation.relatedKey id = r := by
  rcases sync_cases relation pivot ids with ⟨e, h⟩ | ⟨pk, wanted, hpk, hwanted, h⟩
  · exact Or.inl ⟨e, by rw [h]; rfl⟩
  rw [h]
  obtain ⟨hsub, hall⟩ := wantedKeys_spec pivot hwanted
  have hids (r : K) : (∃ id ∈ wanted, pivot.bind relation.relatedKey id = r) ↔ ∃ id ∈ ids, pivot.bind relation.relatedKey id = r := by
    constructor
    · rintro ⟨id, hid, hr⟩
      exact ⟨id, hsub id hid, hr⟩
    · rintro ⟨id, hid, rfl⟩
      obtain ⟨other, hother, hsame⟩ := (hall id hid).resolve_right (List.not_mem_nil)
      exact ⟨other, hother, pivot.display_inj _ other id hsame⟩
  rw [← owner_of_linkable hpk]
  rcases exec_replacePairs pivot relation.toPivotKeys pk wanted rows with h | ⟨rows', h, hlinked⟩
  · exact Or.inl h
  · exact Or.inr ⟨rows', h, fun p r => by rw [hlinked, hids]⟩

/-- Keys as a `BIGINT` column holds them. -/
def bigintKey : Json → Option ℕ
  | .null => none
  | .number (.posInt n) => some n
  | _ => some 0

theorem bigintKey_null (key : Json) : bigintKey key = none ↔ key.isNull = true := by
  rw [bigintKey.eq_def, Json.isNull.eq_def]
  split <;> simp

def keyText (key : Json) : String := ((bigintKey key).map Nat.repr).getD "null"

theorem repr_ne_null (n : ℕ) : n.repr ≠ "null" := by
  intro h
  have hmem : 'n' ∈ Nat.toDigits 10 n := by
    rw [← Nat.toList_repr, h]
    decide
  exact absurd (Nat.isDigit_of_mem_toDigits (by decide) (by decide) hmem) (by decide)

theorem keyText_inj (key other : Json) (h : keyText key = keyText other) : bigintKey key = bigintKey other := by
  rw [keyText, keyText] at h
  rcases hkey : bigintKey key with _ | n <;> rcases hother : bigintKey other with _ | m <;> rw [hkey, hother] at h
  · exact absurd h.symm (repr_ne_null m)
  · exact absurd h (repr_ne_null n)
  · have hdigits := congrArg (fun text : String => Nat.ofDigitChars 10 text.toList 0) h
    dsimp only [Option.map_some, Option.getD_some] at hdigits
    rw [Nat.toList_repr, Nat.toList_repr, Nat.ofDigitChars_ten_toDigits, Nat.ofDigitChars_ten_toDigits] at hdigits
    rw [hdigits]

def userRoles (dbType : DatabaseType) (softDelete uniquePair : Bool) : Pivot (Option ℕ) where
  tableName := "user_roles"
  softDelete := softDelete
  dbType := dbType
  refuses rows row := uniquePair &&
    rows.any fun other => decide (other.column "user_id" = row.column "user_id" ∧ other.column "role_id" = row.column "role_id")
  faults := ⟨fun _ _ => none, fun _ => rfl⟩
  columnDefault _ := none
  null := none
  bind _ := bigintKey
  bind_null _ := bigintKey_null
  display := keyText
  display_inj _ := keyText_inj

/-- The roles of a user. -/
def roles (user : ℕ) : HasManyThrough := ⟨⟨"user_id", "role_id", by decide⟩, "id", "id", "user_roles", some (.number (.posInt user))⟩

/-- The users of a role. -/
def users (role : ℕ) : HasManyThrough := ⟨(roles 0).inverse, "id", "id", "user_roles", some (.number (.posInt role))⟩

def role (id : ℕ) : Json := .number (.posInt id)

/-- The row of a user's role. -/
def userRole (user role : ℕ) (deletedAt : Option ℕ) : PivotRow (Option ℕ) where
  column name := if name = "user_id" then some user else if name = "role_id" then some role else none
  deletedAt := deletedAt

/-- What `load` reads after a `sync`, unless it serves the rows that an entity manager keeps, and `count` counts: the
related rows in scope whose key is one of the ids. -/
theorem load_after_sync {R : Type} (relation : HasManyThrough) (pivot : Pivot K) (relatedIds : List Json)
    (rows rows' : List (PivotRow K)) (h : (relation.sync pivot relatedIds).exec rows = (.ok (), rows'))
    (state : RelationState (List R)) (related : List R) (inScope : R → Bool) (keyOf : R → K) :
    relation.load pivot state related inScope keyOf rows' =
        .ok (if state.loaded && state.entityManager then state.cached.getD []
          else related.filter fun row => inScope row && relatedIds.any fun id => decide (pivot.bind relation.relatedKey id = keyOf row)) ∧
      relation.count pivot related inScope keyOf rows' =
        .ok (related.countP fun row => inScope row && relatedIds.any fun id => decide (pivot.bind relation.relatedKey id = keyOf row)) := by
  have hlinked : ∀ p r, Linked pivot relation.toPivotKeys rows' p r ↔
      Linked pivot relation.toPivotKeys rows p r ∧ p ≠ relation.owner pivot ∨
        p = relation.owner pivot ∧ ∃ id ∈ relatedIds, pivot.bind relation.relatedKey id = r := by
    rcases exec_sync relation pivot relatedIds rows with ⟨e, herror⟩ | ⟨after, hok, hlinked⟩
    · rw [h] at herror
      cases herror
    · rw [h] at hok
      rwa [(Prod.mk.inj hok).2]
  rcases sync_cases relation pivot relatedIds with ⟨e, hthrow⟩ | ⟨pk, wanted, hpk, hwanted, -⟩
  · rw [hthrow] at h
    cases h
  obtain ⟨key, hkey, hlinkable⟩ := bind_eq_ok hpk
  have hnull := nonNull_of_linkableKey hlinkable
  obtain rfl := eq_of_linkableKey hlinkable
  have howner := owner_of_linkable hpk
  have hquery (context : String) : relation.loadQuery pivot related inScope keyOf context rows' =
      .ok (related.filter fun row => inScope row && relatedIds.any fun id => decide (pivot.bind relation.relatedKey id = keyOf row)) := by
    rw [loadQuery, parentKey_context hkey context]
    refine congrArg Except.ok (List.filter_congr fun row _ => ?_)
    rw [hnull, if_neg Bool.false_ne_true, howner, Bool.and_assoc]
    refine congrArg (inScope row && ·) (Bool.eq_iff_iff.2 ?_)
    rw [Bool.and_eq_true, decide_eq_true_eq, List.any_eq_true, List.any_eq_true]
    constructor
    · rintro ⟨-, link, hlink, hrelated⟩
      obtain ⟨hmem, howned⟩ := List.mem_filter.1 hlink
      rw [Bool.and_eq_true, decide_eq_true_eq] at howned
      have hpair := (hlinked (relation.owner pivot) (keyOf row)).1
        ⟨link, hmem, isPair_iff.2 ⟨howned.1, of_decide_eq_true hrelated⟩, howned.2⟩
      rcases hpair with ⟨-, hne⟩ | ⟨-, id, hid, hbound⟩
      · exact absurd rfl hne
      · exact ⟨id, hid, decide_eq_true hbound⟩
    · rintro ⟨id, hid, hbound⟩
      have hbound := of_decide_eq_true hbound
      refine ⟨fun hkeyNull => ?_, ?_⟩
      · rw [hkeyNull, pivot.bind_null, wantedKeys_nonNull hwanted id hid] at hbound
        cases hbound
      · obtain ⟨link, hmem, hpair, hlive⟩ := (hlinked (relation.owner pivot) (keyOf row)).2 (Or.inr ⟨rfl, id, hid, hbound⟩)
        obtain ⟨hparent, hrelated⟩ := isPair_iff.1 hpair
        exact ⟨link, List.mem_filter.2 ⟨hmem, by rw [hparent, hlive, decide_eq_true rfl]; rfl⟩, decide_eq_true hrelated⟩
  have hconfigured : relation.canQuery pivot state = !state.entityManager := by
    obtain ⟨_, hensure, -⟩ := bind_eq_ok hkey
    rw [canQuery, hensure, key_of_parentKey hkey]
    rfl
  constructor
  · rw [load, RelationState.served, hconfigured, Bool.not_not, hquery]
    split_ifs <;> rfl
  · rw [count, hquery, Except.map, List.countP_eq_length_filter]

theorem load_after_sync_two :
    (roles 1).load (userRoles .postgres true true) ⟨some [8], true, false⟩ [7, 8, 9] (fun id => id != 9) some
        (((roles 1).sync (userRoles .postgres true true) [role 7, role 9, role 7]).exec
          [userRole 1 7 (some 40), userRole 1 8 none]).2 = .ok [7] ∧
      (roles 1).count (userRoles .postgres true true) [7, 8, 9] (fun id => id != 9) some
        (((roles 1).sync (userRoles .postgres true true) [role 7, role 9, role 7]).exec
          [userRole 1 7 (some 40), userRole 1 8 none]).2 = .ok 1 :=
  load_after_sync (roles 1) (userRoles .postgres true true) [role 7, role 9, role 7]
    [userRole 1 7 (some 40), userRole 1 8 none] _ rfl ⟨some [8], true, false⟩ [7, 8, 9] (fun id => id != 9) some

/-- A pair that is linked, with none of its rows in the trash, stays as it is. -/
theorem exec_attachPair_linked {keys : PivotKeys} {pk id : Json} {rows : List (PivotRow K)}
    (hlinked : Linked pivot keys rows (pivot.bind keys.foreignKey pk) (pivot.bind keys.relatedKey id))
    (huntrashed : pivot.softDelete = true → ∀ row ∈ rows,
      row.isPair keys (pivot.bind keys.foreignKey pk) (pivot.bind keys.relatedKey id) = true → row.isTrashed = false) :
    (pivot.attachPair keys pk id).exec rows = (.ok (), rows) := by
  obtain ⟨row, hrow, hpair, hlive⟩ := hlinked
  have hfound : rows.any (PivotRow.isPair keys (pivot.bind keys.foreignKey pk) (pivot.bind keys.relatedKey id)) = true :=
    List.any_eq_true.2 ⟨row, hrow, hpair⟩
  have hmissing : (pivot.attachMissing keys pk id).exec rows = (.ok (), rows) := by
    rw [attachMissing]
    split_ifs with hmysql
    · rw [Call.exec_bind, exec_pairExists]
      dsimp only
      rw [if_pos (List.any_eq_true.2 ⟨row, hrow, by rw [hpair]; rfl⟩)]
      rfl
    · have hinsert : (pivot.pivotInsert keys (pivot.bind keys.foreignKey pk) (pivot.bind keys.relatedKey id)).exec rows =
          (.ok 0, rows) := by
        rw [isMysqlFamily] at hmysql
        rw [pivotInsert]
        rcases hdb : pivot.dbType with _ | _ | _ | _
        · dsimp only
          rw [Call.exec_bind, Call.exec_atomically]
          dsimp only
          rw [if_pos hfound]
          rfl
        · exact absurd (by rw [hdb]; rfl) hmysql
        · exact absurd (by rw [hdb]; rfl) hmysql
        · dsimp only
          rw [exec_write_same (by rw [if_pos hfound]), if_pos hfound]
      have hunconfirmed : ((0 : ℕ) == 0 || pivot.isMysqlFamily) = true := rfl
      rw [insertPivotPair, Call.exec_bind, hinsert]
      dsimp only
      rw [if_pos hunconfirmed, Call.exec_bind, exec_pairExists, (any_linked pivot keys rows _ _).2 ⟨row, hrow, hpair, hlive⟩]
      rfl
  rw [attachPair]
  split_ifs with hsoft
  · have hnone : rows.countP (fun row => row.isPair keys (pivot.bind keys.foreignKey pk) (pivot.bind keys.relatedKey id) &&
        row.isTrashed) = 0 := by
      refine List.countP_eq_zero.2 fun other hother htrashed => ?_
      rw [Bool.and_eq_true] at htrashed
      exact Bool.false_ne_true ((huntrashed hsoft other hother htrashed.1).symm.trans htrashed.2)
    rw [Call.exec_bind, restorePair, exec_write_same (restored_eq_self (huntrashed hsoft)), hnone]
    exact hmissing
  · exact hmissing

/-- Attaching what is attached is a no-op. -/
theorem attach_again (relation : HasManyThrough) (pivot : Pivot K) (relatedId : Json) (rows rows' : List (PivotRow K))
    (h : (relation.attach pivot relatedId).exec rows = (.ok (), rows')) :
    (relation.attach pivot relatedId).exec rows' = (.ok (), rows') := by
  rcases attach_cases relation pivot relatedId with ⟨e, hthrow⟩ | ⟨pk, -, -, hpk, hattach⟩
  · rw [hthrow, Call.exec_throw] at h
    cases h
  · rcases exec_attach relation pivot relatedId rows with ⟨e, herror⟩ | ⟨after, hok, hattached⟩
    · rw [herror] at h
      cases h
    · rw [hok] at h
      cases h
      rw [hattach]
      refine exec_attachPair_linked ?_ ?_
      · rw [hpk]
        exact (hattached.linked _ _).2 (Or.inr ⟨rfl, rfl⟩)
      · rw [hpk]
        exact hattached.untrashed

/-- The second attach finds what the first restored from the trash. -/
theorem attach_again_restored :
    ((roles 1).attach (userRoles .mariaDb true false) (role 7)).exec [userRole 1 7 none] = (.ok (), [userRole 1 7 none]) :=
  attach_again (roles 1) (userRoles .mariaDb true false) (role 7) [userRole 1 7 (some 40)] _ rfl

end HasManyThrough

open Pivot HasManyThrough

section Refinement

variable {K : Type} {keys : PivotKeys}

/-- What a call is to make of the pairs linked, in its relation's order: it adds one, takes one away, or replaces those of
the owner. -/
def PivotCall.Means (relation : HasManyThrough) (pivot : Pivot K) (linked : K → K → Prop) (p r : K) : PivotCall → Prop
  | .attach relatedId => linked p r ∨ p = relation.owner pivot ∧ r = pivot.bind relation.relatedKey relatedId
  | .detach _ relatedId => linked p r ∧ ¬(p = relation.owner pivot ∧ r = pivot.bind relation.relatedKey relatedId)
  | .sync relatedIds =>
    linked p r ∧ p ≠ relation.owner pivot ∨ p = relation.owner pivot ∧ ∃ id ∈ relatedIds, pivot.bind relation.relatedKey id = r

/-- A pair in the order of the call's relation, or back. -/
def PivotUse.turned (use : PivotUse K keys) (link : K × K) : K × K :=
  if use.relation.foreignKey = keys.foreignKey then link else link.swap

theorem PivotUse.turned_turned (use : PivotUse K keys) (link : K × K) : use.turned (use.turned link) = link := by
  rw [turned, turned]
  split_ifs
  · rfl
  · exact Prod.swap_swap link

variable [DecidableEq K]

/-- The pairs that a table links. -/
def links (pivot : Pivot K) (keys : PivotKeys) (rows : List (PivotRow K)) : Set (K × K) := {link | Linked pivot keys rows link.1 link.2}

/-- What a call is to make of the links. -/
def PivotUse.meaning (use : PivotUse K keys) (pivot : Pivot K) (before : Set (K × K)) : Set (K × K) :=
  {link | use.call.Means use.relation pivot (fun p r => use.turned (p, r) ∈ before) (use.turned link).1 (use.turned link).2}

theorem PivotUse.linked_turned (use : PivotUse K keys) (pivot : Pivot K) (rows : List (PivotRow K)) (link : K × K) :
    Linked pivot use.relation.toPivotKeys rows (use.turned link).1 (use.turned link).2 ↔ link ∈ links pivot keys rows := by
  rw [turned]
  rcases use.isOver with h | h
  · rw [h, if_pos rfl]
    rfl
  · have hother : keys.inverse.foreignKey ≠ keys.foreignKey := keys.ne.symm
    rw [h, if_neg hother]
    exact linked_inverse

/-- A call makes of the pairs linked what it means, or fails and leaves every row as it was. -/
theorem exec_call (relation : HasManyThrough) (pivot : Pivot K) (call : PivotCall) (rows : List (PivotRow K)) :
    (∃ e, (call.run relation pivot).exec rows = (.error e, rows)) ∨
      ∃ told rows', (call.run relation pivot).exec rows = (.ok told, rows') ∧ ∀ p r,
        Linked pivot relation.toPivotKeys rows' p r ↔ call.Means relation pivot (Linked pivot relation.toPivotKeys rows) p r := by
  cases call with
  | attach relatedId =>
    rw [PivotCall.run, Call.exec_bind]
    rcases exec_attach relation pivot relatedId rows with ⟨e, h⟩ | ⟨rows', h, hattached⟩
    · exact Or.inl ⟨e, by rw [h]⟩
    · exact Or.inr ⟨none, rows', by rw [h]; rfl, hattached.linked⟩
  | detach now relatedId =>
    rw [PivotCall.run, Call.exec_bind]
    rcases exec_detach relation pivot now relatedId rows with ⟨e, h⟩ | ⟨told, h⟩
    · exact Or.inl ⟨e, by rw [h]⟩
    · exact Or.inr ⟨some told, _, by rw [h]; rfl, fun p r => linked_trashedPair⟩
  | sync relatedIds =>
    rw [PivotCall.run, Call.exec_bind]
    rcases exec_sync relation pivot relatedIds rows with ⟨e, h⟩ | ⟨rows', h, hlinked⟩
    · exact Or.inl ⟨e, by rw [h]⟩
    · exact Or.inr ⟨none, rows', by rw [h]; rfl, hlinked⟩

/-- A call makes of the links what it means, from either side, or fails and leaves every row as it was. -/
theorem exec_use (use : PivotUse K keys) (pivot : Pivot K) (rows : List (PivotRow K)) :
    (∃ e, (use.run pivot).exec rows = (.error e, rows)) ∨
      ∃ told rows', (use.run pivot).exec rows = (.ok told, rows') ∧
        links pivot keys rows' = use.meaning pivot (links pivot keys rows) := by
  rcases exec_call use.relation (use.pivotThen pivot) use.call rows with h | ⟨told, rows', h, hlinked⟩
  · exact Or.inl h
  refine Or.inr ⟨told, rows', h, Set.ext fun link => ?_⟩
  have hbefore : Linked (use.pivotThen pivot) use.relation.toPivotKeys rows =
      fun p r => use.turned (p, r) ∈ links pivot keys rows := by
    funext p r
    have hturned := use.linked_turned pivot rows (use.turned (p, r))
    rw [use.turned_turned] at hturned
    exact propext hturned
  rw [← use.linked_turned]
  refine (hlinked _ _).trans ?_
  rw [hbefore]
  rfl

/-- The calls of a list one after another: those that succeeded, and the rows left. -/
def runCalls (pivot : Pivot K) : List (PivotUse K keys) → List (PivotRow K) → List (PivotUse K keys) × List (PivotRow K)
  | [], rows => ([], rows)
  | use :: calls, rows =>
    match (use.run pivot).exec rows with
    | (.ok _, rows') => (use :: (runCalls pivot calls rows').1, (runCalls pivot calls rows').2)
    | (.error _, rows') => runCalls pivot calls rows'

/-- A call that nothing refuses. -/
def PivotUse.ofCall (relation : HasManyThrough) (hover : relation.Over keys) (call : PivotCall) : PivotUse (Option ℕ) keys :=
  ⟨relation, hover, ⟨fun _ _ => none, fun _ => rfl⟩, call⟩

/-- A role is attached to two users, and the role's users are then replaced. -/
def syncBack : List (PivotUse (Option ℕ) (roles 1).toPivotKeys) :=
  [.ofCall (roles 1) (Or.inl rfl) (.attach (role 7)), .ofCall (roles 2) (Or.inl rfl) (.attach (role 7)),
    .ofCall (users 7) (Or.inr rfl) (.sync [role 2, role 3])]

example : ((runCalls (userRoles .sqlite false false) syncBack []).2.map fun row => (row.column "user_id", row.column "role_id")) =
    [(some 2, some 7), (some 3, some 7)] := rfl

end Refinement

section Guarantees

variable {K : Type} [DecidableEq K] {pivot : Pivot K} {keys : PivotKeys} {guarantee : List (PivotRow K) → List (PivotRow K) → Prop}

/-- Every statement of a call moves the rows as `guarantee` allows. -/
structure StatementsMove (pivot : Pivot K) (keys : PivotKeys) (guarantee : List (PivotRow K) → List (PivotRow K) → Prop) : Prop where
  look : ∀ rows, guarantee rows rows
  restore : ∀ parent related rows, guarantee rows (restored keys parent related rows)
  trash : ∀ now parent related rows, guarantee rows (trashedPair now pivot keys parent related rows)
  insert : ∀ parentPk relatedId, parentPk.isNull = false → relatedId.isNull = false →
    (pivot.insertPivotPair keys parentPk relatedId).run.Guarantees guarantee
  replace : ∀ parentPk wanted, parentPk.isNull = false → (∀ id ∈ wanted, id.isNull = false) →
    (pivot.replacePairs keys parentPk wanted).run.Guarantees guarantee

omit [DecidableEq K] in
theorem guarantees_write {α : Type} (hlook : ∀ rows, guarantee rows rows) {f : List (PivotRow K) → α × List (PivotRow K)}
    (hwrite : ∀ rows, guarantee rows (f rows).2) : (pivot.write f).run.Guarantees guarantee := by
  refine Call.guarantees_attempt fun rows => ?_
  cases pivot.faults.1 rows (f rows).2 with
  | none => exact hwrite rows
  | some e => exact hlook rows

theorem guarantees_insertPivotPair {parentPk relatedId : Json} (hlook : ∀ rows, guarantee rows rows)
    (hinsert : (pivot.pivotInsert keys (pivot.bind keys.foreignKey parentPk)
      (pivot.bind keys.relatedKey relatedId)).run.Guarantees guarantee) :
    (pivot.insertPivotPair keys parentPk relatedId).run.Guarantees guarantee := by
  rw [insertPivotPair]
  refine Call.guarantees_bind hinsert fun written => ?_
  dsimp only
  split_ifs
  · refine Call.guarantees_bind (Call.guarantees_atomically hlook) fun found => ?_
    split_ifs
    · exact Call.guarantees_throw _
    · exact Call.guarantees_pure _
  · exact Call.guarantees_pure _

theorem StatementsMove.attachMissing (h : StatementsMove pivot keys guarantee) {parentPk relatedId : Json}
    (hparent : parentPk.isNull = false) (hrelated : relatedId.isNull = false) :
    (pivot.attachMissing keys parentPk relatedId).run.Guarantees guarantee := by
  have hinsert := h.insert parentPk relatedId hparent hrelated
  rw [Pivot.attachMissing]
  split_ifs
  · refine Call.guarantees_bind (Call.guarantees_atomically h.look) fun found => ?_
    split_ifs
    · exact Call.guarantees_pure _
    · exact hinsert
  · exact hinsert

theorem StatementsMove.attachPair (h : StatementsMove pivot keys guarantee) {parentPk relatedId : Json}
    (hparent : parentPk.isNull = false) (hrelated : relatedId.isNull = false) :
    (pivot.attachPair keys parentPk relatedId).run.Guarantees guarantee := by
  rw [Pivot.attachPair]
  split_ifs
  · refine Call.guarantees_bind (guarantees_write h.look fun rows => h.restore _ _ rows) fun count => ?_
    split_ifs
    · exact Call.guarantees_pure _
    · exact h.attachMissing hparent hrelated
  · exact h.attachMissing hparent hrelated

theorem StatementsMove.call {relation : HasManyThrough} (h : StatementsMove pivot relation.toPivotKeys guarantee) (call : PivotCall) :
    (call.run relation pivot).run.Guarantees guarantee := by
  cases call with
  | attach relatedId =>
    refine Call.guarantees_bind ?_ fun _ => Call.guarantees_pure _
    rcases attach_cases relation pivot relatedId with ⟨e, hattach⟩ | ⟨pk, hpk, hid, -, hattach⟩
    · rw [hattach]
      exact Call.guarantees_throw e
    · rw [hattach]
      exact h.attachPair hpk hid
  | detach now relatedId =>
    refine Call.guarantees_bind ?_ fun _ => Call.guarantees_pure _
    exact Call.guarantees_bind (Call.guarantees_liftExcept _) fun pk => guarantees_write h.look fun rows => h.trash now _ _ rows
  | sync relatedIds =>
    refine Call.guarantees_bind ?_ fun _ => Call.guarantees_pure _
    rcases sync_cases relation pivot relatedIds with ⟨e, hsync⟩ | ⟨pk, wanted, hpk, hwanted, hsync⟩
    · rw [hsync]
      exact Call.guarantees_throw e
    · rw [hsync]
      have hids := wantedKeys_nonNull hwanted
      exact h.replace pk wanted (nonNull_of_linkable hpk) fun id hid => hids id ((wantedKeys_spec pivot hwanted).1 id hid)

theorem StatementsMove.client {dbType : DatabaseType}
    (h : ∀ faults own, own = keys ∨ own = keys.inverse → StatementsMove { pivot with faults := faults } own guarantee)
    (client : PivotClient K dbType keys) : (client.program pivot).Guarantees guarantee := by
  induction client with
  | idle told => trivial
  | calls use serial next ih => exact Program.guarantees_bind ((h use.faults _ use.isOver).call use.call) ih

/-- No pair has two rows, trashed ones included. -/
def OneRow (keys : PivotKeys) (rows : List (PivotRow K)) : Prop :=
  ∀ parent related, rows.countP (PivotRow.isPair keys parent related) ≤ 1

theorem oneRow_inverse {rows : List (PivotRow K)} : OneRow keys.inverse rows ↔ OneRow keys rows := by
  have hpair (parent related : K) : PivotRow.isPair keys.inverse related parent = PivotRow.isPair keys parent related :=
    funext isPair_inverse
  constructor
  · exact fun h parent related => hpair parent related ▸ h related parent
  · exact fun h related parent => (hpair parent related).symm ▸ h parent related

theorem oneRow_sublist {rows rows' : List (PivotRow K)} (hsub : rows'.Sublist rows) (h : OneRow keys rows) : OneRow keys rows' :=
  fun parent related => (hsub.countP_le).trans (h parent related)

theorem oneRow_map {f : PivotRow K → PivotRow K} (hf : ∀ row, (f row).column = row.column) {rows : List (PivotRow K)}
    (h : OneRow keys rows) : OneRow keys (rows.map f) := by
  intro parent related
  have hpair : PivotRow.isPair keys parent related ∘ f = PivotRow.isPair keys parent related := by
    funext row
    rw [Function.comp_apply, PivotRow.isPair, PivotRow.isPair, hf row]
  rw [List.countP_map, hpair]
  exact h parent related

/-- A unique key refuses a second row of a pair, whose values are not NULL. -/
def UniquePair (pivot : Pivot K) (keys : PivotKeys) : Prop :=
  ∀ rows row, row.column keys.foreignKey ≠ pivot.null → row.column keys.relatedKey ≠ pivot.null →
    rows.any (PivotRow.isPair keys (row.column keys.foreignKey) (row.column keys.relatedKey)) = true → pivot.refuses rows row = true

theorem uniquePair_inverse (h : UniquePair pivot keys) : UniquePair pivot keys.inverse := by
  intro rows row hforeign hrelated hfound
  refine h rows row hrelated hforeign ?_
  obtain ⟨other, hother, hpair⟩ := List.any_eq_true.1 hfound
  exact List.any_eq_true.2 ⟨other, hother, (isPair_inverse other).symm.trans hpair⟩

theorem oneRow_insertRow {parent related : K} {rows : List (PivotRow K)}
    (hmissing : UniquePair pivot keys ∧ parent ≠ pivot.null ∧ related ≠ pivot.null ∨
      rows.any (PivotRow.isPair keys parent related) = false) (h : OneRow keys rows) :
    OneRow keys (pivot.insertRow keys parent related rows).2 := by
  rcases insertRow_eq pivot keys parent related rows with heq | ⟨heq, hrefuses⟩
  · rw [heq]
    exact h
  · have hnone : rows.any (PivotRow.isPair keys parent related) = false := by
      refine hmissing.elim ?_ id
      rintro ⟨hunique, hparent, hrelated⟩
      refine eq_false_of_ne_true fun hfound => ?_
      obtain ⟨hforeignKey, hrelatedKey⟩ := column_newRow pivot keys parent related
      have hrefused := hunique rows (pivot.newRow keys parent related)
      rw [hforeignKey, hrelatedKey] at hrefused
      exact Bool.false_ne_true (hrefuses.symm.trans (hrefused hparent hrelated hfound))
    rw [heq]
    intro p r
    rw [List.countP_append, List.countP_singleton]
    split_ifs with hpair
    · obtain ⟨rfl, rfl⟩ := isPair_newRow_iff.1 hpair
      have hzero : rows.countP (PivotRow.isPair keys p r) = 0 :=
        List.countP_eq_zero.2 fun row hrow => List.any_eq_false.1 hnone row hrow
      exact (congrArg (· + 1) hzero).le
    · exact h p r

theorem oneRow_inserts (hkeyed : UniquePair pivot keys ∨ pivot.dbType = .sqlite) (parentPk relatedId : Json)
    (hparent : parentPk.isNull = false) (hrelated : relatedId.isNull = false) :
    (pivot.insertPivotPair keys parentPk relatedId).run.Guarantees fun rows rows' => OneRow keys rows → OneRow keys rows' := by
  have hnull (column : String) {key : Json} (h : key.isNull = false) : pivot.bind column key ≠ pivot.null := by
    rw [Ne, pivot.bind_null, h]
    exact Bool.false_ne_true
  have hunique (hdb : pivot.dbType ≠ .sqlite) (rows : List (PivotRow K)) : OneRow keys rows →
      OneRow keys (pivot.insertRow keys (pivot.bind keys.foreignKey parentPk) (pivot.bind keys.relatedKey relatedId) rows).2 :=
    oneRow_insertRow (Or.inl ⟨hkeyed.resolve_right hdb, hnull _ hparent, hnull _ hrelated⟩)
  refine guarantees_insertPivotPair (fun _ h => h) ?_
  rw [pivotInsert]
  rcases hdb : pivot.dbType with _ | _ | _ | _
  · refine Call.guarantees_bind (Call.guarantees_atomically fun rows h => h) fun found => ?_
    split_ifs
    · exact Call.guarantees_pure _
    · exact guarantees_write (fun _ h => h) (hunique (by rw [hdb]; decide))
  · exact guarantees_write (fun _ h => h) (hunique (by rw [hdb]; decide))
  · exact guarantees_write (fun _ h => h) (hunique (by rw [hdb]; decide))
  · refine guarantees_write (fun _ h => h) fun rows h => ?_
    split_ifs with hfound
    · exact h
    · exact oneRow_insertRow (Or.inr (eq_false_of_ne_true hfound)) h

theorem oneRow_statements (hkeyed : UniquePair pivot keys ∨ pivot.dbType = .sqlite) :
    StatementsMove pivot keys fun rows rows' => OneRow keys rows → OneRow keys rows' where
  look _ h := h
  restore parent related rows h := oneRow_map (fun row => by split_ifs <;> rfl) h
  trash now parent related rows h := by
    rw [trashedPair]
    split_ifs
    · exact oneRow_map (fun row => by split_ifs <;> rfl) h
    · exact oneRow_sublist List.filter_sublist h
  insert := oneRow_inserts hkeyed
  replace parentPk wanted hparent hwanted := by
    refine Call.guarantees_transaction (Call.guarantees_bind (guarantees_write (fun _ h => h) fun rows h => ?_) fun _ => ?_)
    · exact oneRow_sublist List.filter_sublist h
    · exact Call.guarantees_forM fun id hid => oneRow_inserts hkeyed parentPk id hparent (hwanted id hid)

/-- However the calls of any clients interleave, no pair gets a second row: on SQLite, and elsewhere where the two columns
have a unique key. -/
theorem oneRow_schedule (pivot : Pivot K) (keys : PivotKeys) (hkeyed : UniquePair pivot keys ∨ pivot.dbType = .sqlite)
    (clients : ℕ → PivotClient K pivot.dbType keys) (rows : List (PivotRow K)) (hrows : OneRow keys rows) (moves : List ℕ) :
    OneRow keys (Threads.schedule ⟨fun i => (clients i).program pivot, rows⟩ moves).state := by
  have hstatements (faults : Faults K) (own : PivotKeys) (hown : own = keys ∨ own = keys.inverse) :
      StatementsMove { pivot with faults := faults } own fun rows rows' => OneRow keys rows → OneRow keys rows' := by
    rcases hown with rfl | rfl
    · exact oneRow_statements hkeyed
    · have hinverse := @oneRow_statements K _ { pivot with faults := faults } keys.inverse (hkeyed.imp uniquePair_inverse id)
      simpa only [oneRow_inverse] using hinverse
  exact Threads.schedule_invariant (fun i => StatementsMove.client hstatements (clients i)) (fun _ _ hmove => hmove) hrows moves

/-- One client attaches a role to a user, the others the user to the role. -/
def twoAttach (i : ℕ) : PivotClient (Option ℕ) .mySql (roles 1).toPivotKeys :=
  if i = 0 then .calls (.ofCall (roles 1) (Or.inl rfl) (.attach (role 7))) nofun .idle
  else .calls (.ofCall (users 7) (Or.inr rfl) (.attach (role 1))) nofun .idle

theorem oneRow_schedule_two : OneRow (roles 1).toPivotKeys (Threads.schedule
    ⟨fun i => (twoAttach i).program (userRoles .mySql false true), []⟩ [0, 1, 0, 1, 0, 1]).state := by
  refine oneRow_schedule (userRoles .mySql false true) (roles 1).toPivotKeys (Or.inl ?_) twoAttach [] (fun _ _ => Nat.zero_le 1)
    [0, 1, 0, 1, 0, 1]
  intro rows row _ _ hfound
  obtain ⟨other, hother, hpair⟩ := List.any_eq_true.1 hfound
  exact List.any_eq_true.2 ⟨other, hother, decide_eq_true (isPair_iff.1 hpair)⟩

-- without the key both look before either writes
example : ((Threads.schedule ⟨fun i => (twoAttach i).program (userRoles .mySql false false), []⟩ [0, 1, 0, 1, 0, 1]).state.map
    fun row => (row.column "user_id", row.column "role_id")) = [(some 1, some 7), (some 1, some 7)] := rfl

/-- The pair has no row. -/
def NoRow (keys : PivotKeys) (parent related : K) (rows : List (PivotRow K)) : Prop :=
  ∀ row ∈ rows, row.isPair keys parent related = false

/-- A pair without a row gets one by being linked: none appears in the trash. -/
def Appears (pivot : Pivot K) (keys : PivotKeys) (parent related : K) (rows rows' : List (PivotRow K)) : Prop :=
  NoRow keys parent related rows → NoRow keys parent related rows' ∨ Linked pivot keys rows' parent related

variable {p r : K}

theorem appears_inverse : Appears pivot keys.inverse r p = Appears pivot keys p r := by
  funext rows rows'
  simp only [Appears, NoRow, isPair_inverse, linked_inverse]

theorem noRow_map {f : PivotRow K → PivotRow K} (hf : ∀ row, (f row).isPair keys p r = row.isPair keys p r)
    {rows : List (PivotRow K)} (h : NoRow keys p r rows) : NoRow keys p r (rows.map f) := by
  intro _ hmem
  obtain ⟨row, hrow, rfl⟩ := List.mem_map.1 hmem
  exact (hf row).trans (h row hrow)

theorem noRow_sublist {rows rows' : List (PivotRow K)} (hsub : rows'.Sublist rows) (h : NoRow keys p r rows) : NoRow keys p r rows' :=
  fun row hrow => h row (hsub.mem hrow)

theorem noRow_insertRow (parent related : K) {rows : List (PivotRow K)} (h : NoRow keys p r rows) :
    NoRow keys p r (pivot.insertRow keys parent related rows).2 ∨
      Linked pivot keys (pivot.insertRow keys parent related rows).2 p r := by
  rcases insertRow_eq pivot keys parent related rows with heq | ⟨heq, -⟩
  · rw [heq]
    exact Or.inl h
  · rw [heq]
    by_cases hpair : p = parent ∧ r = related
    · exact Or.inr (linked_append_newRow.2 (Or.inr hpair))
    · refine Or.inl fun row hrow => ?_
      rcases List.mem_append.1 hrow with hrow | hrow
      · exact h row hrow
      · rw [List.mem_singleton.1 hrow, Bool.eq_false_iff, Ne, isPair_newRow_iff]
        exact hpair

theorem linked_insertRow (parent related : K) {rows : List (PivotRow K)} (h : Linked pivot keys rows p r) :
    Linked pivot keys (pivot.insertRow keys parent related rows).2 p r := by
  rcases insertRow_eq pivot keys parent related rows with heq | ⟨heq, -⟩
  · rw [heq]
    exact h
  · rw [heq]
    exact linked_append_newRow.2 (Or.inl h)

/-- What every way to insert allows, when looking and writing the row are allowed. -/
theorem guarantees_pivotInsert (hlook : ∀ rows, guarantee rows rows) {parent related : K}
    (hwrite : ∀ rows, guarantee rows (pivot.insertRow keys parent related rows).2) :
    (pivot.pivotInsert keys parent related).run.Guarantees guarantee := by
  rw [pivotInsert]
  rcases hdb : pivot.dbType with _ | _ | _ | _
  · refine Call.guarantees_bind (Call.guarantees_atomically hlook) fun found => ?_
    split_ifs
    · exact Call.guarantees_pure _
    · exact guarantees_write hlook hwrite
  · exact guarantees_write hlook hwrite
  · exact guarantees_write hlook hwrite
  · refine guarantees_write hlook fun rows => ?_
    split_ifs
    · exact hlook rows
    · exact hwrite rows

theorem appears_statements (pivot : Pivot K) (keys : PivotKeys) (p r : K) : StatementsMove pivot keys (Appears pivot keys p r) where
  look _ h := Or.inl h
  restore parent related rows h := Or.inl (noRow_map (fun row => isPair_restored row p r) h)
  trash now parent related rows h := by
    rw [trashedPair]
    split_ifs
    · exact Or.inl (noRow_map (fun row => by split_ifs <;> rfl) h)
    · exact Or.inl (noRow_sublist List.filter_sublist h)
  insert _ _ _ _ := guarantees_insertPivotPair (fun _ h => Or.inl h)
    (guarantees_pivotInsert (fun _ h => Or.inl h) fun rows h => noRow_insertRow _ _ h)
  replace parentPk wanted _ _ := by
    have hinsert (id : Json) : (pivot.insertPivotPair keys parentPk id).run.Guarantees fun rows rows' =>
        NoRow keys p r rows ∨ Linked pivot keys rows p r → NoRow keys p r rows' ∨ Linked pivot keys rows' p r :=
      guarantees_insertPivotPair (fun _ h => h) (guarantees_pivotInsert (fun _ h => h) fun rows h =>
        h.elim (noRow_insertRow _ _) fun hlinked => Or.inr (linked_insertRow _ _ hlinked))
    have hdelete (rows : List (PivotRow K)) (h : NoRow keys p r rows ∨ Linked pivot keys rows p r) :
        NoRow keys p r (rows.filter fun row => !decide (row.column keys.foreignKey = pivot.bind keys.foreignKey parentPk)) ∨
          Linked pivot keys (rows.filter fun row => !decide (row.column keys.foreignKey = pivot.bind keys.foreignKey parentPk)) p r := by
      rcases h with h | h
      · exact Or.inl (noRow_sublist List.filter_sublist h)
      · by_cases hparent : p = pivot.bind keys.foreignKey parentPk
        · refine Or.inl fun row hrow => ?_
          have hother := (List.mem_filter.1 hrow).2
          rw [Bool.not_eq_true', decide_eq_false_iff_not] at hother
          rw [Bool.eq_false_iff, Ne, isPair_iff]
          exact fun hpair => hother (hpair.1.trans hparent)
        · exact Or.inr (linked_deleteOwner.2 ⟨h, hparent⟩)
    have hbody : (pivot.replacePairs keys parentPk wanted).run.Guarantees fun rows rows' =>
        NoRow keys p r rows ∨ Linked pivot keys rows p r → NoRow keys p r rows' ∨ Linked pivot keys rows' p r := by
      rw [replacePairs]
      refine Call.guarantees_transaction (Call.guarantees_bind (guarantees_write (fun _ h => h) hdelete) fun _ => ?_)
      exact Call.guarantees_forM fun id _ => hinsert id
    exact hbody.mono fun rows rows' hmove h => hmove (Or.inl h)

variable (pivot keys p r) in
/-- What others do keeps a pair without a row so, until it is linked. -/
theorem stable_noRow : Program.Stable (Appears pivot keys p r) (fun rows => Linked pivot keys rows p r) (NoRow keys p r) :=
  fun _ _ h _ hmove => (hmove h).symm

/-- Failed. -/
def Refused {α : Type} (result : Except Error α) : Prop := ∃ e, result = .error e

open Program

variable {env : List (PivotRow K) → List (PivotRow K) → Prop} {event : List (PivotRow K) → Prop} {parentPk relatedId : Json}

omit [DecidableEq K] in
/-- A statement that writes may be refused, which fails the call. -/
theorem meets_write {α β : Type} {f : List (PivotRow K) → α × List (PivotRow K)} {g : α → Statement (K := K) β}
    {P : List (PivotRow K) → Prop} (hstable : Stable env event P)
    (h : ∀ rows, P rows → ¬event rows → event (f rows).2 ∨ ∃ P', P' (f rows).2 ∧ Meets env event Refused P' (g (f rows).1).run) :
    Meets env event Refused P (pivot.write f >>= g).run := by
  refine Call.meets_attempt hstable fun rows hP hevent => ?_
  cases pivot.faults.1 rows (f rows).2 with
  | none => exact h rows hP hevent
  | some e => exact Or.inr ⟨P, hP, hstable, fun _ _ _ => ⟨e, rfl⟩⟩

/-- An insert that is confirmed fails unless its pair is linked. -/
theorem meets_confirm (pivot : Pivot K) (keys : PivotKeys) (parentPk relatedId : Json) {written : ℕ}
    (hunconfirmed : (written == 0 || pivot.isMysqlFamily) = true) :
    Meets env (fun rows => Linked pivot keys rows (pivot.bind keys.foreignKey parentPk) (pivot.bind keys.relatedKey relatedId))
      Refused (fun _ => True)
      (if (written == 0 || pivot.isMysqlFamily) = true then do
        if !(← pivot.pairExists keys false (pivot.bind keys.foreignKey parentPk) (pivot.bind keys.relatedKey relatedId)) then
          throw (pivot.refusal parentPk relatedId)
      else pure () : Statement (K := K) Unit).run := by
  rw [if_pos hunconfirmed]
  refine Call.meets_atomically stable_true fun rows _ hunlinked => Or.inr ⟨fun _ => True, trivial, ?_⟩
  rw [← any_linked, Bool.not_eq_true] at hunlinked
  dsimp only
  rw [hunlinked]
  exact Call.meets_throw stable_true ⟨_, rfl⟩

/-- An insert whose row is not refused links its pair. -/
theorem insertRow_links (pivot : Pivot K) (keys : PivotKeys) (parent related : K) (rows : List (PivotRow K)) :
    pivot.insertRow keys parent related rows = (0, rows) ∨
      Linked pivot keys (pivot.insertRow keys parent related rows).2 parent related := by
  rcases insertRow_eq pivot keys parent related rows with heq | ⟨heq, -⟩
  · exact Or.inl heq
  · rw [heq]
    exact Or.inr (linked_append_newRow.2 (Or.inr ⟨rfl, rfl⟩))

theorem meets_insertPivotPair (env : List (PivotRow K) → List (PivotRow K) → Prop) (pivot : Pivot K) (keys : PivotKeys)
    (parentPk relatedId : Json) :
    Meets env (fun rows => Linked pivot keys rows (pivot.bind keys.foreignKey parentPk) (pivot.bind keys.relatedKey relatedId))
      Refused (fun _ => True) (pivot.insertPivotPair keys parentPk relatedId).run := by
  have hwrite := insertRow_links pivot keys (pivot.bind keys.foreignKey parentPk) (pivot.bind keys.relatedKey relatedId)
  have hunwritten : ((0 : ℕ) == 0 || pivot.isMysqlFamily) = true := rfl
  rw [insertPivotPair, pivotInsert]
  rcases hdb : pivot.dbType with _ | _ | _ | _
  · dsimp only
    rw [Call.atomically_bind_assoc]
    refine Call.meets_atomically stable_true fun rows _ hunlinked => Or.inr ⟨fun _ => True, trivial, ?_⟩
    dsimp only
    split_ifs
    · exact meets_confirm pivot keys parentPk relatedId hunwritten
    · refine meets_write stable_true fun rows _ hunlinked => ?_
      rcases hwrite rows with heq | hlinked
      · rw [heq]
        exact Or.inr ⟨fun _ => True, trivial, meets_confirm pivot keys parentPk relatedId hunwritten⟩
      · exact Or.inl hlinked
  · have hmysql : ((1 : ℕ) == 0 || pivot.isMysqlFamily) = true := by rw [isMysqlFamily, hdb]; rfl
    refine meets_write stable_true fun rows _ _ => (hwrite rows).symm.imp id fun _ => ?_
    exact ⟨fun _ => True, trivial, meets_confirm pivot keys parentPk relatedId hmysql⟩
  · have hmysql : ((1 : ℕ) == 0 || pivot.isMysqlFamily) = true := by rw [isMysqlFamily, hdb]; rfl
    refine meets_write stable_true fun rows _ _ => (hwrite rows).symm.imp id fun _ => ?_
    exact ⟨fun _ => True, trivial, meets_confirm pivot keys parentPk relatedId hmysql⟩
  · refine meets_write stable_true fun rows _ _ => ?_
    dsimp only
    by_cases hfound : rows.any (PivotRow.isPair keys (pivot.bind keys.foreignKey parentPk) (pivot.bind keys.relatedKey relatedId)) = true
    · rw [if_pos hfound]
      exact Or.inr ⟨fun _ => True, trivial, meets_confirm pivot keys parentPk relatedId hunwritten⟩
    · rw [if_neg hfound]
      rcases hwrite rows with heq | hlinked
      · rw [heq]
        exact Or.inr ⟨fun _ => True, trivial, meets_confirm pivot keys parentPk relatedId hunwritten⟩
      · exact Or.inl hlinked

/-- MySQL's look finds no row of a pair that has none, and without soft delete a row it finds links the pair. -/
theorem meets_attachMissing (pivot : Pivot K) (keys : PivotKeys) (parentPk relatedId : Json) {P : List (PivotRow K) → Prop}
    (hstable : Stable env
      (fun rows => Linked pivot keys rows (pivot.bind keys.foreignKey parentPk) (pivot.bind keys.relatedKey relatedId)) P)
    (hrows : ∀ rows, P rows → pivot.softDelete = true →
      NoRow keys (pivot.bind keys.foreignKey parentPk) (pivot.bind keys.relatedKey relatedId) rows) :
    Meets env (fun rows => Linked pivot keys rows (pivot.bind keys.foreignKey parentPk) (pivot.bind keys.relatedKey relatedId))
      Refused P (pivot.attachMissing keys parentPk relatedId).run := by
  have hinsert := meets_insertPivotPair env pivot keys parentPk relatedId
  rw [attachMissing]
  split_ifs
  · refine Call.meets_atomically hstable fun rows hP hunlinked => Or.inr ⟨fun _ => True, trivial, ?_⟩
    have hnone : (rows.any fun row => row.isPair keys (pivot.bind keys.foreignKey parentPk) (pivot.bind keys.relatedKey relatedId) &&
        (true || pivot.isLive row)) = false := by
      refine List.any_eq_false.2 fun row hrow hfound => ?_
      rw [Bool.true_or, Bool.and_true] at hfound
      rcases hsoft : pivot.softDelete with _ | _
      · exact hunlinked ⟨row, hrow, hfound, by rw [isLive, hsoft]; rfl⟩
      · exact Bool.false_ne_true ((hrows rows hP hsoft row hrow).symm.trans hfound)
    dsimp only
    rw [hnone]
    exact hinsert
  · exact hinsert.imp hstable fun _ _ => trivial

/-- An attach that succeeds passes a moment when its pair is linked. -/
theorem meets_attachPair (pivot : Pivot K) (keys : PivotKeys) (parentPk relatedId : Json) :
    Meets (Appears pivot keys (pivot.bind keys.foreignKey parentPk) (pivot.bind keys.relatedKey relatedId))
      (fun rows => Linked pivot keys rows (pivot.bind keys.foreignKey parentPk) (pivot.bind keys.relatedKey relatedId))
      Refused (fun _ => True) (pivot.attachPair keys parentPk relatedId).run := by
  rw [attachPair]
  split_ifs with hsoft
  · refine meets_write stable_true fun rows _ hunlinked => ?_
    dsimp only
    by_cases hcount : 0 < rows.countP fun row =>
        row.isPair keys (pivot.bind keys.foreignKey parentPk) (pivot.bind keys.relatedKey relatedId) && row.isTrashed
    · obtain ⟨row, hrow, htrashed⟩ := List.countP_pos_iff.1 hcount
      rw [Bool.and_eq_true] at htrashed
      exact Or.inl ((linked_restored ⟨row, hrow, htrashed⟩).2 (Or.inr ⟨rfl, rfl⟩))
    · have hnone : NoRow keys (pivot.bind keys.foreignKey parentPk) (pivot.bind keys.relatedKey relatedId) rows := by
        refine fun row hrow => eq_false_of_ne_true fun hpair => ?_
        rcases htrashed : row.isTrashed with _ | _
        · exact hunlinked ⟨row, hrow, hpair, by rw [isLive, htrashed, Bool.and_false]; rfl⟩
        · exact hcount (List.countP_pos_iff.2 ⟨row, hrow, by rw [hpair, htrashed]; rfl⟩)
      rw [if_neg hcount]
      refine Or.inr ⟨NoRow keys (pivot.bind keys.foreignKey parentPk) (pivot.bind keys.relatedKey relatedId), ?_, ?_⟩
      · exact noRow_map (fun row => isPair_restored row _ _) hnone
      · exact meets_attachMissing pivot keys parentPk relatedId (stable_noRow pivot keys _ _) fun _ h _ => h
  · exact meets_attachMissing pivot keys parentPk relatedId stable_true fun _ _ h => absurd h hsoft

/-- The clients after some of their steps, when the next call of client `i` is to attach. -/
def attaching (relation : HasManyThrough) (pivot : Pivot K) (relatedId : Json)
    (clients : ℕ → PivotClient K pivot.dbType relation.toPivotKeys) (rows : List (PivotRow K)) (before : List ℕ) (i : ℕ) :
    Threads (List (PivotRow K)) (Except Error (Option ℕ)) :=
  (Threads.schedule ⟨fun j => (clients j).program pivot, rows⟩ before).start i ((PivotCall.attach relatedId).run relation pivot).run

/-- An attach that reports success had its pair linked at some moment of the call, whatever calls of others it overlaps with,
those already under way when it starts included. -/
theorem linked_during_attach (relation : HasManyThrough) (pivot : Pivot K) (relatedId : Json)
    (clients : ℕ → PivotClient K pivot.dbType relation.toPivotKeys) (rows : List (PivotRow K)) (before moves : List ℕ) (i : ℕ)
    (told : Option ℕ)
    (hdone : ((attaching relation pivot relatedId clients rows before i).schedule moves).programs i = .done (.ok told)) :
    ∃ front, front <+: moves ∧ Linked pivot relation.toPivotKeys
      ((attaching relation pivot relatedId clients rows before i).schedule front).state
      (relation.owner pivot) (pivot.bind relation.relatedKey relatedId) := by
  have hstatements (faults : Faults K) (own : PivotKeys) (hown : own = relation.toPivotKeys ∨ own = relation.toPivotKeys.inverse) :
      StatementsMove { pivot with faults := faults } own
        (Appears pivot relation.toPivotKeys (relation.owner pivot) (pivot.bind relation.relatedKey relatedId)) := by
    rcases hown with rfl | rfl
    · exact appears_statements ..
    · rw [← appears_inverse]
      exact appears_statements ..
  have hothers (j : ℕ) (hj : j ≠ i) : ((attaching relation pivot relatedId clients rows before i).programs j).Guarantees
      (Appears pivot relation.toPivotKeys (relation.owner pivot) (pivot.bind relation.relatedKey relatedId)) := by
    rw [attaching, Threads.start_of_ne _ hj]
    exact Threads.schedule_guarantees (fun k => StatementsMove.client hstatements (clients k)) before j
  have hmeets : Meets (Appears pivot relation.toPivotKeys (relation.owner pivot) (pivot.bind relation.relatedKey relatedId))
      (fun rows => Linked pivot relation.toPivotKeys rows (relation.owner pivot) (pivot.bind relation.relatedKey relatedId))
      Refused (fun _ => True) ((attaching relation pivot relatedId clients rows before i).programs i) := by
    rw [attaching, Threads.start_self, PivotCall.run]
    rcases attach_cases relation pivot relatedId with ⟨e, h⟩ | ⟨pk, -, -, hpk, h⟩
    · rw [h]
      exact Call.meets_throw stable_true ⟨e, rfl⟩
    · rw [h, ← hpk]
      refine Call.meets_map (meets_attachPair pivot relation.toPivotKeys pk relatedId) ?_
      rintro _ ⟨e, rfl⟩
      exact ⟨e, rfl⟩
  refine Threads.event_of_meets hothers hmeets trivial moves hdone ?_
  rintro ⟨e, h⟩
  cases h

/-- A client that attaches a role to a user and takes the user from the role. -/
def attachDetach (_ : ℕ) : PivotClient (Option ℕ) .postgres (roles 1).toPivotKeys :=
  .calls (.ofCall (roles 1) (Or.inl rfl) (.attach (role 7))) nofun fun _ =>
    .calls (.ofCall (users 7) (Or.inr rfl) (.detach 50 (role 1))) nofun .idle

/-- Nothing is linked in the end, where the other client's attach found the pair linked and its detach came last. -/
theorem linked_during_attach_detached : ∃ front, front <+: [0, 0, 1, 1, 1] ∧
    Linked (userRoles .postgres false true) (roles 1).toPivotKeys
      ((attaching (roles 1) (userRoles .postgres false true) (role 7) attachDetach [] [1] 0).schedule front).state
      ((roles 1).owner (userRoles .postgres false true)) (some 7) :=
  linked_during_attach (roles 1) (userRoles .postgres false true) (role 7) attachDetach [] [1] [0, 0, 1, 1, 1] 0 none rfl

end Guarantees

end TideOrm
