import Mathlib.Data.List.Basic

/-! Tests that are read from the left up to their answer, and may fail. -/

namespace Lib

def both (a b : Option Bool) : Option Bool := a.bind fun holds => if holds then b else some false

def either (a b : Option Bool) : Option Bool := a.bind fun holds => if holds then some true else b

/-- Whether a row passes the test. -/
def someRow {A : Type} (test : A → Option Bool) (rows : List A) : Option Bool :=
  rows.foldr (fun row found => either (test row) found) (some false)

/-- Whether every row passes the test. -/
def everyRow {A : Type} (test : A → Option Bool) (rows : List A) : Option Bool :=
  rows.foldr (fun row rest => both (test row) rest) (some true)

theorem someRow_map {A B : Type} (f : A → B) (test : B → Option Bool) (rows : List A) :
    someRow test (rows.map f) = someRow (fun row => test (f row)) rows := List.foldr_map

theorem everyRow_map {A B : Type} (f : A → B) (test : B → Option Bool) (rows : List A) :
    everyRow test (rows.map f) = everyRow (fun row => test (f row)) rows := List.foldr_map

/-- The test answers, and truly. -/
def Decides (test : Option Bool) (P : Prop) : Prop := ∃ answer, test = some answer ∧ (answer = true ↔ P)

namespace Decides

variable {a b : Option Bool} {P Q : Prop}

theorem congr (h : Decides a P) (hiff : P ↔ Q) : Decides a Q := propext hiff ▸ h

theorem of_iff {answer : Bool} (h : answer = true ↔ P) : Decides (some answer) P := ⟨answer, rfl, h⟩

theorem of_true (h : P) : Decides (some true) P := of_iff (iff_of_true rfl h)

theorem of_false (h : ¬P) : Decides (some false) P := of_iff (iff_of_false Bool.false_ne_true h)

theorem both (ha : Decides a P) (hb : P → Decides b Q) : Decides (both a b) (P ∧ Q) := by
  obtain ⟨answer, rfl, hanswer⟩ := ha
  cases answer with
  | false => exact of_false fun h => Bool.false_ne_true (hanswer.2 h.1)
  | true =>
    have hP := hanswer.1 rfl
    exact (hb hP).congr (and_iff_right hP).symm

theorem either (ha : Decides a P) (hb : ¬P → Decides b Q) : Decides (either a b) (P ∨ Q) := by
  obtain ⟨answer, rfl, hanswer⟩ := ha
  cases answer with
  | false =>
    have hP : ¬P := fun h => Bool.false_ne_true (hanswer.2 h)
    exact (hb hP).congr (or_iff_right hP).symm
  | true => exact of_true (.inl (hanswer.1 rfl))

theorem not (ha : Decides a P) : Decides (a.map Bool.not) (¬P) := by
  obtain ⟨answer, rfl, hanswer⟩ := ha
  refine of_iff ?_
  rw [Bool.not_eq_true', ← hanswer, Bool.not_eq_true]

theorem someRow {A : Type} {test : A → Option Bool} {R : A → Prop} {rows : List A}
    (h : ∀ row ∈ rows, Decides (test row) (R row)) : Decides (someRow test rows) (∃ row ∈ rows, R row) := by
  induction rows with
  | nil => exact of_false fun ⟨_, hmem, _⟩ => by cases hmem
  | cons row rows ih =>
    rw [List.forall_mem_cons] at h
    refine (h.1.either fun _ => ih h.2).congr ?_
    rw [List.exists_mem_cons_iff]

theorem everyRow {A : Type} {test : A → Option Bool} {R : A → Prop} {rows : List A}
    (h : ∀ row ∈ rows, Decides (test row) (R row)) : Decides (everyRow test rows) (∀ row ∈ rows, R row) := by
  induction rows with
  | nil => exact of_true fun _ hmem => by cases hmem
  | cons row rows ih =>
    rw [List.forall_mem_cons] at h
    refine (h.1.both fun _ => ih h.2).congr ?_
    rw [List.forall_mem_cons]

end Decides

end Lib
