import Mathlib.Data.List.Basic

/-! Three truth values: what is neither true nor false is unknown. -/

namespace Lib

/-- None is unknown. -/
abbrev Kleene := Option Bool

namespace Kleene

def or : Kleene → Kleene → Kleene
  | some true, _ | _, some true => some true
  | some false, some false => some false
  | _, _ => none

def and : Kleene → Kleene → Kleene
  | some false, _ | _, some false => some false
  | some true, some true => some true
  | _, _ => none

def not (a : Kleene) : Kleene := a.map Bool.not

def any (truths : List Kleene) : Kleene := truths.foldr or (some false)

def all (truths : List Kleene) : Kleene := truths.foldr and (some true)

theorem or_true_iff (a b : Kleene) : or a b = some true ↔ a = some true ∨ b = some true := by
  rcases a with _ | _ | _ <;> rcases b with _ | _ | _ <;> decide

theorem or_false_iff (a b : Kleene) : or a b = some false ↔ a = some false ∧ b = some false := by
  rcases a with _ | _ | _ <;> rcases b with _ | _ | _ <;> decide

theorem and_true_iff (a b : Kleene) : and a b = some true ↔ a = some true ∧ b = some true := by
  rcases a with _ | _ | _ <;> rcases b with _ | _ | _ <;> decide

theorem not_true_iff (a : Kleene) : not a = some true ↔ a = some false := by
  rcases a with _ | _ | _ <;> decide

theorem not_or (a b : Kleene) : not (or a b) = and (not a) (not b) := by
  rcases a with _ | _ | _ <;> rcases b with _ | _ | _ <;> rfl

theorem any_cons (a : Kleene) (truths : List Kleene) : any (a :: truths) = or a (any truths) := rfl

theorem all_cons (a : Kleene) (truths : List Kleene) : all (a :: truths) = and a (all truths) := rfl

theorem any_true_iff (truths : List Kleene) : any truths = some true ↔ some true ∈ truths := by
  induction truths with
  | nil => decide
  | cons a truths ih => rw [any_cons, or_true_iff, ih, List.mem_cons, eq_comm]

theorem any_false_iff (truths : List Kleene) : any truths = some false ↔ ∀ a ∈ truths, a = some false := by
  induction truths with
  | nil => exact iff_of_true rfl fun _ h => by cases h
  | cons a truths ih => rw [any_cons, or_false_iff, ih, List.forall_mem_cons]

theorem all_true_iff (truths : List Kleene) : all truths = some true ↔ ∀ a ∈ truths, a = some true := by
  induction truths with
  | nil => exact iff_of_true rfl fun _ h => by cases h
  | cons a truths ih => rw [all_cons, and_true_iff, ih, List.forall_mem_cons]

/-- Of answers the conjunction answers. -/
theorem all_isSome {truths : List Kleene} (h : ∀ a ∈ truths, a.isSome) : (all truths).isSome := by
  induction truths with
  | nil => rfl
  | cons a truths ih =>
    rw [List.forall_mem_cons] at h
    obtain ⟨value, rfl⟩ := Option.isSome_iff_exists.1 h.1
    obtain ⟨rest, hrest⟩ := Option.isSome_iff_exists.1 (ih h.2)
    rw [all_cons, hrest]
    cases value <;> cases rest <;> rfl

/-- Of unknowns the conjunction is unknown, and so is the disjunction. -/
theorem all_none {a : Kleene} {truths : List Kleene} (h : ∀ b ∈ a :: truths, b = none) : all (a :: truths) = none := by
  induction truths generalizing a with
  | nil => rw [h a List.mem_cons_self]; rfl
  | cons b truths ih =>
    rw [List.forall_mem_cons] at h
    rw [all_cons, h.1, ih h.2]
    rfl

theorem any_none {a : Kleene} {truths : List Kleene} (h : ∀ b ∈ a :: truths, b = none) : any (a :: truths) = none := by
  induction truths generalizing a with
  | nil => rw [h a List.mem_cons_self]; rfl
  | cons b truths ih =>
    rw [List.forall_mem_cons] at h
    rw [any_cons, h.1, ih h.2]
    rfl

theorem all_map_not (truths : List Kleene) : all (truths.map not) = not (any truths) := by
  induction truths with
  | nil => rfl
  | cons a truths ih => rw [List.map_cons, all_cons, ih, any_cons, not_or]

theorem and_comm (a b : Kleene) : and a b = and b a := by
  rcases a with _ | _ | _ <;> rcases b with _ | _ | _ <;> rfl

theorem and_assoc (a b c : Kleene) : and (and a b) c = and a (and b c) := by
  rcases a with _ | _ | _ <;> rcases b with _ | _ | _ <;> rcases c with _ | _ | _ <;> rfl

theorem and_true (a : Kleene) : and a (some true) = a := by
  rcases a with _ | _ | _ <;> rfl

theorem or_comm (a b : Kleene) : or a b = or b a := by
  rcases a with _ | _ | _ <;> rcases b with _ | _ | _ <;> rfl

theorem or_assoc (a b c : Kleene) : or (or a b) c = or a (or b c) := by
  rcases a with _ | _ | _ <;> rcases b with _ | _ | _ <;> rcases c with _ | _ | _ <;> rfl

theorem or_false (a : Kleene) : or a (some false) = a := by
  rcases a with _ | _ | _ <;> rfl

end Kleene

end Lib
