import Mathlib.Data.List.Basic

/-! Marks that open and close: how many are open after a run of them. -/

namespace Lib

variable {α : Type*} (opens closes : α → Bool)

/-- How many marks are open after the run, from `depth` open ones; none when a closing mark meets
none open. -/
def nesting : ℕ → List α → Option ℕ
  | depth, [] => some depth
  | depth, a :: rest =>
    if opens a then nesting (depth + 1) rest
    else if closes a then if depth = 0 then none else nesting (depth - 1) rest
    else nesting depth rest

variable {opens closes}

theorem nesting_append (a b : List α) (depth : ℕ) :
    nesting opens closes depth (a ++ b) = (nesting opens closes depth a).bind fun depth => nesting opens closes depth b := by
  induction a generalizing depth with
  | nil => rfl
  | cons mark a ih =>
    simp only [List.cons_append, nesting]
    split_ifs
    · exact ih _
    · rfl
    · exact ih _
    · exact ih _

/-- Marks open beforehand stay open. -/
theorem nesting_shift {run : List α} {depth after : ℕ} (h : nesting opens closes depth run = some after) (more : ℕ) :
    nesting opens closes (depth + more) run = some (after + more) := by
  induction run generalizing depth with
  | nil =>
    obtain rfl := Option.some.inj h
    rfl
  | cons mark run ih =>
    simp only [nesting] at h ⊢
    split_ifs at h ⊢ with hopen hclose hmore hzero
    · have hrun := ih h
      rwa [Nat.add_right_comm] at hrun
    · omega
    · have hdepth : depth + more - 1 = depth - 1 + more := by omega
      rw [hdepth]
      exact ih h
    · exact ih h

/-- A run that closes what it opens leaves the depth as it is. -/
theorem nesting_balanced {run : List α} (h : nesting opens closes 0 run = some 0) (depth : ℕ) :
    nesting opens closes depth run = some depth := by
  simpa using nesting_shift h depth

theorem nesting_plain {run : List α} (h : ∀ mark ∈ run, opens mark = false ∧ closes mark = false) (depth : ℕ) :
    nesting opens closes depth run = some depth := by
  induction run with
  | nil => rfl
  | cons mark run ih =>
    obtain ⟨hopen, hclose⟩ := h mark (List.mem_cons_self ..)
    simp only [nesting, hopen, hclose, Bool.false_eq_true, if_false]
    exact ih fun mark hmark => h mark (List.mem_cons_of_mem _ hmark)

end Lib
