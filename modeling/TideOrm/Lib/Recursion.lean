import Mathlib.Data.List.Forall2
import Mathlib.Data.List.Nodup
import Mathlib.Tactic.SplitIfs

/-! Recursive queries: the rows of repeated steps, the rows that pass a test, and the rows
collected under their keys. -/

namespace Lib

variable {A B K : Type}

/-- The rows and those of repeated steps, each step made from the rows of the last. -/
def repeated (step : List A → Option (List A)) : ℕ → List A → Option (List A)
  | _, [] => some []
  | 0, _ :: _ => none
  | fuel + 1, row :: rows => do
    let next ← step (row :: rows)
    let later ← repeated step fuel next
    return row :: rows ++ later

/-- What is shown of the rows that pass the test, none where either fails. -/
def selected (test : A → Option Bool) (shown : A → Option B) : List A → Option (List B)
  | [] => some []
  | row :: rows => do
    let passes ← test row
    let first ← if passes then (shown row).map fun b => [b] else some []
    let rest ← selected test shown rows
    return first ++ rest

/-- The first row of each key, where those of the seen rows are passed over. -/
def firsts (same : A → A → Bool) : List A → List A → List A
  | _, [] => []
  | seen, row :: rows =>
    if seen.any fun other => same other row then firsts same seen rows else row :: firsts same (row :: seen) rows

/-- The rows in groups, each with its first row. -/
def groups (same : A → A → Bool) (rows : List A) : List (A × List A) :=
  (firsts same [] rows).map fun row => (row, rows.filter (same row))

section Repeated

variable {step : List A → Option (List A)} {Level : ℕ → A → Prop} {last : ℕ}

theorem no_level_after (hprev : ∀ n a, Level (n + 1) a → ∃ b, Level n b) {n : ℕ} (hnone : ∀ a, ¬ Level n a) :
    ∀ k ≥ n, ∀ a, ¬ Level k a := by
  intro k hk
  induction hk with
  | refl => exact hnone
  | step _ ih =>
    intro a ha
    obtain ⟨b, hb⟩ := hprev _ a ha
    exact ih b hb

/-- Where a step makes each level of the one before it and the levels end, so do the steps, with
the rows of all levels. -/
theorem repeated_levels
    (hstep : ∀ n rows, (∀ a, a ∈ rows ↔ Level n a) → ∃ next, step rows = some next ∧ ∀ a, a ∈ next ↔ Level (n + 1) a)
    (hprev : ∀ n a, Level (n + 1) a → ∃ b, Level n b) (hlast : ∀ n a, Level n a → n ≤ last) (fuel : ℕ) :
    ∀ n rows, last < n + fuel → (∀ a, a ∈ rows ↔ Level n a) →
      ∃ out, repeated step fuel rows = some out ∧ ∀ a, a ∈ out ↔ ∃ k ≥ n, Level k a := by
  induction fuel with
  | zero =>
    intro n rows hn hrows
    cases rows with
    | nil =>
      refine ⟨[], by rw [repeated], fun a => ?_⟩
      have hnone : ∀ b, ¬ Level n b := fun b hb => List.not_mem_nil ((hrows b).2 hb)
      exact iff_of_false List.not_mem_nil fun ⟨k, hk, ha⟩ => no_level_after hprev hnone k hk a ha
    | cons row rows =>
      have hle := hlast n row ((hrows row).1 List.mem_cons_self)
      omega
  | succ fuel ih =>
    intro n rows hn hrows
    cases rows with
    | nil =>
      refine ⟨[], by rw [repeated], fun a => ?_⟩
      have hnone : ∀ b, ¬ Level n b := fun b hb => List.not_mem_nil ((hrows b).2 hb)
      exact iff_of_false List.not_mem_nil fun ⟨k, hk, ha⟩ => no_level_after hprev hnone k hk a ha
    | cons row rows =>
      obtain ⟨next, hnext, hmem⟩ := hstep n _ hrows
      obtain ⟨later, hlater, hall⟩ := ih (n + 1) next (by omega) hmem
      refine ⟨row :: rows ++ later, by simp [repeated, hnext, hlater], fun a => ?_⟩
      rw [List.mem_append, hrows, hall]
      constructor
      · rintro (ha | ⟨k, hk, ha⟩)
        · exact ⟨n, Nat.le_refl n, ha⟩
        · exact ⟨k, by omega, ha⟩
      · rintro ⟨k, hk, ha⟩
        rcases Nat.eq_or_lt_of_le hk with rfl | hlt
        · exact Or.inl ha
        · exact Or.inr ⟨k, hlt, ha⟩

end Repeated

section Selected

variable {test : A → Option Bool} {shown : A → Option B} {p : A → Bool} {f : A → B}

theorem selected_eq {rows : List A} (htest : ∀ a ∈ rows, test a = some (p a))
    (hshown : ∀ a ∈ rows, p a = true → shown a = some (f a)) :
    selected test shown rows = some ((rows.filter p).map f) := by
  induction rows with
  | nil => rfl
  | cons row rows ih =>
    rw [List.forall_mem_cons] at htest hshown
    rw [selected, htest.1, ih htest.2 hshown.2]
    cases hp : p row with
    | false => simp [hp]
    | true => simp [hp, hshown.1 hp]

theorem selected_map {C : Type} (g : C → A) (rows : List C) :
    selected test shown (rows.map g) = selected (fun c => test (g c)) (fun c => shown (g c)) rows := by
  induction rows with
  | nil => rfl
  | cons row rows ih => rw [List.map_cons, selected, selected, ih]

end Selected

section Groups

variable {same : A → A → Bool} {Of : A → K → Prop} {all : List A}

theorem firsts_keys (hkey : ∀ a ∈ all, ∃ k, Of a k)
    (hsame : ∀ a ∈ all, ∀ b ∈ all, ∀ k l, Of a k → Of b l → (same a b = true ↔ k = l)) (rows : List A) :
    ∀ seen, seen ⊆ all → rows ⊆ all → ∃ keys : List K, keys.Nodup ∧
      (∀ k, k ∈ keys ↔ (∃ a ∈ rows, Of a k) ∧ ∀ a ∈ seen, ¬ Of a k) ∧
      List.Forall₂ (fun a k => a ∈ all ∧ Of a k) (firsts same seen rows) keys := by
  induction rows with
  | nil =>
    intro seen _ _
    exact ⟨[], List.nodup_nil, fun k => by simp, by rw [firsts]; exact .nil⟩
  | cons row rows ih =>
    intro seen hseen hrows
    obtain ⟨hrow, hrows⟩ := List.cons_subset.1 hrows
    obtain ⟨key, hof⟩ := hkey row hrow
    -- a row before this one has its key exactly when it is the same
    have hunique : ∀ k, Of row k → key = k := fun k hk =>
      (hsame row hrow row hrow key k hof hk).1 ((hsame row hrow row hrow key key hof hof).2 rfl)
    rw [firsts]
    split_ifs with hany
    · obtain ⟨other, hother, heq⟩ := List.any_eq_true.1 hany
      obtain ⟨k, hk⟩ := hkey other (hseen hother)
      obtain rfl := (hsame other (hseen hother) row hrow k key hk hof).1 heq
      obtain ⟨keys, hnodup, hmem, hfirsts⟩ := ih seen hseen hrows
      refine ⟨keys, hnodup, fun l => (hmem l).trans ?_, hfirsts⟩
      constructor
      · exact fun ⟨⟨a, ha, hal⟩, hnone⟩ => ⟨⟨a, List.mem_cons_of_mem _ ha, hal⟩, hnone⟩
      · rintro ⟨⟨a, ha, hal⟩, hnone⟩
        refine ⟨?_, hnone⟩
        rcases List.mem_cons.1 ha with rfl | ha
        · exact absurd (hunique l hal ▸ hk) (hnone other hother)
        · exact ⟨a, ha, hal⟩
    · obtain ⟨keys, hnodup, hmem, hfirsts⟩ := ih (row :: seen) (List.cons_subset.2 ⟨hrow, hseen⟩) hrows
      have hnew : ∀ a ∈ seen, ¬ Of a key := by
        intro a ha hak
        exact hany (List.any_eq_true.2 ⟨a, ha, (hsame a (hseen ha) row hrow key key hak hof).2 rfl⟩)
      refine ⟨key :: keys, List.nodup_cons.2 ⟨?_, hnodup⟩, fun l => ?_, .cons ⟨hrow, hof⟩ hfirsts⟩
      · exact fun hin => ((hmem key).1 hin).2 row List.mem_cons_self hof
      · rw [List.mem_cons, hmem]
        constructor
        · rintro (rfl | ⟨⟨a, ha, hal⟩, hnone⟩)
          · exact ⟨⟨row, List.mem_cons_self, hof⟩, hnew⟩
          · exact ⟨⟨a, List.mem_cons_of_mem _ ha, hal⟩, fun b hb => hnone b (List.mem_cons_of_mem _ hb)⟩
        · rintro ⟨⟨a, ha, hal⟩, hnone⟩
          by_cases hl : Of row l
          · exact Or.inl (hunique l hl).symm
          · refine Or.inr ⟨?_, List.forall_mem_cons.2 ⟨hl, hnone⟩⟩
            rcases List.mem_cons.1 ha with rfl | ha
            · exact absurd hal hl
            · exact ⟨a, ha, hal⟩

/-- Where rows are the same that have one key, there is one group for each key, of its rows. -/
theorem groups_keys (hkey : ∀ a ∈ all, ∃ k, Of a k)
    (hsame : ∀ a ∈ all, ∀ b ∈ all, ∀ k l, Of a k → Of b l → (same a b = true ↔ k = l)) :
    ∃ keys : List K, keys.Nodup ∧ (∀ k, k ∈ keys ↔ ∃ a ∈ all, Of a k) ∧
      List.Forall₂ (fun g k => Of g.1 k ∧ ∀ b, b ∈ g.2 ↔ b ∈ all ∧ Of b k) (groups same all) keys := by
  obtain ⟨keys, hnodup, hmem, hfirsts⟩ := firsts_keys hkey hsame all [] (List.nil_subset _) (List.Subset.refl _)
  refine ⟨keys, hnodup, fun k => (hmem k).trans (by simp), ?_⟩
  rw [groups, List.forall₂_map_left_iff]
  refine hfirsts.imp fun a k ⟨ha, hak⟩ => ⟨hak, fun b => ?_⟩
  rw [List.mem_filter]
  refine and_congr_right fun hb => ?_
  obtain ⟨l, hbl⟩ := hkey b hb
  rw [hsame a ha b hb k l hak hbl]
  constructor
  · rintro rfl
    exact hbl
  · exact fun hbk => (hsame b hb b hb k l hbk hbl).1 ((hsame b hb b hb k k hbk hbk).2 rfl)

end Groups

end Lib
