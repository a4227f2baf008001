import TideOrm.Lib.Nesting

/-! Sequences of items, divided by the separators that stand outside of all brackets. -/

namespace Lib

section

variable {α : Type*} (opens closes : α → Bool) (sep : α)

/-- A separator stands inside brackets only, `depth` of them open before the sequence. -/
def Undivided (depth : ℕ) (xs : List α) : Prop :=
  ∀ front rest, xs = front ++ sep :: rest → nesting opens closes depth front ≠ some 0

structure Item (xs : List α) : Prop where
  closed : nesting opens closes 0 xs = some 0
  undivided : Undivided opens closes sep 0 xs

variable {opens closes sep}

theorem undivided_nil (depth : ℕ) : Undivided opens closes sep depth [] := fun _ _ h =>
  absurd h (List.append_ne_nil_of_right_ne_nil _ (List.cons_ne_nil _ _)).symm

/-- The brackets open after one more element. -/
theorem nesting_cons (depth : ℕ) (x : α) (xs : List α) :
    nesting opens closes depth (x :: xs) =
      (nesting opens closes depth [x]).bind fun depth => nesting opens closes depth xs :=
  nesting_append [x] xs depth

theorem Undivided.head {depth : ℕ} {xs : List α} (h : Undivided opens closes sep depth (sep :: xs)) : depth ≠ 0 :=
  fun hdepth => h [] xs rfl (congrArg some hdepth)

theorem Undivided.tail {depth depth' : ℕ} {x : α} {xs : List α} (h : Undivided opens closes sep depth (x :: xs))
    (hx : nesting opens closes depth [x] = some depth') : Undivided opens closes sep depth' xs := by
  intro front rest hxs hfront
  refine h (x :: front) rest (congrArg (x :: ·) hxs) ?_
  rw [nesting_cons, hx]
  exact hfront

theorem Undivided.cons {depth depth' : ℕ} {x : α} {xs : List α} (hx : nesting opens closes depth [x] = some depth')
    (hsep : x = sep → depth ≠ 0) (h : Undivided opens closes sep depth' xs) :
    Undivided opens closes sep depth (x :: xs) := by
  intro front rest hxs
  cases front with
  | nil => exact fun hdepth => hsep (List.cons.inj hxs).1 (Option.some.inj hdepth)
  | cons y front =>
    obtain ⟨rfl, htail⟩ := List.cons.inj hxs
    rw [nesting_cons, hx]
    exact h front rest htail

/-- A sequence that closes what it opens is divided into items. -/
theorem exists_items (hopens : opens sep = false) (hcloses : closes sep = false) {xs : List α} {depth : ℕ}
    (h : nesting opens closes depth xs = some 0) :
    ∃ first items, xs = [sep].intercalate (first :: items) ∧ nesting opens closes depth first = some 0 ∧
      Undivided opens closes sep depth first ∧ ∀ item ∈ items, Item opens closes sep item := by
  induction xs generalizing depth with
  | nil => exact ⟨[], [], rfl, h, undivided_nil depth, by simp⟩
  | cons x xs ih =>
    rw [nesting_cons] at h
    obtain ⟨depth', hx, hxs⟩ := Option.bind_eq_some_iff.1 h
    obtain ⟨first, items, rfl, hfirst, hundivided, hitems⟩ := ih hxs
    by_cases hsep : x = sep ∧ depth = 0
    · obtain ⟨rfl, rfl⟩ := hsep
      have hzero : depth' = 0 := by
        rw [nesting, hopens, hcloses] at hx
        exact (Option.some.inj hx).symm
      subst hzero
      refine ⟨[], first :: items, ?_, rfl, undivided_nil 0, fun item hitem => ?_⟩
      · rw [List.intercalate_cons_cons]
        rfl
      · rcases List.mem_cons.1 hitem with rfl | hitem
        · exact ⟨hfirst, hundivided⟩
        · exact hitems item hitem
    · refine ⟨x :: first, items, ?_, ?_, .cons hx (fun hx hdepth => hsep ⟨hx, hdepth⟩) hundivided, hitems⟩
      · cases items with
        | nil => rw [List.intercalate_singleton, List.intercalate_singleton]
        | cons item items =>
          rw [List.intercalate_cons_cons, List.intercalate_cons_cons]
          rfl
      · rw [nesting_cons, hx]
        exact hfirst

end

end Lib
