import Mathlib.Data.List.Infix

/-! Patterns of items and wildcards, matched against a text up to a folding of its items. -/

namespace Lib

/-- An item of a pattern: one that must occur, any one, or any number of them. -/
inductive Wild (A : Type) where
  | item (a : A)
  | one
  | many
deriving DecidableEq

section

variable {A B : Type} [DecidableEq B] (fold : A → B)

def wildMatch : List (Wild A) → List A → Bool
  | [], text => text.isEmpty
  | .item _ :: _, [] => false
  | .item a :: rest, b :: text => decide (fold a = fold b) && wildMatch rest text
  | .one :: _, [] => false
  | .one :: rest, _ :: text => wildMatch rest text
  | .many :: rest, text => text.tails.any (wildMatch rest)

variable {fold}

theorem wildMatch_nil {text : List A} : wildMatch fold [] text = true ↔ text = [] := by
  rw [wildMatch, List.isEmpty_iff]

theorem wildMatch_many {rest : List (Wild A)} {text : List A} :
    wildMatch fold (.many :: rest) text = true ↔ ∃ tail, tail <:+ text ∧ wildMatch fold rest tail = true := by
  simp only [wildMatch, List.any_eq_true, List.mem_tails]

/-- A pattern that only ends in any number of items accepts what it begins. -/
theorem wildMatch_many_nil (text : List A) : wildMatch fold [.many] text = true :=
  wildMatch_many.2 ⟨[], List.nil_suffix, wildMatch_nil.2 rfl⟩

/-- Items in a row take their own number of the text's. -/
theorem wildMatch_items {literal : List A} {rest : List (Wild A)} {text : List A} :
    wildMatch fold (literal.map Wild.item ++ rest) text = true ↔
      ∃ front tail, text = front ++ tail ∧ front.map fold = literal.map fold ∧ wildMatch fold rest tail = true := by
  induction literal generalizing text with
  | nil =>
    constructor
    · intro h
      exact ⟨[], text, rfl, rfl, h⟩
    · rintro ⟨front, tail, rfl, hfront, h⟩
      obtain rfl := List.map_eq_nil_iff.1 hfront
      exact h
  | cons a literal ih =>
    cases text with
    | nil =>
      constructor
      · intro h
        simp [wildMatch] at h
      · rintro ⟨front, tail, happend, hfront, -⟩
        obtain ⟨rfl, -⟩ := List.append_eq_nil_iff.1 happend.symm
        cases hfront
    | cons b text =>
      rw [List.map_cons, List.cons_append, wildMatch, Bool.and_eq_true, decide_eq_true_eq, ih]
      constructor
      · rintro ⟨hab, front, tail, rfl, hfront, h⟩
        exact ⟨b :: front, tail, rfl, by rw [List.map_cons, List.map_cons, hab, hfront], h⟩
      · rintro ⟨front, tail, happend, hfront, h⟩
        cases front with
        | nil => cases hfront
        | cons c front =>
          obtain ⟨rfl, rfl⟩ := List.cons.inj happend
          obtain ⟨hcb, hfront⟩ := List.cons.inj hfront
          exact ⟨hcb.symm, front, tail, rfl, hfront, h⟩

theorem wildMatch_equal {literal text : List A} :
    wildMatch fold (literal.map Wild.item) text = true ↔ literal.map fold = text.map fold := by
  rw [← List.append_nil (literal.map Wild.item), wildMatch_items]
  constructor
  · rintro ⟨front, tail, rfl, hfront, htail⟩
    obtain rfl := wildMatch_nil.1 htail
    rw [List.append_nil, hfront]
  · intro h
    exact ⟨text, [], (List.append_nil text).symm, h.symm, wildMatch_nil.2 rfl⟩

theorem wildMatch_prefix {literal text : List A} :
    wildMatch fold (literal.map Wild.item ++ [.many]) text = true ↔ literal.map fold <+: text.map fold := by
  rw [wildMatch_items]
  constructor
  · rintro ⟨front, tail, rfl, hfront, -⟩
    rw [List.map_append, hfront]
    exact List.prefix_append _ _
  · intro h
    obtain ⟨front, tail, rfl, hfront, -⟩ := List.map_eq_append_iff.1 (List.prefix_iff_eq_append.1 h).symm
    exact ⟨front, tail, rfl, hfront, wildMatch_many_nil tail⟩

/-- What any number of items before a pattern adds. -/
theorem wildMatch_many_iff {pattern : List (Wild A)} {P : List B → Prop}
    (h : ∀ text, wildMatch fold pattern text = true ↔ P (text.map fold)) (text : List A) :
    wildMatch fold (.many :: pattern) text = true ↔ ∃ tail, tail <:+ text.map fold ∧ P tail := by
  rw [wildMatch_many]
  constructor
  · rintro ⟨tail, hsuffix, hmatch⟩
    exact ⟨tail.map fold, hsuffix.map fold, (h tail).1 hmatch⟩
  · rintro ⟨tail, ⟨front, happend⟩, htail⟩
    obtain ⟨front, back, rfl, -, rfl⟩ := List.map_eq_append_iff.1 happend.symm
    exact ⟨back, List.suffix_append _ _, (h back).2 htail⟩

theorem wildMatch_suffix {literal text : List A} :
    wildMatch fold (.many :: literal.map Wild.item) text = true ↔ literal.map fold <:+ text.map fold := by
  rw [wildMatch_many_iff (P := fun tail => literal.map fold = tail) (fun _ => wildMatch_equal)]
  constructor
  · rintro ⟨tail, hsuffix, rfl⟩
    exact hsuffix
  · intro h
    exact ⟨_, h, rfl⟩

theorem wildMatch_infix {literal text : List A} :
    wildMatch fold (.many :: (literal.map Wild.item ++ [.many])) text = true ↔ literal.map fold <:+: text.map fold := by
  rw [wildMatch_many_iff (P := fun tail => literal.map fold <+: tail) (fun _ => wildMatch_prefix)]
  constructor
  · rintro ⟨tail, hsuffix, hfront⟩
    exact List.infix_iff_prefix_suffix.2 ⟨tail, hfront, hsuffix⟩
  · intro h
    obtain ⟨tail, hfront, hsuffix⟩ := List.infix_iff_prefix_suffix.1 h
    exact ⟨tail, hsuffix, hfront⟩

end

end Lib
