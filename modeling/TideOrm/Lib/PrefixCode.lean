import Mathlib.Data.List.Basic

/-! Encodings that can be read off the front of a sequence: where two sequences that begin
with an encoding are the same, so are the values encoded, as far as a view of them, and
what follows. -/

namespace Lib

/-- `view` of a value that meets `ok` can be read off a sequence that begins with its encoding. -/
def ReadsBack {T A B : Type} (ok : A → Prop) (enc : A → List T) (view : A → B) : Prop :=
  ∀ a b r s, ok a → ok b → enc a ++ r = enc b ++ s → view a = view b ∧ r = s

namespace ReadsBack

variable {T A B C : Type} {ok : A → Prop} {enc enc' : A → List T} {view : A → B} {view' : A → C}

theorem weaken (h : ReadsBack ok enc view) {ok' : A → Prop} (hok : ∀ a, ok' a → ok a) : ReadsBack ok' enc view :=
  fun a b r s ha hb heq => h a b r s (hok a ha) (hok b hb) heq

/-- What is determined by a view is read too. -/
theorem through (h : ReadsBack ok enc view) (hview : ∀ a b, ok a → ok b → view a = view b → view' a = view' b) :
    ReadsBack ok enc view' := by
  intro a b r s ha hb heq
  obtain ⟨hab, hrest⟩ := h a b r s ha hb heq
  exact ⟨hview a b ha hb hab, hrest⟩

theorem token {tok : A → T} (h : ∀ a b, ok a → ok b → tok a = tok b → view a = view b) :
    ReadsBack ok (fun a => [tok a]) view := by
  intro a b r s ha hb heq
  obtain ⟨htok, hrest⟩ := List.cons.inj heq
  exact ⟨h a b ha hb htok, hrest⟩

theorem append (h : ReadsBack ok enc view) (h' : ReadsBack ok enc' view') :
    ReadsBack ok (fun a => enc a ++ enc' a) fun a => (view a, view' a) := by
  intro a b r s ha hb heq
  rw [List.append_assoc, List.append_assoc] at heq
  obtain ⟨hview, heq⟩ := h a b _ _ ha hb heq
  obtain ⟨hview', hrest⟩ := h' a b r s ha hb heq
  exact ⟨Prod.ext hview hview', hrest⟩

/-- A list whose end can be told: no item begins there. `Cont` is what may follow an item,
`Rest` what follows the list. -/
theorem flatMap (h : ReadsBack ok enc view) (Cont Rest : List T → Prop) (hrest : ∀ r, Rest r → Cont r)
    (hstep : ∀ a r, Cont r → Cont (enc a ++ r)) (hend : ∀ a r s, Cont r → Rest s → enc a ++ r ≠ s) :
    ∀ (xs ys : List A) (r s : List T), (∀ a ∈ xs, ok a) → (∀ a ∈ ys, ok a) → Rest r → Rest s →
      xs.flatMap enc ++ r = ys.flatMap enc ++ s → xs.map view = ys.map view ∧ r = s := by
  have hcont : ∀ (xs : List A) (r : List T), Rest r → Cont (xs.flatMap enc ++ r) := by
    intro xs r hr
    induction xs with
    | nil => exact hrest r hr
    | cons a xs ih =>
      rw [List.flatMap_cons, List.append_assoc]
      exact hstep a _ ih
  intro xs
  induction xs with
  | nil =>
    intro ys r s _ _ hr hs heq
    cases ys with
    | nil => exact ⟨rfl, heq⟩
    | cons b ys =>
      rw [List.flatMap_nil, List.nil_append, List.flatMap_cons, List.append_assoc] at heq
      exact absurd heq.symm (hend b _ r (hcont ys s hs) hr)
  | cons a xs ih =>
    intro ys r s hxs hys hr hs heq
    cases ys with
    | nil =>
      rw [List.flatMap_nil, List.nil_append, List.flatMap_cons, List.append_assoc] at heq
      exact absurd heq (hend a _ s (hcont xs r hr) hs)
    | cons b ys =>
      rw [List.forall_mem_cons] at hxs hys
      rw [List.flatMap_cons, List.flatMap_cons, List.append_assoc, List.append_assoc] at heq
      obtain ⟨hview, heq⟩ := h a b _ _ hxs.1 hys.1 heq
      obtain ⟨hviews, hrest⟩ := ih ys r s hxs.2 hys.2 hr hs heq
      exact ⟨by rw [List.map_cons, List.map_cons, hview, hviews], hrest⟩

/-- A list told from what follows it by the first token. -/
theorem flatMap_of_head (h : ReadsBack ok enc view) {begins : T → Prop} (hbegins : ∀ a, ∃ t l, enc a = t :: l ∧ begins t)
    {xs ys : List A} {r s : List T} (hxs : ∀ a ∈ xs, ok a) (hys : ∀ a ∈ ys, ok a)
    (hr : ∀ t ∈ r.head?, ¬begins t) (hs : ∀ t ∈ s.head?, ¬begins t)
    (heq : xs.flatMap enc ++ r = ys.flatMap enc ++ s) : xs.map view = ys.map view ∧ r = s := by
  refine h.flatMap (fun _ => True) (fun r => ∀ t ∈ r.head?, ¬begins t) (fun _ _ => trivial)
    (fun _ _ _ => trivial) ?_ xs ys r s hxs hys hr hs heq
  rintro a r s - hrest rfl
  obtain ⟨t, l, henc, ht⟩ := hbegins a
  rw [henc] at hrest
  exact hrest t rfl ht

/-- A list behind its length. -/
theorem counted (h : ReadsBack ok enc view) {count : ℕ → T} (hcount : ∀ m n, count m = count n → m = n) :
    ReadsBack (fun xs : List A => ∀ a ∈ xs, ok a) (fun xs => count xs.length :: xs.flatMap enc) (List.map view) := by
  have hitems : ∀ (xs ys : List A) (r s : List T), xs.length = ys.length → (∀ a ∈ xs, ok a) → (∀ a ∈ ys, ok a) →
      xs.flatMap enc ++ r = ys.flatMap enc ++ s → xs.map view = ys.map view ∧ r = s := by
    intro xs
    induction xs with
    | nil =>
      intro ys r s hlen _ _ heq
      obtain rfl := List.length_eq_zero_iff.1 hlen.symm
      exact ⟨rfl, heq⟩
    | cons a xs ih =>
      intro ys r s hlen hxs hys heq
      cases ys with
      | nil => cases hlen
      | cons b ys =>
        rw [List.forall_mem_cons] at hxs hys
        rw [List.flatMap_cons, List.flatMap_cons, List.append_assoc, List.append_assoc] at heq
        obtain ⟨hview, heq⟩ := h a b _ _ hxs.1 hys.1 heq
        obtain ⟨hviews, hrest⟩ := ih ys r s (Nat.succ.inj hlen) hxs.2 hys.2 heq
        exact ⟨by rw [List.map_cons, List.map_cons, hview, hviews], hrest⟩
  intro xs ys r s hxs hys heq
  obtain ⟨hlen, heq⟩ := List.cons.inj heq
  exact hitems xs ys r s (hcount _ _ hlen) hxs hys heq

end ReadsBack

end Lib
