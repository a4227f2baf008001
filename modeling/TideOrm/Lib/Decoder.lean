import Mathlib.Data.List.Basic

/-! Decoders that take a value off the front of a sequence and leave the rest. A value's encoding
is decoded whatever follows it, and no part of it that ends early is. -/

namespace Lib

variable {T A B : Type}

structure Decodes (read : List T → Option (A × List T)) (enc : List T) (a : A) : Prop where
  append : ∀ rest, read (enc ++ rest) = some (a, rest)
  cut : ∀ front back, front ++ back = enc → back ≠ [] → read front = none

namespace Decodes

variable {read : List T → Option (A × List T)} {enc : List T} {a : A}

theorem self (h : Decodes read enc a) : read enc = some (a, []) := by
  have hread := h.append []
  rwa [List.append_nil] at hread

theorem pure (a : A) : Decodes (fun seq : List T => some (a, seq)) [] a := by
  refine ⟨fun _ => rfl, fun front back h hback => ?_⟩
  exact absurd (List.append_eq_nil_iff.1 h).2 hback

/-- One value after another, the second read as the first says. -/
theorem bind (h : Decodes read enc a) {read' : A → List T → Option (B × List T)} {enc' : List T} {b : B}
    (h' : Decodes (read' a) enc' b) :
    Decodes (fun seq => (read seq).bind fun part => read' part.1 part.2) (enc ++ enc') b := by
  constructor
  · intro rest
    rw [List.append_assoc, h.append, Option.bind_some]
    exact h'.append rest
  · intro front back happend hback
    obtain ⟨more, rfl, hmore⟩ | ⟨more, henc, rfl⟩ := List.append_eq_append_iff.1 happend
    · cases more with
      | nil =>
        -- the first value is there, and nothing of the second
        rw [List.append_nil] at h
        rw [h.self, Option.bind_some]
        exact h'.cut [] back hmore hback
      | cons item more => rw [h.cut front (item :: more) rfl (by simp), Option.bind_none]
    · rw [henc, h.append, Option.bind_some]
      exact h'.cut more back rfl hback

/-- A value that the next one does not depend on. -/
theorem skip (h : Decodes read enc a) {read' : List T → Option (B × List T)} {enc' : List T} {b : B}
    (h' : Decodes read' enc' b) : Decodes (fun seq => (read seq).bind fun part => read' part.2) (enc ++ enc') b :=
  @bind _ _ _ read enc a h (fun _ => read') enc' b h'

theorem map (h : Decodes read enc a) (f : A → B) :
    Decodes (fun seq => (read seq).map fun part => (f part.1, part.2)) enc (f a) := by
  constructor
  · intro rest
    rw [h.append, Option.map_some]
  · intro front back happend hback
    rw [h.cut front back happend hback, Option.map_none]

end Decodes

end Lib
