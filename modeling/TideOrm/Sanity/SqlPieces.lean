import TideOrm.Sanity.SqlText
import TideOrm.Spec.Placeholders

/-! How the lexer reads letters, digits and quoted names. -/

namespace TideOrm

section Plain

variable {u : CharTables} {sqlite : Bool}

theorem alphanumeric_bounds {ch : Char} (h : ch.isAlpha = true ∨ ch = '_' ∨ ch.isDigit = true) :
    (65 ≤ ch.toNat ∧ ch.toNat ≤ 90) ∨ (97 ≤ ch.toNat ∧ ch.toNat ≤ 122) ∨ ch.toNat = 95 ∨
      (48 ≤ ch.toNat ∧ ch.toNat ≤ 57) := by
  rcases h with h | rfl | h
  · exact (isAlpha_bounds h).elim Or.inl fun h => Or.inr (Or.inl h)
  · exact Or.inr (Or.inr (Or.inl rfl))
  · exact Or.inr (Or.inr (Or.inr (Lib.toNat_of_isDigit h)))

theorem alphanumeric_ne {ch other : Char} (h : ch.isAlpha = true ∨ ch = '_' ∨ ch.isDigit = true)
    (hother : other.toNat < 48 ∨ (57 < other.toNat ∧ other.toNat < 65) ∨
      (90 < other.toNat ∧ other.toNat < 95) ∨ other.toNat = 96) : ch ≠ other := by
  rintro rfl
  have := alphanumeric_bounds h
  omega

/-- A letter, a digit or an underscore begins no quoted run, comment or parameter. -/
theorem lexToken_alphanumeric {ch : Char} (h : ch.isAlpha = true ∨ ch = '_' ∨ ch.isDigit = true)
    (before rest : List Char) :
    lexToken u sqlite before ch rest =
        (if ch = '_' ∨ u.isAlphabetic ch = true then
          (.word, ((ch :: rest).takeWhile (identifierChar u)).length) else (.symbol, 1)) ∧
      closedToken u sqlite before ch rest = true := by
  refine lexToken_plain u sqlite before ?_ ?_ ?_ ?_ (alphanumeric_ne h (by decide))
  · have hbounds := alphanumeric_bounds h
    rw [Bool.eq_false_iff]
    intro hspace
    simp only [spaceChar, isWhitespace, Bool.or_eq_true, Bool.and_eq_true, beq_iff_eq, decide_eq_true_eq] at hspace
    have hmark : ch ≠ '\ufeff' := by
      rintro rfl
      exact absurd hbounds (by decide)
    have hspace := hspace.resolve_right fun h => hmark h.2
    omega
  · rintro (⟨rfl, -⟩ | ⟨rfl, -⟩)
    · exact alphanumeric_ne h (by decide) rfl
    · exact alphanumeric_ne h (by decide) rfl
  · rintro (hch | hch | hch | hch)
    · exact alphanumeric_ne h (by decide) hch
    · exact alphanumeric_ne h (by decide) hch
    · exact alphanumeric_ne h (by decide) hch
    · exact alphanumeric_ne h (by decide) hch
  · rintro ⟨-, hch | hch | hch | hch⟩
    · exact alphanumeric_ne h (by decide) hch
    · exact alphanumeric_ne h (by decide) hch
    · exact alphanumeric_ne h (by decide) hch
    · exact alphanumeric_ne h (by decide) hch

end Plain

section Quoted

variable {u : CharTables} {sqlite : Bool}

/-- Doubled quotes do not end the run they stand in. -/
theorem quotedEnd_doubled {close : Char} {stop : ℕ} : ∀ (name : List Char) (index : ℕ),
    quotedEnd close .doubled stop false index ((name.flatMap fun ch => if ch = close then [ch, ch] else [ch]) ++ [close]) =
      (index + (name.flatMap fun ch => if ch = close then [ch, ch] else [ch]).length + 1, .closed) := by
  intro name
  induction name with
  | nil => intro index; simp [quotedEnd]
  | cons ch name ih =>
    intro index
    by_cases hch : ch = close
    · subst hch
      rw [List.flatMap_cons, if_pos rfl, List.append_assoc]
      have hstep : ∀ rest : List Char, quotedEnd ch .doubled stop false index ([ch, ch] ++ rest) =
          quotedEnd ch .doubled stop false (index + 2) rest := by
        intro rest
        simp [quotedEnd]
      rw [hstep, ih (index + 2)]
      simp only [List.length_append, List.length_cons, List.length_nil, Prod.mk.injEq, and_true]
      omega
    · rw [List.flatMap_cons, if_neg hch, List.append_assoc]
      have hstep : ∀ rest : List Char, quotedEnd close .doubled stop false index ([ch] ++ rest) =
          quotedEnd close .doubled stop false (index + 1) rest := by
        intro rest
        simp [quotedEnd, hch]
      rw [hstep, ih (index + 1)]
      simp only [List.length_append, List.length_cons, List.length_nil, Prod.mk.injEq, and_true]
      omega

theorem quoteChar_cases (db : DatabaseType) : db.quoteChar = '"' ∨ db.quoteChar = '`' := by
  cases db
  · exact Or.inl rfl
  · exact Or.inr rfl
  · exact Or.inr rfl
  · exact Or.inl rfl

end Quoted

end TideOrm
