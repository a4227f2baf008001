import TideOrm.Sanity.SqlPieces
import TideOrm.Spec.TableTags

/-! The significant tokens of a text, read off it one by one. -/

namespace TideOrm

section

variable (u : CharTables)

def significantFrom (before : List Char) (offset : ℕ) (sql : List Char) : List Token :=
  (scanFrom u false 0 before offset sql).filter fun token => token.kind != .space && token.kind != .comment

variable {u} {before rest : List Char} {offset : ℕ}

theorem scanFrom_piece {first : Char} {piece : List Char} {kind : Kind}
    (h : lexToken u false before first (piece ++ rest) = (kind, piece.length + 1)) :
    ∃ before' offset', scanFrom u false 0 before offset (first :: piece ++ rest) =
      ⟨first :: piece, offset, kind⟩ :: scanFrom u false 0 before' offset' rest := by
  obtain ⟨before', offset', hskip⟩ := scanFrom_skip u false (piece ++ rest) piece.length (first :: before)
    (offset + first.utf8Size)
  refine ⟨before', offset', ?_⟩
  rw [List.cons_append, scanFrom_cons, h, Nat.add_sub_cancel, hskip, List.drop_left, List.take_succ_cons, List.take_left]

theorem significantFrom_piece {first : Char} {piece : List Char} {kind : Kind}
    (h : lexToken u false before first (piece ++ rest) = (kind, piece.length + 1)) (hspace : kind ≠ .space)
    (hcomment : kind ≠ .comment) :
    ∃ before' offset', significantFrom u before offset (first :: piece ++ rest) =
      ⟨first :: piece, offset, kind⟩ :: significantFrom u before' offset' rest := by
  obtain ⟨before', offset', hscan⟩ := @scanFrom_piece u before rest offset first piece kind h
  refine ⟨before', offset', ?_⟩
  rw [significantFrom, hscan, List.filter_cons, if_pos (by simp [hspace, hcomment]), significantFrom]

theorem significantFrom_space {gap : List Char} (h : ∀ ch ∈ gap, isWhitespace ch = true)
    (hrest : ∀ ch ∈ rest.head?, isWhitespace ch = false) :
    ∃ before' offset', significantFrom u before offset (gap ++ rest) = significantFrom u before' offset' rest := by
  cases gap with
  | nil => exact ⟨before, offset, rfl⟩
  | cons first piece =>
    have hspace : ∀ ch, spaceChar false ch = isWhitespace ch := fun ch => by simp [spaceChar]
    have htake : ((first :: piece) ++ rest).takeWhile (spaceChar false) = first :: piece :=
      takeWhile_ends (fun ch hch => (hspace ch).trans (h ch hch)) fun ch hch => (hspace ch).trans (hrest ch hch)
    have hlex : lexToken u false before first (piece ++ rest) = (.space, piece.length + 1) := by
      rw [lexToken, if_pos ((hspace first).trans (h first List.mem_cons_self)), ← List.cons_append, htake, List.length_cons]
    obtain ⟨before', offset', hscan⟩ := @scanFrom_piece u before rest offset first piece .space hlex
    refine ⟨before', offset', ?_⟩
    rw [significantFrom, hscan, List.filter_cons, if_neg (by simp), significantFrom]

theorem identifierChar_of_isAlpha {ch : Char} (h : ch.isAlpha = true) : identifierChar u ch = true := by
  have hascii : isAscii ch = true := by
    have := isAlpha_bounds h
    rw [isAscii, decide_eq_true_eq]
    omega
  rw [identifierChar, CharTables.isAlphanumeric, (u.ascii ch hascii).1, h]
  simp

/-- A word of letters, up to what cannot go on with it. -/
theorem significantFrom_word {word : List Char} (hne : word ≠ []) (h : ∀ ch ∈ word, ch.isAlpha = true)
    (hrest : ∀ ch ∈ rest.head?, identifierChar u ch = false) :
    ∃ before' offset', significantFrom u before offset (word ++ rest) =
      ⟨word, offset, .word⟩ :: significantFrom u before' offset' rest := by
  obtain ⟨first, piece, rfl⟩ := List.exists_cons_of_ne_nil hne
  have hfirst := h first List.mem_cons_self
  have hascii : isAscii first = true := by
    have := isAlpha_bounds hfirst
    rw [isAscii, decide_eq_true_eq]
    omega
  have htake := takeWhile_ends (fun ch hch => identifierChar_of_isAlpha (h ch hch)) hrest
  refine significantFrom_piece ?_ (by decide) (by decide)
  rw [(@lexToken_alphanumeric u false first (Or.inl hfirst) before (piece ++ rest)).1,
    if_pos (Or.inr ((u.ascii first hascii).1.trans hfirst)), ← List.cons_append, htake, List.length_cons]

/-- A quoted name is one token, whatever it holds. -/
theorem significantFrom_quoteIdent (db : DatabaseType) (name : List Char) (hrest : rest.head? ≠ some db.quoteChar) :
    ∃ before' offset', significantFrom u before offset (quoteIdent db name ++ rest) =
      ⟨quoteIdent db name, offset, .identifier⟩ :: significantFrom u before' offset' rest := by
  have hliteral : db.quoteChar ≠ '\'' := by rcases quoteChar_cases db with h | h <;> rw [h] <;> decide
  have hbracket : db.quoteChar ≠ '[' := by rcases quoteChar_cases db with h | h <;> rw [h] <;> decide
  have hquote : db.quoteChar = '\'' ∨ db.quoteChar = '"' ∨ db.quoteChar = '`' ∨ db.quoteChar = '[' :=
    (quoteChar_cases db).elim (fun h => Or.inr (Or.inl h)) fun h => Or.inr (Or.inr (Or.inl h))
  refine significantFrom_piece ?_ (by decide) (by decide)
  rw [(lexToken_quote u false before hquote _).1, if_neg hliteral, quoteRun, if_neg hbracket, quotedRun, List.drop_succ_cons,
    List.drop_zero, beq_eq_false_iff_ne.2 hliteral, Bool.and_false, Bool.false_and, if_neg Bool.false_ne_true,
    List.append_eq, quotedEnd_append hrest (@quotedEnd_doubled db.quoteChar 0 name 1), List.length_append, List.length_singleton]
  simp [Nat.add_comm]

end

end TideOrm
