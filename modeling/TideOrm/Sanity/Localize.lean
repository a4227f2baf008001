import TideOrm.Spec.Localize
import TideOrm.Sanity.TableTags

/-! The tokens of the rebinding and MySQL's: where every double-quoted identifier ends as a
string would, they are MySQL's with the longer names cut into words. -/

namespace TideOrm

section Bytes

theorem charBoundary_append (a b : List Char) : charBoundary (a ++ b) (utf8Len a) = true := by
  rw [charBoundary, takeBytes_append]
  exact beq_self_eq_true _

theorem charBoundary_append_append (a b c : List Char) :
    charBoundary (a ++ (b ++ c)) (utf8Len a + utf8Len b) = true := by
  rw [← List.append_assoc, ← utf8Len_append]
  exact charBoundary_append (a ++ b) c

theorem strSlice_append (a b c : List Char) :
    strSlice (a ++ (b ++ c)) (utf8Len a) (utf8Len a + utf8Len b) = some b := by
  rw [strSlice, if_pos ⟨Nat.le_add_right _ _, charBoundary_append _ _, charBoundary_append_append _ _ _⟩,
    sliceBytes_append]

theorem removeRange_append (a b c : List Char) :
    removeRange (a ++ (b ++ c)) (utf8Len a, utf8Len a + utf8Len b) = some (a ++ c) := by
  rw [removeRange, if_pos ⟨Nat.le_add_right _ _, charBoundary_append _ _, charBoundary_append_append _ _ _⟩,
    takeBytes_append, ← List.append_assoc, ← utf8Len_append, dropBytes_append]

/-- The quotes of a quoted identifier are sliced off at their bytes. -/
theorem strSlice_quoted {quote : Char} (hsize : quote.utf8Size = 1) (body after : List Char) :
    strSlice (quote :: (body ++ quote :: after)) 1 (utf8Len (quote :: (body ++ [quote])) - 1) = some body := by
  have hquote : utf8Len [quote] = 1 := by simp [utf8Len, hsize]
  have hlen : utf8Len (quote :: (body ++ [quote])) - 1 = utf8Len [quote] + utf8Len body := by
    rw [utf8Len_cons, utf8Len_append, hquote, hsize]
    omega
  rw [hlen, ← hquote]
  exact strSlice_append [quote] body (quote :: after)

end Bytes

theorem pieceText_name {piece : Kind × List Char} {name : List Char} (h : pieceName piece = some name) :
    pieceText piece = name := by
  obtain ⟨kind, text⟩ := piece
  cases kind with
  | symbol | parameter => cases h
  | word | identifier | literal | comment | space => exact congrArg (fun name => name.getD []) h

def tokenAt (u : CharTables) (pos : ℕ) (piece : Kind × List Char) : Option MysqlToken :=
  if skippedPiece piece then none else some ⟨pos, pos + utf8Len piece.2, pieceText piece, pieceIdent u piece⟩

/-- The tokens of the pieces that stand from the byte `pos` on. -/
def tokensAt (u : CharTables) : ℕ → List (Kind × List Char) → List MysqlToken
  | _, [] => []
  | pos, piece :: rest => (tokenAt u pos piece).toList ++ tokensAt u (pos + utf8Len piece.2) rest

theorem tokensAt_append (u : CharTables) (b : List (Kind × List Char)) : ∀ (a : List (Kind × List Char)) (pos : ℕ),
    tokensAt u pos (a ++ b) = tokensAt u pos a ++ tokensAt u (pos + utf8Len (textOf a)) b := by
  intro a
  induction a with
  | nil =>
    intro pos
    rfl
  | cons piece a ih =>
    intro pos
    rw [List.cons_append, tokensAt, tokensAt, ih, textOf_cons, utf8Len_append, List.append_assoc, Nat.add_assoc]

section Runs

variable {close : Char} {mode : EscapeMode} {first : Char} {body after : List Char}

theorem closedRun_iff {text : List Char} : closedRun mode (first :: text) = true ↔
    quotedRun first mode (first :: text) = (text.length + 1, .closed) := by
  simp [closedRun]

/-- A run ends at its closing quote. -/
theorem closedRun_last (h : closedRun mode (first :: body) = true) : ∃ inner, body = inner ++ [first] := by
  have hlast := quotedEnd_last (closedRun_iff.1 h)
  rw [List.drop_succ_cons, List.drop_zero, Nat.add_sub_cancel, List.take_length] at hlast
  exact List.getLast?_eq_some_iff.1 hlast

theorem quotedRun_next (hmode : mode ≠ .rejectAmbiguous)
    (h : (quotedRun close mode (first :: (body ++ after))).1 = body.length + 1) : after.head? ≠ some close := by
  by_cases hclosed : (quotedRun close mode (first :: (body ++ after))).2 = .closed
  · obtain ⟨body', after', htext, hlen, hnext, -⟩ := quotedRun_span hclosed
    have hbody : body = body' := List.append_inj_left htext (by omega)
    subst hbody
    rwa [List.append_cancel_left htext]
  · -- an open run takes the whole text
    have hwhole : (quotedRun close mode (first :: (body ++ after))).1 = (first :: (body ++ after)).length :=
      quotedEnd_open hmode _ _ _ hclosed
    rw [h, List.length_cons, List.length_append] at hwhole
    rw [List.length_eq_zero_iff.1 (show after.length = 0 by omega)]
    simp

end Runs

section Tokens

variable {u : CharTables} {backslash ansi : Bool}

theorem mysqlTokensFrom_skip : ∀ (rest : List Char) (skip pos : ℕ), mysqlTokensFrom u backslash ansi skip pos rest =
    mysqlTokensFrom u backslash ansi 0 (pos + utf8Len (rest.take skip)) (rest.drop skip) := by
  intro rest
  induction rest with
  | nil =>
    intro skip pos
    cases skip <;> rfl
  | cons ch rest ih =>
    intro skip pos
    cases skip with
    | zero => rfl
    | succ skip =>
      rw [List.take_succ_cons, List.drop_succ_cons, utf8Len_cons, ← Nat.add_assoc]
      exact ih skip _

/-- `n` characters of the text are `body`, or more than there are left. -/
def Covers (n : ℕ) (body after : List Char) : Prop := n = body.length ∨ (body.length < n ∧ after = [])

theorem Covers.take {n : ℕ} {body after : List Char} (h : Covers n body after) : (body ++ after).take n = body := by
  rcases h with rfl | ⟨hlt, rfl⟩
  · exact List.take_left
  · rw [List.append_nil]
    exact List.take_of_length_le hlt.le

theorem Covers.drop {n : ℕ} {body after : List Char} (h : Covers n body after) : (body ++ after).drop n = after := by
  rcases h with rfl | ⟨hlt, rfl⟩
  · exact List.drop_left
  · rw [List.append_nil]
    exact List.drop_eq_nil_of_le hlt.le

theorem mysqlTokensFrom_span {n : ℕ} {body after : List Char} (h : Covers n body after) (first : Char) (pos : ℕ) :
    mysqlTokensFrom u backslash ansi n (pos + first.utf8Size) (body ++ after) =
      mysqlTokensFrom u backslash ansi 0 (pos + utf8Len (first :: body)) after := by
  rw [mysqlTokensFrom_skip, h.take, h.drop, utf8Len_cons, Nat.add_assoc]

theorem mysqlToken_positive (before : List Char) (first : Char) (rest : List Char) :
    1 ≤ (mysqlToken backslash ansi before first rest).2 := by
  unfold mysqlToken
  dsimp only
  split_ifs with hspace hblock hline hident hliteral hname hdigits hat
  · exact Nat.le_refl 1
  · exact (Nat.le_add_left 1 1).trans (blockCommentFrom_le _ _ _ _ _)
  · refine takeWhile_pos ?_ _
    rcases Bool.or_eq_true_iff.1 hline with h | h
    · rw [beq_iff_eq.1 h]
      decide
    · simp only [Bool.and_eq_true, beq_iff_eq] at h
      rw [h.1.1]
      decide
  · exact quotedLen_pos _ _ _ _
  · exact quotedLen_pos _ _ _ _
  · exact takeWhile_pos hname _
  · exact takeWhile_pos hname _
  · exact takeWhile_pos (by simp [variableChar, hat]) _
  · exact Nat.le_refl 1

variable {before : List Char} {first : Char} {body after : List Char} {kind : Kind} {n pos : ℕ}

/-- Where a quoted identifier ends, backslashes or not. -/
theorem identifier_len (hlen : Covers n body after) (hlex : quotedLen (first :: (body ++ after)) first false = n + 1)
    (hbracket : first ≠ '[') (hclosed : closedRun .doubled (first :: body) = true) (escapes : Bool)
    (hends : escapes = true → closedRun .backslash (first :: body) = true) :
    quotedLen (first :: (body ++ after)) first escapes = body.length + 1 ∧ n = body.length := by
  have hn : n = body.length := by
    rcases hlen with h | ⟨hlt, rfl⟩
    · exact h
    · rw [List.append_nil, quotedLen, if_neg hbracket] at hlex
      have hrun := congrArg Prod.fst (closedRun_iff.1 hclosed)
      rw [if_neg Bool.false_ne_true] at hlex
      omega
  subst hn
  refine ⟨?_, rfl⟩
  cases escapes with
  | false => exact hlex
  | true =>
    have hnext : after.head? ≠ some first := by
      refine @quotedRun_next first .doubled first body after (by decide) ?_
      simpa only [quotedLen, if_neg hbracket, if_neg Bool.false_ne_true] using hlex
    have hrun := closedRun_iff.1 (hends rfl)
    rw [quotedLen, if_neg hbracket, if_pos rfl]
    exact congrArg Prod.fst (quotedEnd_append hnext hrun)

section Cut

theorem wordPart_positive (before : List Char) (first : Char) (rest : List Char) :
    1 ≤ (wordPart u before first rest).2 := by
  unfold wordPart
  split_ifs with hword
  · refine takeWhile_pos ?_ _
    rcases hword with rfl | h
    · simp [identifierChar]
    · simp [identifierChar, CharTables.isAlphanumeric, h]
  · exact Nat.le_refl 1

/-- No white space begins a word. -/
theorem wordStart_space {ch : Char} (h : ch = '_' ∨ u.isAlphabetic ch = true) : isWhitespace ch = false := by
  rcases h with rfl | h
  · rfl
  · cases hspace : isWhitespace ch with
    | false => rfl
    | true =>
      have hnone := (u.space ch (by simp [spaceChar, hspace])).1
      rw [h] at hnone
      cases hnone

/-- A name's characters begin no quoted token and no comment. -/
theorem variableChar_plain {ch : Char} (h : variableChar ch = true) (rest : List Char) :
    ¬(ch = '/' ∧ rest.head? = some '*') ∧ ¬lineComment ch rest = true ∧ ¬(ch = '\'' ∨ ch = '"' ∨ ch = '`') := by
  have hne : ∀ other, variableChar other = false → ch ≠ other := by
    rintro other hother rfl
    rw [h] at hother
    cases hother
  refine ⟨fun hblock => hne '/' (by decide) hblock.1, ?_, ?_⟩
  · simp [lineComment, hne '#' (by decide), hne '-' (by decide)]
  · rintro (hquote | hquote | hquote)
    · exact hne '\'' (by decide) hquote
    · exact hne '"' (by decide) hquote
    · exact hne '`' (by decide) hquote

theorem identifierChar_name {ch : Char} (h : mysqlNameChar ch = false) : identifierChar u ch = false := by
  simp only [mysqlNameChar, Bool.or_eq_false_iff, Bool.not_eq_false'] at h
  obtain ⟨⟨⟨hletter, hunder⟩, hdollar⟩, hascii⟩ := h
  rw [identifierChar_ascii u hascii, ← Char.isAlphanum, hletter, hunder, hdollar]
  rfl

theorem tokenAt_part {text : List Char} {first : Char} (pos : ℕ) :
    tokenAt u pos (.parameter, first :: text) =
      if (first :: text).all isWhitespace then none
      else some ⟨pos, pos + utf8Len (first :: text), first :: text, first == '_' || u.isAlphabetic first⟩ := by
  simp [tokenAt, skippedPiece, blankPiece, pieceText, pieceIdent]

/-- A run that ends within the text ends there in a longer text too, unless it reaches the seam. -/
theorem takeWhile_seam {p : Char → Bool} {run rest after : List Char} (hrun : (run ++ rest).takeWhile p = run)
    (hafter : after.head?.all (fun ch => !p ch) = true) : (run ++ (rest ++ after)).takeWhile p = run := by
  have hall : ∀ ch ∈ run, p ch = true := by
    intro ch hmem
    rw [← hrun] at hmem
    exact List.mem_takeWhile_imp hmem
  rw [List.takeWhile_append_of_pos hall] at hrun ⊢
  have hrest : rest.takeWhile p = [] := List.append_right_eq_self.1 hrun
  rw [List.append_right_eq_self]
  cases rest with
  | nil =>
    cases after with
    | nil => rfl
    | cons ch after => exact List.takeWhile_cons_of_neg (by simpa using hafter)
  | cons ch rest =>
    refine List.takeWhile_cons_of_neg fun hch => ?_
    rw [List.takeWhile_cons_of_pos hch] at hrest
    cases hrest

/-- The tokenizer reads a run of name characters as the cuttings of it. -/
theorem mysqlTokensFrom_run {after : List Char} (hafter : after.head?.all (fun ch => !identifierChar u ch) = true) :
    ∀ {parts : List (Kind × List Char)} {before text : List Char} {pos : ℕ},
      readFrom (wordPart u) 0 before text = parts → (∀ ch ∈ text, variableChar ch = true) →
      mysqlTokensFrom u backslash ansi 0 pos (text ++ after) =
        (mysqlTokensFrom u backslash ansi 0 (pos + utf8Len text) after).map fun tokens =>
          tokensAt u pos (parts.map fun part => (.parameter, part.2)) ++ tokens := by
  intro parts
  induction parts with
  | nil =>
    intro before text pos h _
    cases text with
    | nil => exact Option.map_id'.symm
    | cons first rest => cases h
  | cons part parts ih =>
    intro before text pos h hchars
    obtain ⟨rest, rfl, htakes, hrest⟩ := readFrom_eq_cons wordPart_positive h
    obtain ⟨first, body, n, htext, hlex, hlen⟩ := htakes.found
    obtain ⟨kind, text⟩ := part
    dsimp only at htext hlex hrest hchars ⊢
    subst htext
    obtain ⟨hfirst, hbody⟩ := List.forall_mem_cons.1 hchars
    obtain ⟨hblock, hline, hquote⟩ := variableChar_plain hfirst (body ++ rest ++ after)
    have hstep := @ih _ rest (pos + utf8Len (first :: body)) hrest fun ch hmem => hbody ch (List.mem_append_right body hmem)
    have hpos : pos + utf8Len (first :: body) + utf8Len rest = pos + utf8Len (first :: body ++ rest) := by
      rw [utf8Len_append, Nat.add_assoc]
    rw [hpos] at hstep
    have hspan := fun pos => @mysqlTokensFrom_span u backslash ansi body.length body (rest ++ after) (.inl rfl) first pos
    rw [List.map_cons, tokensAt, tokenAt_part, List.cons_append, List.cons_append, List.append_assoc, mysqlTokensFrom]
    rw [List.append_assoc] at hblock hline
    unfold wordPart at hlex
    split_ifs at hlex with hword
    · obtain ⟨-, hn⟩ := Prod.mk.inj hlex
      have hcut := List.takeWhile_prefix (identifierChar u) (l := first :: (body ++ rest))
      have hrun : (first :: body ++ rest).takeWhile (identifierChar u) = first :: body := by
        rw [List.cons_append, List.prefix_iff_eq_take.1 hcut, hn, List.take_succ_cons, Covers.take hlen]
      have hwhole := takeWhile_seam hrun hafter
      rw [List.cons_append] at hwhole
      have hall : (first :: body).all isWhitespace = false := by
        rw [List.all_cons, wordStart_space hword, Bool.false_and]
      have hstart : (first == '_' || u.isAlphabetic first) = true := by simpa using hword
      rw [if_neg (by simp [wordStart_space hword]), if_neg hblock, if_neg hline, if_neg hquote, if_pos hword, hall,
        if_neg Bool.false_ne_true, hstart]
      dsimp only
      rw [hwhole, List.length_cons, Nat.add_sub_cancel, hspan, hstep, Option.map_map]
      rfl
    · obtain ⟨-, hn⟩ := Prod.mk.inj hlex
      obtain rfl : n = 0 := by omega
      obtain rfl : body = [] := by
        rcases hlen with h | ⟨h, -⟩
        · exact List.length_eq_zero_iff.1 h.symm
        · exact absurd h (Nat.not_lt_zero _)
      have hstart : (first == '_' || u.isAlphabetic first) = false := by simpa using hword
      rw [List.length_nil] at hspan
      rw [hstart]
      by_cases hspace : isWhitespace first = true
      · rw [if_pos hspace, if_pos (by simp [hspace]), hspan, hstep]
        rfl
      · rw [if_neg hspace, if_neg hblock, if_neg hline, if_neg hquote, if_neg hword, if_neg (by simpa using hspace), hspan,
          hstep, Option.map_map]
        rfl

end Cut

/-- A run of name characters is read whole, up to one that is none. -/
theorem nameRun {p : Char → Bool} (hp : ∀ ch, p ch = true → variableChar ch = true)
    (hstop : ∀ ch, p ch = false → mysqlNameChar ch = false) (hlen : Covers n body after)
    (hn : ((first :: (body ++ after)).takeWhile p).length = n + 1) :
    (∀ ch ∈ first :: body, variableChar ch = true) ∧ after.head?.all (fun ch => !identifierChar u ch) = true := by
  have hcut := List.takeWhile_prefix p (l := first :: (body ++ after))
  have hrun : (first :: body ++ after).takeWhile p = first :: body := by
    rw [List.cons_append, List.prefix_iff_eq_take.1 hcut, hn, List.take_succ_cons, hlen.take]
  have hall : ∀ ch ∈ first :: body, p ch = true := by
    intro ch hmem
    rw [← hrun] at hmem
    exact List.mem_takeWhile_imp hmem
  refine ⟨fun ch hmem => hp ch (hall ch hmem), ?_⟩
  cases after with
  | nil => rfl
  | cons ch after =>
    have hnone : (ch :: after).takeWhile p = [] := by
      rwa [List.takeWhile_append_of_pos hall, List.append_right_eq_self] at hrun
    have hch : p ch = false := by
      by_contra hch
      rw [List.takeWhile_cons_of_pos (by simpa using hch)] at hnone
      cases hnone
    rw [List.head?_cons, Option.all_some, identifierChar_name (hstop ch hch)]
    rfl

theorem pieceParts_quoted {piece : Kind × List Char} (h : piece.1 = .identifier ∨ piece.1 = .literal ∨ blankPiece piece = true) :
    pieceParts u piece = [piece] := by
  obtain ⟨kind, text⟩ := piece
  cases kind <;> simp_all [pieceParts, blankPiece]

/-- A piece that is a single cutting is the token the cutting is. -/
theorem tokensAt_parts {piece : Kind × List Char} {first : Char} {body : List Char} (htext : piece.2 = first :: body)
    (hkind : piece.1 = .word ∨ piece.1 = .parameter ∨ piece.1 = .symbol)
    (hspace : piece.1 = .symbol → isWhitespace first = false) (pos : ℕ) :
    tokensAt u pos (pieceParts u piece) =
      tokensAt u pos ((readFrom (wordPart u) 0 [] piece.2).map fun part => (.parameter, part.2)) := by
  rw [pieceParts, if_pos hkind]
  dsimp only
  split_ifs with hwhole
  · obtain ⟨kind, text⟩ := piece
    obtain rfl : text = first :: body := htext
    rw [hwhole, List.map_singleton, tokensAt, tokensAt, tokensAt, tokensAt, tokenAt_part]
    obtain ⟨_, -, htakes, -⟩ := readFrom_eq_cons wordPart_positive hwhole
    obtain ⟨first', body', n, htext, hlex, -⟩ := htakes.found
    obtain ⟨rfl, rfl⟩ := List.cons.inj htext
    unfold wordPart at hlex
    split_ifs at hlex with hword
    · obtain rfl : Kind.word = kind := (Prod.mk.inj hlex).1
      have hall : (first :: body).all isWhitespace = false := by
        rw [List.all_cons, wordStart_space hword, Bool.false_and]
      have hstart : (first == '_' || u.isAlphabetic first) = true := by simpa using hword
      rw [hall, hstart]
      rfl
    · obtain rfl : Kind.symbol = kind := (Prod.mk.inj hlex).1
      have hall : (first :: body).all isWhitespace = false := by
        rw [List.all_cons, hspace rfl, Bool.false_and]
      have hstart : (first == '_' || u.isAlphabetic first) = false := by simpa using hword
      rw [hall, hstart]
      rfl
  · rfl

/-- The tokenizer makes of the piece what its parts are, and goes on after it. -/
def TokenizesAs (u : CharTables) (backslash ansi : Bool) (piece : Kind × List Char) (after : List Char) : Prop :=
  ∀ pos, mysqlTokensFrom u backslash ansi 0 pos (piece.2 ++ after) =
    (mysqlTokensFrom u backslash ansi 0 (pos + utf8Len piece.2) after).map fun tokens =>
      tokensAt u pos (pieceParts u piece) ++ tokens

/-- An identifier that ends where a string would is one token. -/
theorem tokenizes_identifier (hlen : Covers n body after) (hblock : ¬(first = '/' ∧ (body ++ after).head? = some '*'))
    (hline : ¬lineComment first (body ++ after) = true) (hident : first = '`' ∨ first = '"' ∧ ansi = true)
    (hlex : quotedLen (first :: (body ++ after)) first false = n + 1)
    (hclosed : closedRun .doubled (first :: body) = true)
    (hends : endsAsString backslash (.identifier, first :: body) = true) :
    TokenizesAs u backslash ansi (.identifier, first :: body) after := by
  intro pos
  have hquote : first = '\'' ∨ first = '"' ∨ first = '`' := by
    rcases hident with h | h
    · exact .inr (.inr h)
    · exact .inr (.inl h.1)
  have hsize : first.utf8Size = 1 := by
    rcases hquote with rfl | rfl | rfl <;> rfl
  have hnospace : ¬isWhitespace first = true := by
    rcases hquote with rfl | rfl | rfl <;> decide
  have hbracket : first ≠ '[' := by
    rcases hquote with rfl | rfl | rfl <;> decide
  have hescapes : (backslash && first != '`') = true → closedRun .backslash (first :: body) = true := by
    intro hand
    rw [Bool.and_eq_true, bne_iff_ne] at hand
    obtain rfl : first = '"' := (hident.resolve_left hand.2).1
    simpa [endsAsString, stringEscapes, hand.1] using hends
  obtain ⟨hcode, rfl⟩ := identifier_len hlen hlex hbracket hclosed _ hescapes
  obtain ⟨inner, rfl⟩ := closedRun_last hclosed
  have hbody : strSlice (first :: (inner ++ [first] ++ after)) 1 (utf8Len (first :: (inner ++ [first])) - 1) = some inner := by
    rw [List.append_assoc]
    exact strSlice_quoted hsize inner after
  rw [pieceParts_quoted (.inl rfl), List.cons_append, mysqlTokensFrom, if_neg hnospace, if_neg hblock, if_neg hline,
    if_pos hquote, if_pos hident, hcode, List.take_succ_cons, hlen.take, hbody, Option.bind_some, Nat.add_sub_cancel,
    mysqlTokensFrom_span hlen]
  simp [tokensAt, tokenAt, skippedPiece, blankPiece, pieceText, pieceIdent, pieceName]

theorem tokenizes_literal (hlen : Covers n body after) (hblock : ¬(first = '/' ∧ (body ++ after).head? = some '*'))
    (hline : ¬lineComment first (body ++ after) = true) (hident : ¬(first = '`' ∨ first = '"' ∧ ansi = true))
    (hliteral : first = '\'' ∨ first = '"') (hlex : quotedLen (first :: (body ++ after)) first backslash = n + 1) :
    TokenizesAs u backslash ansi (.literal, first :: body) after := by
  intro pos
  have hquote : first = '\'' ∨ first = '"' ∨ first = '`' := by
    rcases hliteral with h | h
    · exact .inl h
    · exact .inr (.inl h)
  have hnospace : ¬isWhitespace first = true := by
    rcases hquote with rfl | rfl | rfl <;> decide
  have hback : first ≠ '`' := fun h => hident (.inl h)
  have hflag : (backslash && first != '`') = backslash := by
    rw [bne_iff_ne.2 hback, Bool.and_true]
  rw [pieceParts_quoted (.inr (.inl rfl)), List.cons_append, mysqlTokensFrom, if_neg hnospace, if_neg hblock, if_neg hline,
    if_pos hquote, if_neg hident, hflag, hlex, List.take_succ_cons, hlen.take, Nat.add_sub_cancel, mysqlTokensFrom_span hlen]
  simp [tokensAt, tokenAt, skippedPiece, blankPiece, pieceText, pieceIdent, pieceName]

/-- A name, a number or a variable is cut into the words and single characters in it. -/
theorem tokenizes_run {p : Char → Bool} (hp : ∀ ch, p ch = true → variableChar ch = true)
    (hstop : ∀ ch, p ch = false → mysqlNameChar ch = false) (hlen : Covers n body after)
    (hlex : ((first :: (body ++ after)).takeWhile p).length = n + 1) (hkind : kind = .word ∨ kind = .parameter ∨ kind = .symbol)
    (hspace : kind = .symbol → isWhitespace first = false) : TokenizesAs u backslash ansi (kind, first :: body) after := by
  intro pos
  obtain ⟨hchars, hafter⟩ := nameRun hp hstop hlen hlex
  rw [tokensAt_parts rfl hkind hspace]
  exact mysqlTokensFrom_run hafter rfl hchars

/-- A character outside names that nothing else begins with. -/
theorem tokenizes_symbol (hspace : ¬(isAscii first = true ∧ isWhitespace first = true))
    (hblock : ¬(first = '/' ∧ after.head? = some '*')) (hline : ¬lineComment first after = true)
    (hident : first ≠ '`') (hliteral : ¬(first = '\'' ∨ first = '"')) (hname : ¬mysqlNameChar first = true) :
    TokenizesAs u backslash ansi (.symbol, [first]) after := by
  intro pos
  have hquote : ¬(first = '\'' ∨ first = '"' ∨ first = '`') := by
    rintro (h | h | h)
    · exact hliteral (.inl h)
    · exact hliteral (.inr h)
    · exact hident h
  have hascii : isAscii first = true := by
    by_contra h
    exact hname (by simp [mysqlNameChar, h])
  have hnospace : ¬isWhitespace first = true := fun h => hspace ⟨hascii, h⟩
  have hword : ¬(first = '_' ∨ u.isAlphabetic first = true) := by
    intro h
    refine hname ?_
    rw [(u.ascii first hascii).1] at h
    rcases h with rfl | h
    · rfl
    · simp [mysqlNameChar, Char.isAlphanum, h]
  have hparts : pieceParts u (.symbol, [first]) = [(.symbol, [first])] := by
    rw [pieceParts, if_pos (.inr (.inr rfl))]
    refine if_pos ?_
    rw [readFrom, wordPart, if_neg hword]
    rfl
  rw [hparts, List.singleton_append, mysqlTokensFrom, if_neg hnospace, if_neg hblock, if_neg hline, if_neg hquote, if_neg hword]
  simp [tokensAt, tokenAt, skippedPiece, blankPiece, pieceText, pieceIdent, pieceName, utf8Len]

/-- The tokenizer reads each piece as one token, skips it or cuts it. -/
theorem mysqlTokensFrom_piece {piece : Kind × List Char} (h : Takes (mysqlToken backslash ansi) before piece after)
    (hclosed : terminated backslash piece = true) (hends : endsAsString backslash piece = true) :
    TokenizesAs u backslash ansi piece after := by
  obtain ⟨first, body, n, htext, hlex, hlen⟩ := h.found
  obtain ⟨kind, text⟩ := piece
  dsimp only at htext hlex
  subst htext
  have hskip : ∀ tokens : Option (List MysqlToken), tokens = tokens.map fun tokens => [] ++ tokens := by
    intro tokens
    cases tokens <;> rfl
  simp only [mysqlToken] at hlex
  split_ifs at hlex with hspace hblock hline hident hliteral hname hdigits hat
  · obtain ⟨rfl, hn⟩ := Prod.mk.inj hlex
    obtain rfl : n = 0 := by omega
    intro pos
    rw [pieceParts_quoted (.inr (.inr rfl)), List.cons_append, mysqlTokensFrom, if_pos hspace.2, mysqlTokensFrom_span hlen]
    exact hskip _
  · obtain ⟨rfl, hn⟩ := Prod.mk.inj hlex
    have hnospace : ¬isWhitespace first = true := by
      rw [hblock.1]
      decide
    intro pos
    rw [pieceParts_quoted (.inr (.inr rfl)), List.cons_append, mysqlTokensFrom, if_neg hnospace, if_pos hblock, hn,
      Nat.add_sub_cancel, mysqlTokensFrom_span hlen]
    exact hskip _
  · obtain ⟨rfl, hn⟩ := Prod.mk.inj hlex
    have hnospace : ¬isWhitespace first = true := by
      rcases Bool.or_eq_true_iff.1 hline with h | h
      · rw [beq_iff_eq.1 h]
        decide
      · simp only [Bool.and_eq_true, beq_iff_eq] at h
        rw [h.1.1]
        decide
    intro pos
    rw [pieceParts_quoted (.inr (.inr rfl)), List.cons_append, mysqlTokensFrom, if_neg hnospace, if_neg hblock,
      if_pos hline, hn, Nat.add_sub_cancel, mysqlTokensFrom_span hlen]
    exact hskip _
  · obtain ⟨rfl, hn⟩ := Prod.mk.inj hlex
    exact tokenizes_identifier hlen hblock hline hident hn hclosed hends
  · obtain ⟨rfl, hn⟩ := Prod.mk.inj hlex
    exact tokenizes_literal hlen hblock hline hident hliteral hn
  · -- digits alone
    obtain ⟨rfl, hn⟩ := Prod.mk.inj hlex
    refine tokenizes_run (fun ch h => by rw [variableChar, h]; rfl) (fun ch h => h) hlen hn (.inr (.inr rfl)) fun _ => ?_
    have hdigit : first.isDigit = true := by
      rw [List.takeWhile_cons_of_pos hname, List.all_cons, Bool.and_eq_true] at hdigits
      exact hdigits.1
    by_contra hblank
    exact hspace ⟨isAscii_of_isDigit hdigit, by simpa using hblank⟩
  · obtain ⟨rfl, hn⟩ := Prod.mk.inj hlex
    exact tokenizes_run (fun ch h => by rw [variableChar, h]; rfl) (fun ch h => h) hlen hn (.inl rfl) fun h => by cases h
  · obtain ⟨rfl, hn⟩ := Prod.mk.inj hlex
    refine tokenizes_run (fun ch h => h) (fun ch h => ?_) hlen hn (.inr (.inl rfl)) fun h => by cases h
    rw [variableChar, Bool.or_eq_false_iff, Bool.or_eq_false_iff] at h
    exact h.1.1
  · obtain ⟨rfl, hn⟩ := Prod.mk.inj hlex
    obtain rfl : n = 0 := by omega
    have hbody : body = [] := by
      rcases hlen with h | ⟨h, -⟩
      · exact List.length_eq_zero_iff.1 h.symm
      · exact absurd h (Nat.not_lt_zero _)
    subst hbody
    exact tokenizes_symbol hspace hblock hline (fun h => hident (.inl h)) hliteral hname

theorem textOf_parts (piece : Kind × List Char) : textOf (pieceParts u piece) = piece.2 := by
  rw [pieceParts]
  split_ifs with hkind
  · dsimp only
    split_ifs with hwhole
    · exact List.append_nil _
    · rw [textOf, List.flatMap_map]
      exact textOf_readFrom wordPart_positive [] piece.2
  · exact List.append_nil _

theorem mysqlTokensFrom_pieces : ∀ {pieces : List (Kind × List Char)} {before text : List Char} {pos : ℕ},
    readFrom (mysqlToken backslash ansi) 0 before text = pieces →
    (∀ piece ∈ pieces, terminated backslash piece = true) → (∀ piece ∈ pieces, endsAsString backslash piece = true) →
    mysqlTokensFrom u backslash ansi 0 pos text = some (tokensAt u pos (pieces.flatMap (pieceParts u))) := by
  intro pieces
  induction pieces with
  | nil =>
    intro before text pos h _ _
    cases text with
    | nil => rfl
    | cons first rest => cases h
  | cons piece pieces ih =>
    intro before text pos h hclosed hends
    obtain ⟨after, rfl, htakes, hafter⟩ := readFrom_eq_cons mysqlToken_positive h
    rw [List.forall_mem_cons] at hclosed hends
    rw [mysqlTokensFrom_piece htakes hclosed.1 hends.1, ih hafter hclosed.2 hends.2, List.flatMap_cons, tokensAt_append,
      textOf_parts]
    rfl

end Tokens

end TideOrm
