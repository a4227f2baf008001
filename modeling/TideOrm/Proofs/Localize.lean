import TideOrm.Sanity.Localize
import TideOrm.Proofs.SqlSafety

/-! The rebinding removes qualifiers and nothing else: each range runs from a name of the
database to the dot after it, and the ranges are removed from the last one on. -/

namespace TideOrm

/-- Ranges of some qualifiers of the tokens, in order. -/
inductive Qualifiers (names : List Char → Bool) : List MysqlToken → List (ℕ × ℕ) → Prop
  | nil : Qualifiers names [] []
  | pass (token : MysqlToken) {rest : List MysqlToken} {ranges : List (ℕ × ℕ)} (h : Qualifiers names rest ranges) :
    Qualifiers names (token :: rest) ranges
  | take (token dot : MysqlToken) {rest : List MysqlToken} {ranges : List (ℕ × ℕ)} (hident : token.ident = true)
    (hname : names token.text = true) (hdot : dot.text = ['.']) (h : Qualifiers names (dot :: rest) ranges) :
    Qualifiers names (token :: dot :: rest) ((token.start, dot.stop) :: ranges)

/-- Whatever context the pass is in, it takes a name of the database with its dot or nothing. -/
theorem removalsFrom_qualifiers (sql database : List Char) (foldNames : Bool) :
    ∀ (tokens : List MysqlToken) (s : LocalizePass) (previous : Option MysqlToken),
      Qualifiers (namesDatabase database foldNames) tokens (removalsFrom sql database foldNames s previous tokens) := by
  intro tokens
  induction tokens with
  | nil =>
    intro s previous
    exact .nil
  | cons token rest ih =>
    intro s previous
    unfold removalsFrom
    dsimp only
    split
    · rename_i dot _ _ _
      split_ifs with h
      · exact .take token dot h.1 h.2.1 h.2.2.1 (ih _ _)
      · exact .pass token (ih _ _)
    · exact .pass token (ih _ _)

section Removal

variable {u : CharTables} {names : List Char → Bool}

theorem Qualifiers.of_symbol {dot : MysqlToken} {rest : List MysqlToken} {ranges : List (ℕ × ℕ)}
    (h : Qualifiers names (dot :: rest) ranges) (hident : dot.ident = false) : Qualifiers names rest ranges := by
  cases h with
  | pass _ h => exact h
  | take _ _ hname _ _ _ =>
    rw [hident] at hname
    cases hname

theorem bareDots_append {a b : List (Kind × List Char)} (h : bareDots u names (a ++ b) = true) :
    bareDots u names b = true := by
  induction a with
  | nil => exact h
  | cons piece a ih =>
    rw [List.cons_append, bareDots, Bool.and_eq_true] at h
    exact ih h.2

/-- The next token is the first piece that is not skipped. -/
theorem tokensAt_eq_cons {token : MysqlToken} {others : List MysqlToken} :
    ∀ {pieces : List (Kind × List Char)} {pos : ℕ}, tokensAt u pos pieces = token :: others →
      ∃ blanks piece rest, pieces = blanks ++ piece :: rest ∧ (∀ blank ∈ blanks, skippedPiece blank = true) ∧
        skippedPiece piece = false ∧ token.text = pieceText piece ∧ token.ident = pieceIdent u piece ∧
        token.stop = pos + utf8Len (textOf (blanks ++ [piece])) ∧ others = tokensAt u token.stop rest := by
  intro pieces
  induction pieces with
  | nil =>
    intro pos h
    cases h
  | cons piece pieces ih =>
    intro pos h
    cases hblank : skippedPiece piece with
    | true =>
      rw [tokensAt, tokenAt, if_pos hblank] at h
      obtain ⟨blanks, next, rest, rfl, hblanks, hnext, htext, hident, hstop, hothers⟩ := ih h
      refine ⟨piece :: blanks, next, rest, rfl, List.forall_mem_cons.2 ⟨hblank, hblanks⟩, hnext, htext, hident, ?_, hothers⟩
      rw [hstop, List.cons_append, textOf_cons, utf8Len_append, Nat.add_assoc]
    | false =>
      rw [tokensAt, tokenAt, if_neg (by simp [hblank])] at h
      obtain ⟨rfl, rfl⟩ := List.cons.inj h
      refine ⟨[], piece, pieces, rfl, by simp, hblank, rfl, rfl, ?_, rfl⟩
      simp [textOf]

/-- A word that spells the database before a dot is a name, and only blanks part them. -/
theorem bareDots_dot {piece dot : Kind × List Char} {blanks rest : List (Kind × List Char)}
    (h : bareDots u names (piece :: (blanks ++ dot :: rest)) = true) (hident : pieceIdent u piece = true)
    (hnames : names (pieceText piece) = true) (hblanks : ∀ blank ∈ blanks, skippedPiece blank = true)
    (hdot : skippedPiece dot = false) (htext : pieceText dot = ['.']) :
    (∃ name, pieceName piece = some name ∧ names name = true) ∧ (∀ blank ∈ blanks, blankPiece blank = true) ∧
      dot = (.symbol, ['.']) := by
  have hgap : (blanks ++ dot :: rest).takeWhile skippedPiece = blanks := by
    rw [List.takeWhile_append_of_pos hblanks, List.takeWhile_cons_of_neg (by simp [hdot]), List.append_nil]
  rw [bareDots, List.dropWhile_append_of_pos hblanks, List.dropWhile_cons_of_neg (by simp [hdot]), hgap] at h
  simp only [hident, hnames, List.head?_cons, Option.any_some, htext, Bool.and_eq_true, beq_self_eq_true, Bool.and_self,
    Bool.not_true, Bool.false_or, bne_iff_ne, List.all_eq_true, beq_iff_eq, Option.some.injEq] at h
  obtain ⟨⟨⟨hkind, hall⟩, rfl⟩, -⟩ := h
  rw [pieceIdent, if_neg hkind] at hident
  obtain ⟨name, hname⟩ := Option.isSome_iff_exists.1 hident
  exact ⟨⟨name, hname, by rwa [pieceText_name hname] at hnames⟩, hall, rfl⟩

/-- The text with the ranges removed, from the last one on. -/
def removeRanges (ranges : List (ℕ × ℕ)) (text : List Char) : Option (List Char) :=
  ranges.foldr (fun range output => output.bind fun text => removeRange text range) (some text)

/-- Removing the ranges of qualifiers leaves the other pieces as they were. -/
theorem removeRanges_pieces (k : ℕ) : ∀ {pieces : List (Kind × List Char)} {front : List Char} {ranges : List (ℕ × ℕ)},
    pieces.length ≤ k → bareDots u names pieces = true → Qualifiers names (tokensAt u (utf8Len front) pieces) ranges →
    ∃ kept, Unqualified names pieces kept ∧
      removeRanges ranges (front ++ textOf pieces) = some (front ++ textOf kept) := by
  induction k with
  | zero =>
    intro pieces front ranges hlen _ h
    obtain rfl := List.length_eq_zero_iff.1 (Nat.le_zero.1 hlen)
    cases h with
    | nil => exact ⟨[], .nil, rfl⟩
  | succ k ih =>
    intro pieces front ranges hlen hdots h
    cases pieces with
    | nil =>
      cases h with
      | nil => exact ⟨[], .nil, rfl⟩
    | cons piece rest =>
      rw [List.length_cons] at hlen
      -- the piece stays, whatever is removed after it
      have hkeep : ∀ {ranges}, Qualifiers names (tokensAt u (utf8Len front + utf8Len piece.2) rest) ranges →
          ∃ kept, Unqualified names (piece :: rest) kept ∧
            removeRanges ranges (front ++ textOf (piece :: rest)) = some (front ++ textOf kept) := by
        intro ranges h
        rw [← utf8Len_append] at h
        obtain ⟨kept, hkept, hremoved⟩ := ih (by omega) (bareDots_append (a := [piece]) hdots) h
        refine ⟨piece :: kept, .keep piece hkept, ?_⟩
        rwa [textOf_cons, textOf_cons, ← List.append_assoc, ← List.append_assoc]
      cases hblank : skippedPiece piece with
      | true =>
        rw [tokensAt, tokenAt, if_pos hblank] at h
        exact hkeep h
      | false =>
        rw [tokensAt, tokenAt, if_neg (by simp [hblank]), Option.toList_some, List.singleton_append] at h
        generalize htokens : tokensAt u (utf8Len front + utf8Len piece.2) rest = tokens at h
        cases h with
        | pass _ h =>
          rw [← htokens] at h
          exact hkeep h
        | @take _ dot others ranges hident hnamed htext h =>
          obtain ⟨blanks, mark, rest, rfl, hblanks, hmark, hdot, hsymbol, hstop, rfl⟩ := tokensAt_eq_cons htokens
          obtain ⟨⟨name, hname, hnamed⟩, hblanks, rfl⟩ :=
            bareDots_dot hdots hident hnamed hblanks hmark (hdot.symm.trans htext)
          have hrest := h.of_symbol (hsymbol.trans rfl)
          have hback : dot.stop = utf8Len (front ++ (piece.2 ++ textOf (blanks ++ [(.symbol, ['.'])]))) := by
            rw [hstop, utf8Len_append, utf8Len_append, Nat.add_assoc]
          rw [hback] at hrest
          have hshort : rest.length ≤ k := by
            simp only [List.length_append, List.length_cons] at hlen
            omega
          have hafter : bareDots u names rest = true := by
            have hcut := bareDots_append (a := piece :: blanks) hdots
            exact bareDots_append (a := [(.symbol, ['.'])]) hcut
          obtain ⟨kept, hkept, hremoved⟩ := ih hshort hafter hrest
          refine ⟨kept, .delete piece name hname hnamed blanks hblanks hkept, ?_⟩
          have htext : front ++ textOf (piece :: (blanks ++ (.symbol, ['.']) :: rest)) =
              front ++ (piece.2 ++ textOf (blanks ++ [(.symbol, ['.'])])) ++ textOf rest := by
            simp [textOf]
          rw [htext, removeRanges, List.foldr_cons, ← removeRanges, hremoved, Option.bind_some, hback, utf8Len_append,
            List.append_assoc]
          exact removeRange_append front _ (textOf kept)

/-- Cuttings are kept: they are no names and no blanks. -/
theorem Unqualified.of_cut {parts tail kept : List (Kind × List Char)} (hparts : ∀ part ∈ parts, part.1 = .parameter)
    (h : Unqualified names (parts ++ tail) kept) : ∃ kept', kept = parts ++ kept' ∧ Unqualified names tail kept' := by
  induction parts generalizing kept with
  | nil => exact ⟨kept, rfl, h⟩
  | cons part parts ih =>
    obtain ⟨hpart, hparts⟩ := List.forall_mem_cons.1 hparts
    generalize hrest : parts ++ tail = rest at h
    rw [List.cons_append, hrest] at h
    cases h with
    | keep _ h =>
      obtain ⟨kept', rfl, htail⟩ := ih hparts (hrest ▸ h)
      exact ⟨kept', rfl, htail⟩
    | delete _ name hname _ _ _ _ =>
      obtain ⟨kind, text⟩ := part
      subst hpart
      cases hname

variable (u) in
/-- A piece stays one or is cut. -/
theorem pieceParts_cases (piece : Kind × List Char) :
    pieceParts u piece = [piece] ∨ ∀ part ∈ pieceParts u piece, part.1 = .parameter := by
  unfold pieceParts
  dsimp only
  split_ifs with hkind hwhole
  · exact .inl rfl
  · refine .inr fun part hmem => ?_
    obtain ⟨cut, -, rfl⟩ := List.mem_map.1 hmem
    rfl
  · exact .inl rfl

/-- A piece that is no cutting is a whole one. -/
theorem flatMap_parts_cons {piece : Kind × List Char} {tail : List (Kind × List Char)} (hkind : piece.1 ≠ .parameter) :
    ∀ {pieces : List (Kind × List Char)}, (∀ piece ∈ pieces, piece.2 ≠ []) →
      pieces.flatMap (pieceParts u) = piece :: tail → ∃ rest, pieces = piece :: rest ∧ rest.flatMap (pieceParts u) = tail := by
  intro pieces hfull h
  cases pieces with
  | nil => cases h
  | cons other rest =>
    rw [List.flatMap_cons] at h
    rcases pieceParts_cases u other with hone | hcut
    · rw [hone] at h
      obtain ⟨rfl, rfl⟩ := List.cons.inj h
      exact ⟨rest, rfl, rfl⟩
    · have hsome : pieceParts u other ≠ [] := by
        intro hnil
        refine hfull other List.mem_cons_self ?_
        rw [← textOf_parts (u := u) other, hnil]
        rfl
      obtain ⟨part, parts, hparts⟩ := List.exists_cons_of_ne_nil hsome
      rw [hparts] at h hcut
      obtain ⟨rfl, -⟩ := List.cons.inj h
      exact absurd (hcut part List.mem_cons_self) hkind

theorem flatMap_parts_append {tail : List (Kind × List Char)} :
    ∀ {blanks pieces : List (Kind × List Char)}, (∀ blank ∈ blanks, blank.1 ≠ .parameter) →
      (∀ piece ∈ pieces, piece.2 ≠ []) → pieces.flatMap (pieceParts u) = blanks ++ tail →
      ∃ rest, pieces = blanks ++ rest ∧ rest.flatMap (pieceParts u) = tail := by
  intro blanks
  induction blanks with
  | nil =>
    intro pieces _ _ h
    exact ⟨pieces, rfl, h⟩
  | cons blank blanks ih =>
    intro pieces hkinds hfull h
    obtain ⟨hkind, hkinds⟩ := List.forall_mem_cons.1 hkinds
    obtain ⟨rest, rfl, hrest⟩ := flatMap_parts_cons hkind hfull h
    obtain ⟨rest', rfl, hrest'⟩ := ih hkinds (List.forall_mem_cons.1 hfull).2 hrest
    exact ⟨rest', rfl, hrest'⟩

/-- What is left of the pieces and their cuttings is left of the pieces. -/
theorem Unqualified.of_parts (k : ℕ) : ∀ {pieces kept : List (Kind × List Char)}, pieces.length ≤ k →
    (∀ piece ∈ pieces, piece.2 ≠ []) → Unqualified names (pieces.flatMap (pieceParts u)) kept →
    ∃ kept', textOf kept' = textOf kept ∧ Unqualified names pieces kept' := by
  induction k with
  | zero =>
    intro pieces kept hlen _ h
    obtain rfl := List.length_eq_zero_iff.1 (Nat.le_zero.1 hlen)
    cases h with
    | nil => exact ⟨[], rfl, .nil⟩
  | succ k ih =>
    intro pieces kept hlen hfull h
    cases pieces with
    | nil =>
      cases h with
      | nil => exact ⟨[], rfl, .nil⟩
    | cons piece rest =>
      rw [List.length_cons] at hlen
      have hrests := (List.forall_mem_cons.1 hfull).2
      rw [List.flatMap_cons] at h
      rcases pieceParts_cases u piece with hone | hcut
      · rw [hone] at h
        generalize hparts : rest.flatMap (pieceParts u) = parts at h
        cases h with
        | keep _ h =>
          rw [← hparts] at h
          obtain ⟨kept', htext, hkept⟩ := ih (by omega) hrests h
          exact ⟨piece :: kept', by rw [textOf_cons, textOf_cons, htext], .keep piece hkept⟩
        | delete _ name hname hnames blanks hblanks h =>
          have hkinds : ∀ blank ∈ blanks ++ [((.symbol, ['.']) : Kind × List Char)], blank.1 ≠ .parameter := by
            intro blank hmem hkind
            rcases List.mem_append.1 hmem with hmem | hmem
            · have hblank := hblanks blank hmem
              rw [blankPiece, hkind] at hblank
              cases hblank
            · rw [List.mem_singleton.1 hmem] at hkind
              cases hkind
          have hcut : rest.flatMap (pieceParts u) = (blanks ++ [(.symbol, ['.'])]) ++ _ :=
            hparts.trans (List.append_cons blanks _ _)
          obtain ⟨others, rfl, hothers⟩ := flatMap_parts_append hkinds hrests hcut
          rw [← hothers] at h
          have hshort : others.length ≤ k := by
            simp only [List.length_append] at hlen
            omega
          obtain ⟨kept', htext, hkept⟩ := ih hshort (fun piece hmem => hrests piece (List.mem_append_right _ hmem)) h
          refine ⟨kept', htext, ?_⟩
          rw [List.append_assoc]
          exact .delete piece name hname hnames blanks hblanks hkept
      · obtain ⟨kept', rfl, htail⟩ := h.of_cut hcut
        obtain ⟨kept'', htext, hkept⟩ := ih (by omega) hrests htail
        refine ⟨piece :: kept'', ?_, .keep piece hkept⟩
        rw [textOf_cons, textOf_append, textOf_parts, htext]

end Removal

theorem localize_eq {u : CharTables} {sql database mode : List Char} {foldNames : Bool} {tokens : List MysqlToken}
    (h : mysqlTokensFrom u (backslashEscapes mode) (ansiQuotes mode) 0 0 sql = some tokens) :
    localize u sql database mode foldNames =
      removeRanges (removalsFrom sql database foldNames ⟨⟨false, false⟩, [], false, false⟩ none tokens) sql := by
  rw [localize, h]
  rfl

theorem mysqlReading_full {mode : List Char} : ∀ {pieces : List (Kind × List Char)} {before sql : List Char},
    readFrom (mysqlToken (backslashEscapes mode) (ansiQuotes mode)) 0 before sql = pieces → ∀ piece ∈ pieces, piece.2 ≠ [] := by
  intro pieces
  induction pieces with
  | nil =>
    intro before sql _ piece hmem
    cases hmem
  | cons piece pieces ih =>
    intro before sql h
    obtain ⟨after, rfl, htakes, hafter⟩ := readFrom_eq_cons mysqlToken_positive h
    obtain ⟨first, body, -, htext, -, -⟩ := htakes.found
    refine List.forall_mem_cons.2 ⟨?_, ih hafter⟩
    rw [htext]
    exact List.cons_ne_nil _ _

theorem textOf_cut (u : CharTables) (pieces : List (Kind × List Char)) :
    textOf (pieces.flatMap (pieceParts u)) = textOf pieces := by
  induction pieces with
  | nil => rfl
  | cons piece pieces ih => rw [List.flatMap_cons, textOf_append, textOf_parts, textOf_cons, ih]

/-- The end of a name that begins with a digit is taken for the database. -/
example : localize asciiTables "SELECT a FROM 2024src.t JOIN src.u".toList "src".toList [] false =
    some "SELECT a FROM 2024t JOIN u".toList := by
  repeat rw [String.toList_ofList]
  decide +kernel

/-- An alias that is a dot in quotes is taken for the dot. -/
example : localize asciiTables "SELECT * FROM src `.` JOIN t".toList "src".toList [] false =
    some "SELECT * FROM  JOIN t".toList := by
  repeat rw [String.toList_ofList]
  decide +kernel

end TideOrm
