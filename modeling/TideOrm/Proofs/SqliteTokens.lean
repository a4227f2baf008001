import TideOrm.Proofs.QuotedTokens
import TideOrm.Proofs.Subquery
import TideOrm.Spec.SqliteScript
import Mathlib.Data.List.Infix

/-! The sqliteLexemes of a SQLite script, one token of SQLite's after the other. -/

namespace TideOrm

/-- The token, wherever it stands. -/
def Token.unplaced (t : Token) : Token := { t with start := 0 }

section

variable (u : CharTables)

/-- The significant sqliteLexemes of a text. -/
def sqliteLexemes (sql : List Char) : List Token := (sqliteSignificant u sql).map Token.unplaced

theorem lexToken_sqlite (before : List Char) (first : Char) (rest : List Char) :
    lexToken u true before first rest = lexToken u true [] first rest := by
  simp only [lexToken, Bool.not_true, Bool.false_and]

theorem scanFrom_unplaced (text : List Char) : ∀ (skip : ℕ) (before before' : List Char) (offset offset' : ℕ),
    (scanFrom u true skip before offset text).map Token.unplaced = (scanFrom u true skip before' offset' text).map Token.unplaced := by
  induction text with
  | nil =>
    intro skip _ _ _ _
    cases skip <;> rfl
  | cons first rest ih =>
    intro skip before before' offset offset'
    cases skip with
    | succ skip => exact ih skip _ _ _ _
    | zero =>
      rw [scanFrom_cons, scanFrom_cons, List.map_cons, List.map_cons, lexToken_sqlite u before, lexToken_sqlite u before']
      exact congrArg₂ List.cons rfl (ih _ _ _ _ _)

theorem filter_unplaced (tokens : List Token) :
    (tokens.filter fun token => token.kind != .space && token.kind != .comment).map Token.unplaced =
      (tokens.map Token.unplaced).filter fun token => token.kind != .space && token.kind != .comment := by
  rw [List.filter_map]
  rfl

theorem sqliteLexemes_eq (before : List Char) (offset : ℕ) (text : List Char) :
    sqliteLexemes u text = ((scanFrom u true 0 before offset text).map Token.unplaced).filter fun token =>
      token.kind != .space && token.kind != .comment := by
  rw [sqliteLexemes, sqliteSignificant, filter_unplaced, sqliteTokens, scan, scanFrom_unplaced u text 0 [] before 0 offset]

variable {u} {first : Char} {piece rest : List Char} {kind : Kind}

theorem sqliteLexemes_piece (h : lexToken u true [] first (piece ++ rest) = (kind, piece.length + 1)) :
    sqliteLexemes u (first :: piece ++ rest) =
      [⟨first :: piece, 0, kind⟩].filter (fun token => token.kind != .space && token.kind != .comment) ++ sqliteLexemes u rest := by
  obtain ⟨before', offset', hskip⟩ := scanFrom_skip u true (piece ++ rest) piece.length [first] (0 + first.utf8Size)
  rw [List.cons_append, sqliteLexemes_eq u [] 0, scanFrom_cons, h, Nat.add_sub_cancel, hskip, List.drop_left, List.take_succ_cons, List.take_left,
    List.map_cons, ← List.singleton_append, List.filter_append, sqliteLexemes_eq u before' offset' rest]
  rfl

theorem sqliteLexemes_token (h : lexToken u true [] first (piece ++ rest) = (kind, piece.length + 1)) (hspace : kind ≠ .space)
    (hcomment : kind ≠ .comment) : sqliteLexemes u (first :: piece ++ rest) = ⟨first :: piece, 0, kind⟩ :: sqliteLexemes u rest := by
  rw [sqliteLexemes_piece h, List.filter_cons_of_pos (by simp [hspace, hcomment])]
  rfl

theorem sqliteLexemes_skip (h : lexToken u true [] first (piece ++ rest) = (kind, piece.length + 1)) (hkind : kind = .space ∨ kind = .comment) :
    sqliteLexemes u (first :: piece ++ rest) = sqliteLexemes u rest := by
  rw [sqliteLexemes_piece h, List.filter_cons_of_neg (by rcases hkind with rfl | rfl <;> simp)]
  rfl

section Blanks

theorem sqliteLexemes_space_cons (h : spaceChar true first = true) (rest : List Char) : sqliteLexemes u (first :: rest) = sqliteLexemes u rest := by
  have hrun : ∀ text, sqliteLexemes u (text.dropWhile (spaceChar true)) = sqliteLexemes u text := by
    intro text
    cases text with
    | nil => rfl
    | cons ch text =>
      rw [List.dropWhile_cons]
      split_ifs with hspace
      · have hsplit := List.takeWhile_append_dropWhile (p := spaceChar true) (l := text)
        have hlex : lexToken u true [] ch (text.takeWhile (spaceChar true) ++ text.dropWhile (spaceChar true)) =
            (.space, (text.takeWhile (spaceChar true)).length + 1) := by
          rw [hsplit, (lexToken_space true hspace [] text).1]
        have hskip := sqliteLexemes_skip hlex (Or.inl rfl)
        rw [List.cons_append, hsplit] at hskip
        exact hskip.symm
      · rfl
  rw [← hrun (first :: rest), List.dropWhile_cons_of_pos h, hrun]

theorem sqliteLexemes_spaces {text : List Char} (h : ∀ ch ∈ text, spaceChar true ch = true) (rest : List Char) :
    sqliteLexemes u (text ++ rest) = sqliteLexemes u rest := by
  induction text with
  | nil => rfl
  | cons ch text ih =>
    rw [List.forall_mem_cons] at h
    rw [List.cons_append, sqliteLexemes_space_cons h.1, ih h.2]

theorem sqliteLexemes_line {text : List Char} (h : '\n' ∉ text) (hrest : ∀ ch ∈ rest.head?, ch = '\n') :
    sqliteLexemes u ('-' :: '-' :: text ++ rest) = sqliteLexemes u rest := by
  have htake : ('-' :: '-' :: text ++ rest).takeWhile (fun ch => ch != '\n') = '-' :: '-' :: text := by
    refine takeWhile_ends (fun ch hch => bne_iff_ne.2 ?_) fun ch hch => ?_
    · rintro rfl
      simp [h] at hch
    · rw [hrest ch hch]
      rfl
  have hlex := (@lexToken_line u true [] ('-' :: text ++ rest) rfl).1
  rw [← List.cons_append, htake] at hlex
  exact sqliteLexemes_skip hlex (Or.inr rfl)

/-- The scan of a block comment goes on behind what does not close it. -/
theorem blockCommentFrom_text {text : List Char} (h : ¬['*', '/'] <:+: text) {tail : List Char} (htail : text.getLast? = some '*' → tail.head? ≠ some '/')
    (pos : ℕ) : blockCommentFrom false false 1 pos (text ++ tail) = blockCommentFrom false false 1 (pos + text.length) tail := by
  induction text generalizing pos with
  | nil => rfl
  | cons ch text ih =>
    have hopen : ¬(ch = '*' ∧ (text ++ tail).head? = some '/') := by
      rintro ⟨rfl, hnext⟩
      cases text with
      | nil => exact htail rfl hnext
      | cons next text =>
        obtain rfl : next = '/' := Option.some.inj hnext
        exact h ⟨[], text, rfl⟩
    have hwithin : ¬['*', '/'] <:+: text := fun hwithin => h (hwithin.trans (List.suffix_cons ch text).isInfix)
    have hlast : text.getLast? = some '*' → tail.head? ≠ some '/' := fun hlast => htail (by
      rw [List.getLast?_cons, hlast]
      rfl)
    rw [List.cons_append, blockCommentFrom, if_neg (fun h => Bool.false_ne_true h.1), if_neg hopen, ih hwithin hlast, List.length_cons,
      Nat.add_right_comm, Nat.add_assoc]

theorem sqliteLexemes_block {text : List Char} (h : ¬['*', '/'] <:+: text) (rest : List Char) :
    sqliteLexemes u ('/' :: '*' :: (text ++ ['*', '/']) ++ rest) = sqliteLexemes u rest := by
  have hend : blockCommentFrom false false 1 2 (text ++ '*' :: '/' :: rest) = 2 + text.length + 2 :=
    blockCommentFrom_text h (fun _ hnext => by cases hnext) 2
  have hlex := (@lexToken_block u true [] ('*' :: (text ++ ['*', '/']) ++ rest) rfl).1
  rw [List.cons_append, List.drop_succ_cons, List.drop_zero, List.append_assoc, Bool.not_true, List.cons_append, List.cons_append, List.nil_append,
    hend] at hlex
  refine @sqliteLexemes_skip u '/' ('*' :: (text ++ ['*', '/'])) rest .comment ?_ (Or.inr rfl)
  rw [List.cons_append, List.append_assoc, List.cons_append, List.cons_append, List.nil_append, hlex, List.length_cons, List.length_append]
  congr 1
  simp only [List.length_cons, List.length_nil]
  omega

theorem sqliteLexemes_unclosed {text : List Char} (h : ¬['*', '/'] <:+: text) : sqliteLexemes u ('/' :: '*' :: text) = [] := by
  have hend : blockCommentFrom false false 1 2 (text ++ []) = 2 + text.length := blockCommentFrom_text h (fun _ hnext => by cases hnext) 2
  have hlex := (@lexToken_block u true [] ('*' :: text ++ []) rfl).1
  rw [List.cons_append, List.drop_succ_cons, List.drop_zero, Bool.not_true, hend] at hlex
  have hskip := @sqliteLexemes_skip u '/' ('*' :: text) [] .comment ?_ (Or.inr rfl)
  · rwa [List.append_nil] at hskip
  · rw [List.cons_append, hlex, List.length_cons]
    congr 1
    omega

end Blanks

theorem spaceChar_of_sqliteSpace {ch : Char} (h : isSqliteSpace ch = true) : spaceChar true ch = true := by
  simp only [isSqliteSpace, isAsciiWhitespace, Bool.or_eq_true, beq_iff_eq] at h
  rcases h with ((((rfl | rfl) | rfl) | rfl) | rfl) | rfl <;> decide

section Words

/-- A word begins with neither of the other ASCII characters. -/
theorem word_ne {ch other : Char} (h : ch = '_' ∨ u.isAlphabetic ch = true) (hascii : isAscii other = true) (halpha : other.isAlpha = false)
    (hother : other ≠ '_') : ch ≠ other := by
  rintro rfl
  rcases h with rfl | h
  · exact hother rfl
  · rw [(u.ascii ch hascii).1, halpha] at h
    cases h

theorem word_not_space {ch : Char} (h : ch = '_' ∨ u.isAlphabetic ch = true) : spaceChar true ch = false := by
  rcases h with rfl | h
  · decide
  · rw [Bool.eq_false_iff]
    intro hspace
    rw [(u.space ch hspace).1] at h
    cases h

theorem lexToken_word {ch : Char} (h : ch = '_' ∨ u.isAlphabetic ch = true) (rest : List Char) :
    lexToken u true [] ch rest = (.word, ((ch :: rest).takeWhile (identifierChar u)).length) := by
  have hne : ∀ other, isAscii other = true → other.isAlpha = false → other ≠ '_' → ch ≠ other := fun _ => word_ne h
  have hcomment : ¬startsComment ch rest := by
    rintro (⟨hch, -⟩ | ⟨hch, -⟩)
    · exact hne '-' (by decide) (by decide) (by decide) hch
    · exact hne '/' (by decide) (by decide) (by decide) hch
  have hquote : ¬(ch = '\'' ∨ ch = '"' ∨ ch = '`' ∨ ch = '[') := by
    rintro (hch | hch | hch | hch)
    · exact hne '\'' (by decide) (by decide) (by decide) hch
    · exact hne '"' (by decide) (by decide) (by decide) hch
    · exact hne '`' (by decide) (by decide) (by decide) hch
    · exact hne '[' (by decide) (by decide) (by decide) hch
  have hdollar : ch ≠ '$' := hne '$' (by decide) (by decide) (by decide)
  have hparameter : ¬(true = true ∧ (ch = '$' ∨ ch = ':' ∨ ch = '@' ∨ ch = '#')) := by
    rintro ⟨-, hch | hch | hch | hch⟩
    · exact hdollar hch
    · exact hne ':' (by decide) (by decide) (by decide) hch
    · exact hne '@' (by decide) (by decide) (by decide) hch
    · exact hne '#' (by decide) (by decide) (by decide) hch
  rw [(lexToken_plain u true [] (word_not_space h) hcomment hquote hparameter hdollar).1, if_pos h]

theorem identifierChar_word {ch : Char} (h : ch = '_' ∨ u.isAlphabetic ch = true) : identifierChar u ch = true := by
  rcases h with rfl | h
  · rfl
  · simp [identifierChar, CharTables.isAlphanumeric, h]

theorem sqliteLexemes_word {text : List Char} (hfirst : first = '_' ∨ u.isAlphabetic first = true)
    (h : ∀ ch ∈ text, identifierChar u ch = true) (hrest : ∀ ch ∈ rest.head?, identifierChar u ch = false) :
    sqliteLexemes u (first :: text ++ rest) = ⟨first :: text, 0, .word⟩ :: sqliteLexemes u rest := by
  have htake : (first :: text ++ rest).takeWhile (identifierChar u) = first :: text :=
    takeWhile_ends (List.forall_mem_cons.2 ⟨identifierChar_word hfirst, h⟩) hrest
  refine sqliteLexemes_token ?_ (by decide) (by decide)
  rw [lexToken_word hfirst, ← List.cons_append, htake, List.length_cons]

theorem identifierChar_of_not_idChar {ch : Char} (h : isIdChar ch = false) : identifierChar u ch = false := by
  simp only [isIdChar, Bool.or_eq_false_iff, Bool.not_eq_false', Char.isAlphanum] at h
  rw [identifierChar_ascii u h.1.1.1, h.1.1.2, h.1.2, h.2.1, h.2.2]
  rfl

end Words

section Quoted

/-- The kind of the token that a quote opens. -/
def quotedKind (quote : Char) : Kind := if quote = '\'' then .literal else .identifier

theorem doubled_eq (close : Char) (text : List Char) :
    Lib.doubled close text = text.flatMap fun ch => if ch = close then [ch, ch] else [ch] := by
  refine congrArg (text.flatMap ·) (funext fun ch => ?_)
  split_ifs with hch
  · rw [hch]
  · rfl

theorem sqliteLexemes_quoted {quote : Char} (hquote : quote = '\'' ∨ quote = '"' ∨ quote = '`' ∨ quote = '[') (content : List Char)
    (hrest : rest.head? ≠ some (closingQuote quote)) :
    sqliteLexemes u ((Nm.quoted quote content).spell ++ rest) =
      ⟨(Nm.quoted quote content).spell, 0, quotedKind quote⟩ :: sqliteLexemes u rest := by
  have hinside : Inside (closingQuote quote) false (Lib.doubled (closingQuote quote) content) := by
    rw [doubled_eq]
    exact inside_doubled (closingQuote quote) content
  have hend := quotedEnd_closed (closingQuote_ne hquote) hinside hrest
    ((Lib.doubled (closingQuote quote) content ++ closingQuote quote :: rest).length + 1) 1
  refine sqliteLexemes_token ?_ (by unfold quotedKind; split <;> decide) (by unfold quotedKind; split <;> decide)
  have hrun := @quoteRun_eq u true [] quote (Lib.doubled (closingQuote quote) content ++ closingQuote quote :: rest)
  rw [show escapes u true [] quote = false from rfl, hend] at hrun
  rw [List.append_assoc, List.singleton_append, (lexToken_quote u true [] hquote _).1]
  rw [List.reverse_nil] at hrun
  rw [hrun, List.length_append, List.length_singleton, quotedKind]
  congr 1
  omega

/-- A quoted name spells its content. -/
theorem unquoted_spell (quote : Char) (content : List Char) :
    Token.unquoted ⟨(Nm.quoted quote content).spell, 0, quotedKind quote⟩ = some content := by
  have hkind : ¬(quotedKind quote ≠ .identifier ∧ ¬(quotedKind quote = .literal ∧ (Nm.quoted quote content).spell.head? = some '\'')) := by
    rintro ⟨hidentifier, hliteral⟩
    by_cases hsingle : quote = '\''
    · exact hliteral ⟨if_pos hsingle, congrArg some hsingle⟩
    · exact hidentifier (if_neg hsingle)
  have hlast : (quote :: (Lib.doubled (closingQuote quote) content ++ [closingQuote quote])).getLast? = some (closingQuote quote) := by
    rw [← List.cons_append, List.getLast?_concat]
  have hne : Lib.doubled (closingQuote quote) content ++ [closingQuote quote] ≠ [] := by simp
  rw [Token.unquoted, if_neg hkind]
  refine (if_pos ⟨hlast, hne⟩).trans (congrArg some ?_)
  rw [List.dropLast_concat, doubled_eq]
  exact undouble_double (closingQuote quote) content

end Quoted

section Symbols

/-- A character that is a lexeme of its own. -/
def isLoneSymbol (ch : Char) : Bool :=
  isAscii ch && !spaceChar true ch && !ch.isAlpha && !(['_', '\'', '"', '`', '[', '$', ':', '@', '#'].contains ch)

def symbolToken (ch : Char) : Token := ⟨[ch], 0, .symbol⟩

theorem sqliteLexemes_symbol {ch : Char} (h : isLoneSymbol ch = true) (hcomment : ¬startsComment ch rest) :
    sqliteLexemes u (ch :: rest) = symbolToken ch :: sqliteLexemes u rest := by
  simp only [isLoneSymbol, Bool.and_eq_true, Bool.not_eq_true', List.contains_eq_mem, decide_eq_false_iff_not, List.mem_cons, List.not_mem_nil, or_false,
    not_or] at h
  obtain ⟨⟨⟨hascii, hspace⟩, halpha⟩, hunder, hsingle, hquote, htick, hbracket, hdollar, hcolon, hat, hhash⟩ := h
  have hword : ¬(ch = '_' ∨ u.isAlphabetic ch = true) := by
    rw [(u.ascii ch hascii).1, halpha]
    exact fun h => h.elim hunder Bool.false_ne_true
  have hlex := (lexToken_plain u true [] hspace hcomment (by simp [hsingle, hquote, htick, hbracket])
    (by simp [hdollar, hcolon, hat, hhash]) hdollar).1
  rw [if_neg hword] at hlex
  exact @sqliteLexemes_token u ch [] rest .symbol hlex (by decide) (by decide)

/-- Symbols that open no comment, one lexeme each. -/
theorem sqliteLexemes_symbols {text : List Char} (h : ∀ ch ∈ text, isLoneSymbol ch = true)
    (hcomment : ∀ front ch back, text = front ++ ch :: back → ¬startsComment ch (back ++ rest)) :
    sqliteLexemes u (text ++ rest) = text.map symbolToken ++ sqliteLexemes u rest := by
  induction text with
  | nil => rfl
  | cons ch text ih =>
    rw [List.forall_mem_cons] at h
    rw [List.cons_append, sqliteLexemes_symbol h.1 (hcomment [] ch text rfl),
      ih h.2 fun front other back heq => hcomment (ch :: front) other back (congrArg (ch :: ·) heq)]
    rfl

end Symbols

section Numbers

/-- Letters, digits and the marks of a number. A minus is followed by a digit. -/
inductive NumberRun : List Char → Prop where
  | nil : NumberRun []
  | char {ch : Char} {rest : List Char} (h : isWordChar ch = true ∨ ch = '.' ∨ ch = '+') (hrest : NumberRun rest) : NumberRun (ch :: rest)
  | minus {digit : Char} {rest : List Char} (hdigit : digit.isDigit = true) (hrest : NumberRun (digit :: rest)) :
      NumberRun ('-' :: digit :: rest)

theorem NumberRun.append {front back : List Char} (h : ∀ ch ∈ front, isWordChar ch = true ∨ ch = '.' ∨ ch = '+') (hback : NumberRun back) :
    NumberRun (front ++ back) := by
  induction front with
  | nil => exact hback
  | cons ch front ih =>
    rw [List.forall_mem_cons] at h
    exact .char h.1 (ih h.2)

theorem NumberRun.tail {ch : Char} {rest : List Char} (h : NumberRun (ch :: rest)) : NumberRun rest := by
  cases h with
  | char _ hrest => exact hrest
  | minus _ hrest => exact hrest

theorem NumberRun.drop {front back : List Char} (h : NumberRun (front ++ back)) : NumberRun back := by
  induction front with
  | nil => exact h
  | cons ch front ih => exact ih h.tail

theorem NumberRun.chars {text : List Char} (h : NumberRun text) :
    ∀ ch ∈ text, isWordChar ch = true ∨ ch = '.' ∨ ch = '+' ∨ ch = '-' := by
  induction h with
  | nil => exact fun _ hch => (List.not_mem_nil hch).elim
  | char h _ ih => exact List.forall_mem_cons.2 ⟨h.imp id (Or.imp id Or.inl), ih⟩
  | minus _ _ ih => exact List.forall_mem_cons.2 ⟨Or.inr (Or.inr (Or.inr rfl)), ih⟩

/-- The lexemes of a number: together they are its text. -/
structure NumberLexemes (text : List Char) (read : List Token) : Prop where
  text : read.flatMap Token.text = text
  kinds : ∀ t ∈ read, t.kind = .word ∨ t.kind = .symbol

theorem NumberLexemes.cons {first : Token} {text whole : List Char} {read : List Token} (h : NumberLexemes text read)
    (hkind : first.kind = .word ∨ first.kind = .symbol) (hwhole : first.text ++ text = whole) : NumberLexemes whole (first :: read) where
  text := by rw [List.flatMap_cons, h.text, hwhole]
  kinds := List.forall_mem_cons.2 ⟨hkind, h.kinds⟩

theorem isLoneSymbol_digit {ch : Char} (h : ch.isDigit = true) : isLoneSymbol ch = true := by
  obtain ⟨hlow, hhigh⟩ := Lib.toNat_of_isDigit h
  have hall : ∀ n < 58, 48 ≤ n → isLoneSymbol (Char.ofNat n) = true := by decide +kernel
  simpa using hall ch.toNat (by omega) hlow

theorem isWordChar_start {ch : Char} (h : isWordChar ch = true) (hdigit : ch.isDigit = false) : ch = '_' ∨ u.isAlphabetic ch = true := by
  have hascii : isAscii ch = true := decide_eq_true (wordChar_lt h)
  rw [(u.ascii ch hascii).1]
  simpa [isWordChar, Char.isAlphanum, hdigit] using h

/-- What follows a word in a number does not go on with it. -/
theorem numberTail_stops (hrest : ∀ ch ∈ rest.head?, isIdChar ch = false) {text : List Char} (h : NumberRun (text.dropWhile isWordChar)) :
    ∀ ch ∈ (text.dropWhile isWordChar ++ rest).head?, identifierChar u ch = false := by
  cases htail : text.dropWhile isWordChar with
  | nil => exact fun ch hch => identifierChar_of_not_idChar (hrest ch hch)
  | cons ch tail =>
    rw [htail] at h
    have hword : isWordChar ch = false := by simpa [htail] using List.head_dropWhile_not isWordChar (l := text) (by simp [htail])
    rintro other hother
    obtain rfl := Option.some.inj hother
    rcases h.chars ch List.mem_cons_self with hch | rfl | rfl | rfl
    · rw [hword] at hch
      cases hch
    · exact identifierChar_ascii u (by decide)
    · exact identifierChar_ascii u (by decide)
    · exact identifierChar_ascii u (by decide)

/-- A number is read in words and single characters. -/
theorem sqliteLexemes_run (hrest : ∀ ch ∈ rest.head?, isIdChar ch = false) (k : ℕ) : ∀ text : List Char, text.length ≤ k → NumberRun text →
    ∃ read, NumberLexemes text read ∧ sqliteLexemes u (text ++ rest) = read ++ sqliteLexemes u rest := by
  induction k with
  | zero =>
    intro text hlen _
    rw [List.length_eq_zero_iff.1 (Nat.le_zero.1 hlen)]
    exact ⟨[], ⟨rfl, fun _ h => (List.not_mem_nil h).elim⟩, rfl⟩
  | succ k ih =>
    intro text hlen hrun
    cases text with
    | nil => exact ⟨[], ⟨rfl, fun _ h => (List.not_mem_nil h).elim⟩, rfl⟩
    | cons ch text =>
      rw [List.length_cons] at hlen
      -- a character on its own
      have hsymbol : isLoneSymbol ch = true → ¬startsComment ch (text ++ rest) →
          ∃ read, NumberLexemes (ch :: text) read ∧ sqliteLexemes u (ch :: text ++ rest) = read ++ sqliteLexemes u rest := by
        intro hsymbol hcomment
        obtain ⟨read, hread, heq⟩ := ih text (by omega) hrun.tail
        refine ⟨symbolToken ch :: read, hread.cons (Or.inr rfl) rfl, ?_⟩
        rw [List.cons_append, sqliteLexemes_symbol hsymbol hcomment, heq]
        rfl
      have hnone : ch ≠ '-' → ch ≠ '/' → ¬startsComment ch (text ++ rest) := by
        rintro hminus hslash (⟨hch, -⟩ | ⟨hch, -⟩)
        · exact hminus hch
        · exact hslash hch
      cases hrun with
      | minus hdigit hmore =>
        refine hsymbol (by decide) ?_
        rintro (⟨-, hnext⟩ | ⟨hch, -⟩)
        · rw [Option.some.inj hnext] at hdigit
          cases hdigit
        · exact absurd hch (by decide)
      | char hch hmore =>
        rcases hch with hword | rfl | rfl
        · cases hdigit : ch.isDigit with
          | true =>
            have hne : ∀ other, other.isDigit = false → ch ≠ other := by
              rintro other hother rfl
              rw [hdigit] at hother
              cases hother
            exact hsymbol (isLoneSymbol_digit hdigit) (hnone (hne '-' (by decide)) (hne '/' (by decide)))
          | false =>
            have hsplit := List.takeWhile_append_dropWhile (p := isWordChar) (l := text)
            have htail := List.length_dropWhile_le isWordChar text
            rw [← hsplit] at hmore
            obtain ⟨read, hread, heq⟩ := ih (text.dropWhile isWordChar) (by omega) hmore.drop
            have hbody : ∀ ch ∈ text.takeWhile isWordChar, identifierChar u ch = true :=
              fun ch hch => identifierChar_of_wordChar (List.mem_takeWhile_imp hch)
            have hstop := @numberTail_stops u rest hrest text hmore.drop
            refine ⟨⟨ch :: text.takeWhile isWordChar, 0, .word⟩ :: read, ?_, ?_⟩
            · exact hread.cons (Or.inl rfl) (congrArg (ch :: ·) hsplit)
            · have hlex := sqliteLexemes_word (isWordChar_start hword hdigit) hbody hstop
              rw [List.cons_append, ← List.append_assoc, hsplit, ← List.cons_append, heq] at hlex
              exact hlex
        · exact hsymbol (by decide) (hnone (by decide) (by decide))
        · exact hsymbol (by decide) (hnone (by decide) (by decide))

theorem isWordChar_hexDigit {ch : Char} (h : isHexDigit ch = true) : isWordChar ch = true := by
  have hlt : ch.toNat < 128 := by
    simp only [isHexDigit, Bool.or_eq_true, decide_eq_true_eq] at h
    rcases h with (hdigit | hlower) | hupper
    · have := Lib.toNat_of_isDigit hdigit
      omega
    · omega
    · omega
  have hall : ∀ n < 128, isHexDigit (Char.ofNat n) = true → isWordChar (Char.ofNat n) = true := by decide +kernel
  simpa using hall ch.toNat hlt (by simpa using h)

theorem isWordChar_digit {ch : Char} (h : (ch.isDigit || ch == '_') = true) : isWordChar ch = true := by
  rw [Bool.or_eq_true] at h
  simp only [isWordChar, Char.isAlphanum, Bool.or_eq_true]
  exact h.elim (fun hdigit => Or.inr (Or.inr hdigit)) Or.inl

theorem DigitRun.append {digits back : List Char} (h : DigitRun digits) (hback : NumberRun back) : NumberRun (digits ++ back) := by
  obtain ⟨hfirst, hmore⟩ := h
  refine NumberRun.append (List.forall_mem_cons.2 ⟨Or.inl (isWordChar_digit ?_), fun ch hch => Or.inl (isWordChar_digit (hmore ch hch))⟩) hback
  rw [hfirst]
  rfl

theorem Exponent.numberRun {text : List Char} (h : Exponent text) : NumberRun text := by
  cases h with
  | none => exact .nil
  | @some mark sign digits hmark hsign hdigits =>
    have hrun : NumberRun digits := by
      have happend := hdigits.append .nil
      rwa [List.append_nil] at happend
    have hsigned : NumberRun (sign ++ digits) := by
      simp only [List.mem_cons, List.not_mem_nil, or_false] at hsign
      rcases hsign with rfl | rfl | rfl
      · exact hrun
      · exact .char (Or.inr (Or.inr rfl)) hrun
      · obtain ⟨hfirst, -⟩ := hdigits
        exact .minus hfirst hrun
    exact .char (Or.inl (by rcases hmark with rfl | rfl <;> decide)) hsigned

/-- A number begins with a digit or a point. -/
theorem SqliteNumber.cases_first {text : List Char} (h : SqliteNumber text) :
    ∃ first more, text = first :: more ∧ (first.isDigit = true ∨ first = '.') ∧ NumberRun more := by
  cases h with
  | @hex mark first more hmark hfirst hmore =>
    refine ⟨'0', mark :: first :: more, rfl, Or.inl rfl, ?_⟩
    have hchars : ∀ ch ∈ more, isWordChar ch = true := by
      intro ch hch
      rcases Bool.or_eq_true_iff.1 (hmore ch hch) with hhex | hunder
      · exact isWordChar_hexDigit hhex
      · rw [beq_iff_eq.1 hunder]
        decide
    have hrun : NumberRun (more ++ []) := NumberRun.append (fun ch hch => Or.inl (hchars ch hch)) .nil
    rw [List.append_nil] at hrun
    exact .char (Or.inl (by rcases hmark with rfl | rfl <;> decide)) (.char (Or.inl (isWordChar_hexDigit hfirst)) hrun)
  | @whole digits exponent hdigits hexponent =>
    have hrun := hdigits.append hexponent.numberRun
    obtain ⟨hfirst, -⟩ := hdigits
    exact ⟨_, _, rfl, Or.inl hfirst, hrun.tail⟩
  | @decimal digits fraction exponent hdigits hfraction hexponent =>
    have htail : NumberRun (fraction ++ exponent) :=
      NumberRun.append (fun ch hch => Or.inl (isWordChar_digit (hfraction ch hch))) hexponent.numberRun
    have hrun := hdigits.append (.char (Or.inr (Or.inl rfl)) htail)
    obtain ⟨hfirst, -⟩ := hdigits
    exact ⟨_, _, rfl, Or.inl hfirst, hrun.tail⟩
  | fraction hdigits hexponent => exact ⟨'.', _, rfl, Or.inr rfl, hdigits.append hexponent.numberRun⟩

theorem sqliteLexemes_number {text : List Char} (h : NumberRun text) (hfirst : first.isDigit = true ∨ first = '.')
    (hrest : ∀ ch ∈ rest.head?, isIdChar ch = false) :
    ∃ read, NumberLexemes text read ∧ sqliteLexemes u (first :: text ++ rest) = symbolToken first :: read ++ sqliteLexemes u rest := by
  obtain ⟨read, hread, heq⟩ := @sqliteLexemes_run u rest hrest text.length text (Nat.le_refl _) h
  have hsymbol : isLoneSymbol first = true := by
    rcases hfirst with hdigit | rfl
    · exact isLoneSymbol_digit hdigit
    · decide
  have hcomment : ¬startsComment first (text ++ rest) := by
    rintro (⟨rfl, -⟩ | ⟨rfl, -⟩)
    · exact hfirst.elim (by decide) (by decide)
    · exact hfirst.elim (by decide) (by decide)
  refine ⟨read, hread, ?_⟩
  rw [List.cons_append, sqliteLexemes_symbol hsymbol hcomment, heq]
  rfl

end Numbers

section Parameters

theorem sqliteNameLen_name {name : List Char} {named : Bool} (h : ParameterName named name) (tail : List Char) : ∀ (hasName : Bool) (pos : ℕ),
    sqliteNameLen u hasName false pos (name ++ tail) = sqliteNameLen u (hasName || named) false (pos + name.length) tail := by
  induction h with
  | nil =>
    intro hasName pos
    rw [Bool.or_false]
    rfl
  | @char ch named rest hch _ ih =>
    intro hasName pos
    have hname : (identifierChar u ch || !isAscii ch) = true := by
      cases hascii : isAscii ch with
      | false => simp
      | true => simpa [isIdChar, identifierChar_ascii u hascii, hascii, Char.isAlphanum] using hch
    rw [List.cons_append, sqliteNameLen, if_pos hname, ih, Bool.true_or, Bool.or_true, List.length_cons, Nat.add_right_comm, Nat.add_assoc]
  | @path named rest _ ih =>
    intro hasName pos
    have hcolon : ¬(identifierChar u ':' || !isAscii ':') = true := by
      rw [identifierChar_ascii u (by decide)]
      decide
    rw [List.cons_append, List.cons_append, sqliteNameLen, if_neg hcolon, if_pos ⟨rfl, rfl⟩, sqliteNameLen, ih, List.length_cons,
      List.length_cons]
    congr 1
    omega

theorem sqliteNameLen_stop (hrest : ∀ ch ∈ rest.head?, isIdChar ch = false ∧ ch ≠ '(') (hpath : rest.take 2 ≠ [':', ':']) (hasName : Bool)
    (pos : ℕ) : sqliteNameLen u hasName false pos rest = pos := by
  cases rest with
  | nil => rfl
  | cons ch rest =>
    obtain ⟨hch, hparen⟩ := hrest ch rfl
    have hname : ¬(identifierChar u ch || !isAscii ch) = true := by
      rw [identifierChar_of_not_idChar hch]
      simp only [isIdChar, Bool.or_eq_false_iff] at hch
      simp [hch.1.1.1]
    have hcolons : ¬(ch = ':' ∧ rest.head? = some ':') := by
      rintro ⟨rfl, hnext⟩
      cases rest with
      | nil => cases hnext
      | cons next rest => exact hpath (by rw [Option.some.inj hnext]; rfl)
    rw [sqliteNameLen, if_neg hname, if_neg hcolons, if_neg (fun h => hparen h.1)]

theorem sqliteSuffixLen_text {suffix : List Char} (h : ∀ ch ∈ suffix, isSqliteSpace ch = false ∧ ch ≠ ')') (rest : List Char) (pos : ℕ) :
    sqliteSuffixLen pos (suffix ++ ')' :: rest) = pos + suffix.length + 1 := by
  induction suffix generalizing pos with
  | nil => rfl
  | cons ch suffix ih =>
    rw [List.forall_mem_cons] at h
    have hspace : ¬isAsciiWhitespace ch = true := by
      rw [(Bool.or_eq_false_iff.1 h.1.1).1]
      exact Bool.false_ne_true
    rw [List.cons_append, sqliteSuffixLen, if_neg hspace, if_neg h.1.2, ih h.2, List.length_cons]
    omega

theorem sqliteLexemes_parameter {sigil : Char} (hsigil : sigil = '$' ∨ sigil = ':' ∨ sigil = '@' ∨ sigil = '#') {body : List Char}
    (h : sqliteNameLen u false false 1 (body ++ rest) = 1 + body.length) :
    sqliteLexemes u (sigil :: body ++ rest) = ⟨sigil :: body, 0, .parameter⟩ :: sqliteLexemes u rest := by
  refine sqliteLexemes_token ?_ (by decide) (by decide)
  have hlex : lexToken u true [] sigil (body ++ rest) = (.parameter, sqliteNameLen u false false 1 (body ++ rest)) := by
    rcases hsigil with rfl | rfl | rfl | rfl
    · rfl
    · rfl
    · rfl
    · rfl
  rw [hlex, h, Nat.add_comm]

end Parameters

section Tokens

/-- The lexemes that a token other than a blank is read in. -/
inductive Lexed : SqliteToken → List Token → Prop where
  | bare {text : List Char} (h : text ≠ [';']) : Lexed (.name (.bare text)) [⟨text, 0, .word⟩]
  | quoted (quote : Char) (content : List Char) : Lexed (.name (.quoted quote content)) [⟨(Nm.quoted quote content).spell, 0, quotedKind quote⟩]
  | number {first : Char} {text : List Char} {read : List Token} (hfirst : first.isDigit = true ∨ first = '.') (hrun : NumberRun text)
      (h : NumberLexemes text read) : Lexed (.number (first :: text)) (symbolToken first :: read)
  | numbered {digits : List Char} (h : ∀ ch ∈ digits, ch.isDigit = true) :
      Lexed (.parameter ('?' :: digits)) (symbolToken '?' :: digits.map symbolToken)
  | named {sigil : Char} {body : List Char} (hsigil : sigil = '$' ∨ sigil = ':' ∨ sigil = '@' ∨ sigil = '#') :
      Lexed (.parameter (sigil :: body)) [⟨sigil :: body, 0, .parameter⟩]
  | blob {mark : Char} {content : List Char} (hmark : mark = 'x' ∨ mark = 'X') :
      Lexed (.blob mark content) [⟨[mark], 0, .word⟩, ⟨(Nm.quoted '\'' content).spell, 0, .literal⟩]
  | symbol {text : List Char} (h : text ∈ SQLITE_SYMBOLS) : Lexed (.symbol text) (text.map symbolToken)

/-- Blanks are no lexemes. -/
theorem sqliteLexemes_blank {token : SqliteToken} (h : token.Before rest) (hblank : token.significant = false) :
    sqliteLexemes u (token.spell ++ rest) = sqliteLexemes u rest := by
  cases h with
  | space hfirst htext =>
    refine sqliteLexemes_spaces (List.forall_mem_cons.2 ⟨?_, fun ch hch => ?_⟩) rest
    · exact spaceChar_of_sqliteSpace (Bool.or_eq_true_iff.2 (Or.inl hfirst))
    · exact spaceChar_of_sqliteSpace (htext ch hch)
  | byteOrderMark => exact sqliteLexemes_space_cons (by decide) rest
  | line htext hrest => exact sqliteLexemes_line htext hrest
  | block htext => exact sqliteLexemes_block htext rest
  | unclosed _ htext =>
    rw [List.append_nil]
    exact sqliteLexemes_unclosed htext
  | _ => cases hblank

theorem symbols_are_lone : ∀ text ∈ SQLITE_SYMBOLS, ∀ ch ∈ text, isLoneSymbol ch = true := by
  have hall : (SQLITE_SYMBOLS.all fun text => text.all isLoneSymbol) = true := by rfl
  exact fun text htext => List.all_eq_true.1 (List.all_eq_true.1 hall text htext)

/-- No comment begins inside a symbol, and only `-` and `/` end in what could begin one. -/
theorem symbols_open_no_comment : ∀ text ∈ SQLITE_SYMBOLS, (∀ tail ∈ text.tails, tail.take 2 ≠ "--".toList ∧ tail.take 2 ≠ "/*".toList) ∧
    (text.getLast? = some '-' → text = ['-']) ∧ (text.getLast? = some '/' → text = ['/']) := by
  decide +kernel

theorem sqliteLexemes_text {text : List Char} (h : text ∈ SQLITE_SYMBOLS)
    (hrest : ∀ ch ∈ rest.head?, text ++ [ch] ∉ SQLITE_SYMBOLS ∧ text ++ [ch] ≠ "--".toList ∧ text ++ [ch] ≠ "/*".toList) :
    sqliteLexemes u (text ++ rest) = text.map symbolToken ++ sqliteLexemes u rest := by
  obtain ⟨hwithin, hminus, hslash⟩ := symbols_open_no_comment text h
  refine sqliteLexemes_symbols (symbols_are_lone text h) fun front ch back heq hcomment => ?_
  cases back with
  | nil =>
    have hlast : text.getLast? = some ch := by rw [heq, List.getLast?_concat]
    rcases hcomment with ⟨rfl, hnext⟩ | ⟨rfl, hnext⟩
    · exact (hrest '-' hnext).2.1 (by rw [hminus hlast]; rfl)
    · exact (hrest '*' hnext).2.2 (by rw [hslash hlast]; rfl)
  | cons next back =>
    have htail : ch :: next :: back ∈ text.tails := (List.mem_tails _ _).2 ⟨front, heq.symm⟩
    obtain ⟨hline, hblock⟩ := hwithin _ htail
    rcases hcomment with ⟨rfl, hnext⟩ | ⟨rfl, hnext⟩
    · exact hline (by rw [Option.some.inj hnext]; rfl)
    · exact hblock (by rw [Option.some.inj hnext]; rfl)

theorem sqliteLexemes_numbered {digits : List Char} (h : ∀ ch ∈ digits, ch.isDigit = true) :
    sqliteLexemes u ('?' :: digits ++ rest) = symbolToken '?' :: digits.map symbolToken ++ sqliteLexemes u rest := by
  have hlone : ∀ ch ∈ '?' :: digits, isLoneSymbol ch = true :=
    List.forall_mem_cons.2 ⟨by decide, fun ch hch => isLoneSymbol_digit (h ch hch)⟩
  have hmarks : ∀ ch ∈ '?' :: digits, ch = '?' ∨ ch.isDigit = true :=
    List.forall_mem_cons.2 ⟨Or.inl rfl, fun ch hch => Or.inr (h ch hch)⟩
  refine sqliteLexemes_symbols hlone fun front ch back heq hcomment => ?_
  have hch := hmarks ch (heq ▸ List.mem_append_right front List.mem_cons_self)
  rcases hcomment with ⟨rfl, -⟩ | ⟨rfl, -⟩
  · exact hch.elim (by decide) (by decide)
  · exact hch.elim (by decide) (by decide)

theorem sqliteNameLen_called {name suffix : List Char} (hname : ParameterName true name)
    (hsuffix : ∀ ch ∈ suffix, isSqliteSpace ch = false ∧ ch ≠ ')') :
    sqliteNameLen u false false 1 (name ++ '(' :: (suffix ++ [')']) ++ rest) = 1 + (name ++ '(' :: (suffix ++ [')'])).length := by
  have hparen : ¬(identifierChar u '(' || !isAscii '(') = true := by
    rw [identifierChar_ascii u (by decide)]
    decide
  rw [List.append_assoc, sqliteNameLen_name hname, List.cons_append, sqliteNameLen, if_neg hparen,
    if_neg (fun h => absurd h.1 (by decide)), if_pos ⟨rfl, rfl⟩, List.append_assoc, List.singleton_append, sqliteSuffixLen_text hsuffix,
    List.length_append, List.length_cons, List.length_append, List.length_singleton]
  omega

theorem sqliteLexemes_blob {mark : Char} (hmark : mark = 'x' ∨ mark = 'X') (content : List Char) (hrest : rest.head? ≠ some '\'') :
    sqliteLexemes u ((SqliteToken.blob mark content).spell ++ rest) =
      ⟨[mark], 0, .word⟩ :: ⟨(Nm.quoted '\'' content).spell, 0, .literal⟩ :: sqliteLexemes u rest := by
  have hword : mark = '_' ∨ u.isAlphabetic mark = true := by
    rcases hmark with rfl | rfl
    · exact isWordChar_start (by decide) (by decide)
    · exact isWordChar_start (by decide) (by decide)
  have hstop : ∀ ch ∈ ((Nm.quoted '\'' content).spell ++ rest).head?, identifierChar u ch = false := by
    rintro ch hch
    rw [← Option.some.inj hch]
    exact identifierChar_ascii u (by decide)
  have hlex := @sqliteLexemes_word u mark _ [] hword (fun _ h => (List.not_mem_nil h).elim) hstop
  rw [sqliteLexemes_quoted (Or.inl rfl) content hrest] at hlex
  exact hlex

theorem lexed_token {token : SqliteToken} (h : token.Before rest) (hsignificant : token.significant = true)
    (hplain : ∀ text, token = .name (.bare text) →
      (∀ ch ∈ text.head?, ch = '_' ∨ u.isAlphabetic ch = true) ∧ ∀ ch ∈ text, identifierChar u ch = true) :
    ∃ read, Lexed token read ∧ sqliteLexemes u (token.spell ++ rest) = read ++ sqliteLexemes u rest := by
  cases h with
  | @bare ch text rest hfirst htext hrest hblob =>
    obtain ⟨hword, hchars⟩ := hplain _ rfl
    have hne : ch :: text ≠ [';'] := by
      rintro heq
      rw [(List.cons.inj heq).1] at hfirst
      exact absurd hfirst (by decide)
    refine ⟨_, .bare hne, ?_⟩
    exact sqliteLexemes_word (hword ch rfl) (List.forall_mem_cons.1 hchars).2 fun ch hch => identifierChar_of_not_idChar (hrest ch hch)
  | quoted hquote _ hrest => exact ⟨_, .quoted _ _, sqliteLexemes_quoted hquote _ hrest⟩
  | number hnumber hrest =>
    obtain ⟨first, more, rfl, hfirst, hrun⟩ := hnumber.cases_first
    obtain ⟨read, hread, heq⟩ := @sqliteLexemes_number u first rest more hrun hfirst fun ch hch => (hrest ch hch).1
    exact ⟨_, .number hfirst hrun hread, heq⟩
  | numbered hdigits _ =>
    exact ⟨_, .numbered hdigits, sqliteLexemes_numbered hdigits⟩
  | @named sigil name rest hsigil hname hrest hpath =>
    refine ⟨_, .named hsigil, sqliteLexemes_parameter hsigil ?_⟩
    rw [sqliteNameLen_name hname, sqliteNameLen_stop hrest hpath]
  | called hsigil hname hsuffix =>
    exact ⟨_, .named hsigil, sqliteLexemes_parameter hsigil (sqliteNameLen_called hname hsuffix)⟩
  | blob hmark hrest => exact ⟨_, .blob hmark, sqliteLexemes_blob hmark _ hrest⟩
  | symbol htext hrest _ => exact ⟨_, .symbol htext, sqliteLexemes_text htext hrest⟩
  | _ => cases hsignificant

/-- A script is read token by token. -/
theorem lexed_reads {text : List Char} {tokens : List SqliteToken} (h : SqliteReads text tokens)
    (hplain : ∀ name, .name (.bare name) ∈ tokens →
      (∀ ch ∈ name.head?, ch = '_' ∨ u.isAlphabetic ch = true) ∧ ∀ ch ∈ name, identifierChar u ch = true) :
    ∃ reads, List.Forall₂ Lexed (tokens.filter SqliteToken.significant) reads ∧ sqliteLexemes u text = reads.flatten := by
  induction h with
  | nil => exact ⟨[], .nil, rfl⟩
  | @cons token rest tokens hbefore _ ih =>
    obtain ⟨reads, hreads, heq⟩ := ih fun name hname => hplain name (List.mem_cons_of_mem _ hname)
    cases hsignificant : token.significant with
    | false =>
      rw [List.filter_cons_of_neg (by simp [hsignificant]), sqliteLexemes_blank hbefore hsignificant]
      exact ⟨reads, hreads, heq⟩
    | true =>
      obtain ⟨read, hread, hlex⟩ := lexed_token hbefore hsignificant fun name hname => hplain name (hname ▸ List.mem_cons_self)
      rw [List.filter_cons_of_pos hsignificant, hlex, heq]
      exact ⟨read :: reads, .cons hread hreads, rfl⟩

end Tokens

end

end TideOrm
