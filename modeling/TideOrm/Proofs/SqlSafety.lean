import TideOrm.Sanity.SqlLexer

/-! What the filter of raw fragments accepts, as the lexer reads it. The two scans agree
on every quoted run, since the filter refuses a backslash before a quote. They part only
in a token that is not a quoted one and yet holds a quote: a bracketed identifier with
`]]` in it, a dollar-quoted string right after a digit, or a SQLite parameter with a
parenthesized suffix. -/

namespace TideOrm

variable {u : CharTables}

section Accepted

variable {ch : Char} {rest : List Char} {previous : Option Char}

/-- A quoted run has to be closed, without a backslash before a quote in it. -/
theorem findForbiddenFrom_quote (hq : isQuote ch = true) :
    findForbiddenFrom u 0 previous (ch :: rest) = none ↔
      ∃ n, quotedRun ch .rejectAmbiguous (ch :: rest) = (n, .closed) ∧
        findForbiddenFrom u (n - 1) (some ch) rest = none := by
  simp only [isQuote, Bool.or_eq_true, beq_iff_eq, or_assoc] at hq
  rcases hrun : quotedRun ch .rejectAmbiguous (ch :: rest) with ⟨n, run⟩
  by_cases hsingle : ch = '\''
  · simp only [findForbiddenFrom, if_pos hsingle, consumeQuotedRun, hrun]
    cases run <;> simp
  · simp only [findForbiddenFrom, if_neg hsingle, if_pos (hq.resolve_left hsingle), consumeQuotedRun, hrun]
    cases run <;> simp

/-- Any other character is stepped over, unless it begins something forbidden. -/
theorem findForbiddenFrom_plain (hq : isQuote ch = false) :
    findForbiddenFrom u 0 previous (ch :: rest) = none ↔
      ¬ (ch = '$' ∧ startsDollarQuote u previous (ch :: rest) = true) ∧
      ¬ (ch = '[' ∧ bracketHoldsQuote (ch :: rest) = true) ∧ ch ≠ ';' ∧ ch ≠ '\x00' ∧ ch ≠ '#' ∧
      ¬ (ch = '-' ∧ rest.head? = some '-') ∧ ¬ (ch = '/' ∧ rest.head? = some '*') ∧
      ¬ (ch = '*' ∧ rest.head? = some '/') ∧ findForbiddenFrom u 0 (some ch) rest = none := by
  simp only [isQuote, Bool.or_eq_false_iff, beq_eq_false_iff_ne] at hq
  obtain ⟨⟨h1, h2⟩, h3⟩ := hq
  simp only [findForbiddenFrom, if_neg h1, h2, h3, or_self, if_false]
  constructor
  · intro h
    split_ifs at h with h4 h5 h6 h7 h8 h9 h10 h11
    exact ⟨h4, h5, h6, h7, h8, h9, h10, h11, h⟩
  · rintro ⟨h4, h5, h6, h7, h8, h9, h10, h11, h⟩
    rw [if_neg h4, if_neg h5, if_neg h6, if_neg h7, if_neg h8, if_neg h9, if_neg h10, if_neg h11]
    exact h

/-- The filter's scan finds nothing in `rest`, whatever came before. -/
def Accepted (u : CharTables) (rest : List Char) : Prop :=
  ∃ previous, findForbiddenFrom u 0 previous rest = none

theorem accepted_cons (hq : isQuote ch = false) (h : Accepted u (ch :: rest)) :
    Accepted u rest ∧ ch ≠ ';' ∧ ch ≠ '#' ∧ ¬ (ch = '-' ∧ rest.head? = some '-') ∧
      ¬ (ch = '/' ∧ rest.head? = some '*') := by
  obtain ⟨previous, h⟩ := h
  obtain ⟨-, -, hsemi, -, hhash, hline, hblock, -, hrest⟩ := (findForbiddenFrom_plain hq).1 h
  exact ⟨⟨some ch, hrest⟩, hsemi, hhash, hline, hblock⟩

theorem accepted_quote (hq : isQuote ch = true) (h : Accepted u (ch :: rest)) :
    ∃ n, quotedRun ch .rejectAmbiguous (ch :: rest) = (n, .closed) ∧ 1 < n ∧
      Accepted u ((ch :: rest).drop n) := by
  obtain ⟨previous, h⟩ := h
  obtain ⟨n, hrun, hrest⟩ := (findForbiddenFrom_quote hq).1 h
  obtain ⟨h1, -⟩ := quotedEnd_closed_bounds hrun
  obtain ⟨previous', hskip⟩ := findForbiddenFrom_skip u rest (n - 1) (some ch)
  refine ⟨n, hrun, h1, previous', ?_⟩
  obtain ⟨m, rfl⟩ : ∃ m, n = m + 1 := ⟨n - 1, by omega⟩
  rw [List.drop_succ_cons, ← hrest, hskip]
  rfl

/-- The scan steps over text without quotes. -/
theorem accepted_append {text : List Char} (hq : text.any isQuote = false) (h : Accepted u (text ++ rest)) :
    Accepted u rest := by
  induction text with
  | nil => exact h
  | cons ch text ih =>
    rw [List.any_cons, Bool.or_eq_false_iff] at hq
    exact ih hq.2 (accepted_cons hq.1 h).1

end Accepted

section Trim

/-- A character that is no part of anything the filter looks for. -/
def Inert (ch : Char) : Prop :=
  isQuote ch = false ∧ ch ≠ '$' ∧ ch ≠ ']' ∧ ch ≠ '-' ∧ ch ≠ '*' ∧ ch ≠ '/' ∧ ch ≠ '[' ∧ ch ≠ ';' ∧
    ch ≠ '\x00' ∧ ch ≠ '#'

theorem inert_of_isWhitespace {ch : Char} (h : isWhitespace ch = true) : Inert ch := by
  refine ⟨?_, ?_, ?_, ?_, ?_, ?_, ?_, ?_, ?_, ?_⟩
  · rw [Bool.eq_false_iff]
    intro hq
    simp only [isQuote, Bool.or_eq_true, beq_iff_eq] at hq
    rcases hq with (rfl | rfl) | rfl <;> revert h <;> decide
  all_goals
    rintro rfl
    revert h
    decide

theorem findForbiddenFrom_inert {ch : Char} (h : Inert ch) (previous : Option Char)
    (rest : List Char) : findForbiddenFrom u 0 previous (ch :: rest) = none ↔
      findForbiddenFrom u 0 (some ch) rest = none := by
  obtain ⟨hq, h1, -, h2, h3, h4, h5, h6, h7, h8⟩ := h
  rw [findForbiddenFrom_plain hq]
  simp [h1, h2, h3, h4, h5, h6, h7, h8]

theorem accepted_inert {tail rest : List Char} (h : ∀ ch ∈ tail, Inert ch)
    (hrest : ∀ previous, findForbiddenFrom u 0 previous rest = none) :
    ∀ previous, findForbiddenFrom u 0 previous (tail ++ rest) = none := by
  induction tail with
  | nil => exact hrest
  | cons ch tail ih =>
    intro previous
    rw [List.cons_append, findForbiddenFrom_inert (h ch List.mem_cons_self)]
    exact ih (fun c hc => h c (List.mem_cons_of_mem _ hc)) (some ch)

variable {ch : Char} {rest tail : List Char} (htail : ∀ ch ∈ tail, Inert ch)

include htail

theorem head?_append_inert {next : Char} (hnext : ¬ Inert next)
    (h : (rest ++ tail).head? = some next) : rest.head? = some next := by
  cases rest with
  | cons _ _ => exact h
  | nil => exact absurd (htail next (List.mem_of_mem_head? h)) hnext

theorem startsDollarQuote_append {previous : Option Char}
    (h : startsDollarQuote u previous (ch :: (rest ++ tail)) = true) :
    startsDollarQuote u previous (ch :: rest) = true := by
  have htake : tail.takeWhile (fun ch => ch != '$') = tail := by
    rw [List.takeWhile_eq_self_iff]
    intro c hc
    obtain ⟨-, hne, -⟩ := htail c hc
    simpa using hne
  simp only [startsDollarQuote, List.drop_succ_cons, List.drop_zero, List.takeWhile_append] at h ⊢
  by_cases hlen : (rest.takeWhile fun ch => ch != '$').length = rest.length
  · simp [hlen, htake] at h
  · have hle := (List.takeWhile_prefix (p := fun ch : Char => ch != '$') (l := rest)).length_le
    rw [if_neg hlen, List.take_succ_cons, List.take_append_of_le_length (by omega)] at h
    rw [List.take_succ_cons]
    simp only [Bool.and_eq_true, decide_eq_true_eq] at h ⊢
    exact ⟨h.1, hlen, h.2.2⟩

theorem bracketHoldsQuote_append (h : bracketHoldsQuote (ch :: (rest ++ tail)) = true) :
    bracketHoldsQuote (ch :: rest) = true := by
  have hnone : ∀ l : List Char, l ⊆ tail → l.any isQuote = false := by
    intro l hl
    rw [List.any_eq_false]
    intro c hc
    simp [(htail c (hl hc)).1]
  simp only [bracketHoldsQuote, List.drop_succ_cons, List.drop_zero, List.takeWhile_append] at h ⊢
  split_ifs at h with hlen
  · have htake := (List.takeWhile_prefix (p := fun ch : Char => ch != ']') (l := rest)).eq_of_length hlen
    rw [List.any_append, hnone _ (List.takeWhile_subset _), Bool.or_false] at h
    rwa [htake]
  · exact h

/-- Inert characters after an accepted text. -/
theorem findForbiddenFrom_append : ∀ (text : List Char) (skip : ℕ) (previous : Option Char),
    findForbiddenFrom u skip previous text = none → findForbiddenFrom u skip previous (text ++ tail) = none := by
  intro text
  induction text with
  | nil =>
    intro skip previous _
    obtain ⟨previous', hskip⟩ := findForbiddenFrom_skip u tail skip previous
    have hnone : findForbiddenFrom u 0 previous' (tail.drop skip ++ []) = none :=
      accepted_inert (fun c hc => htail c (List.mem_of_mem_drop hc)) (fun _ => rfl) previous'
    rw [List.nil_append, hskip]
    simpa using hnone
  | cons ch rest ih =>
    intro skip previous h
    cases skip with
    | succ skip => exact ih skip _ h
    | zero =>
      rw [List.cons_append]
      cases hq : isQuote ch with
      | true =>
        rw [findForbiddenFrom_quote hq] at h ⊢
        obtain ⟨n, hrun, hrest⟩ := h
        refine ⟨n, quotedEnd_append ?_ hrun, ih _ _ hrest⟩
        -- the tail does not double the closing quote
        intro hhead
        have hwhite := (htail ch (List.mem_of_mem_head? hhead)).1
        rw [hq] at hwhite
        cases hwhite
      | false =>
        rw [findForbiddenFrom_plain hq] at h ⊢
        obtain ⟨hdollar, hbracket, hsemi, hnul, hhash, hline, hopen, hclose, hrest⟩ := h
        refine ⟨fun hc => hdollar ⟨hc.1, startsDollarQuote_append htail hc.2⟩,
          fun hc => hbracket ⟨hc.1, bracketHoldsQuote_append htail hc.2⟩, hsemi, hnul, hhash,
          fun hc => hline ⟨hc.1, head?_append_inert htail (by simp [Inert]) hc.2⟩,
          fun hc => hopen ⟨hc.1, head?_append_inert htail (by simp [Inert]) hc.2⟩,
          fun hc => hclose ⟨hc.1, head?_append_inert htail (by simp [Inert]) hc.2⟩, ih _ _ hrest⟩

omit htail

/-- A text accepted at the start of a fragment is accepted anywhere. -/
theorem findForbiddenFrom_previous {text : List Char} (h : findForbiddenFrom u 0 none text = none)
    (previous : Option Char) : findForbiddenFrom u 0 previous text = none := by
  cases text with
  | nil => rfl
  | cons ch rest =>
    cases hq : isQuote ch with
    | true =>
      rw [findForbiddenFrom_quote hq] at h ⊢
      exact h
    | false =>
      rw [findForbiddenFrom_plain hq] at h ⊢
      refine ⟨fun hc => h.1 ⟨hc.1, ?_⟩, h.2⟩
      have hstart := hc.2
      simp only [startsDollarQuote, Bool.and_eq_true] at hstart ⊢
      exact ⟨rfl, hstart.2⟩

/-- The whole fragment, with the white space around it, is accepted too. -/
theorem accepted_of_trim {sql : List Char} (h : findForbiddenRawSqlToken u (trim sql) = none) :
    Accepted u sql := by
  have hsplit : sql = sql.takeWhile isWhitespace ++
      (trim sql ++ ((sql.dropWhile isWhitespace).reverse.takeWhile isWhitespace).reverse) := by
    rw [trim, ← List.reverse_append, List.takeWhile_append_dropWhile, List.reverse_reverse,
      List.takeWhile_append_dropWhile]
  have htrail : findForbiddenFrom u 0 none
      (trim sql ++ ((sql.dropWhile isWhitespace).reverse.takeWhile isWhitespace).reverse) = none :=
    findForbiddenFrom_append (fun c hc => inert_of_isWhitespace (List.mem_takeWhile_imp (List.mem_reverse.1 hc))) _ _ _ h
  rw [hsplit]
  exact ⟨none, accepted_inert (fun c hc => inert_of_isWhitespace (List.mem_takeWhile_imp hc)) (findForbiddenFrom_previous htrail) none⟩

theorem accepted_of_validate {kind : String} {sql : List Char} (h : validateRawSqlFragment u kind sql = .ok ()) :
    Accepted u sql := by
  unfold validateRawSqlFragment at h
  dsimp only at h
  split_ifs at h
  cases hfind : findForbiddenRawSqlToken u (trim sql) with
  | none => exact accepted_of_trim hfind
  | some reason =>
    rw [hfind] at h
    cases h

end Trim

section Hidden

variable (u)

def noQuote (text : List Char) : Bool := !text.any isQuote

/-- No bracketed identifier, dollar-quoted string or SQLite parameter of the text holds a
quote; the first `skip` characters belong to what came before. -/
def hidesNoQuoteFrom (sqlite : Bool) : ℕ → List Char → Bool
  | _, [] => true
  | skip + 1, _ :: rest => hidesNoQuoteFrom sqlite skip rest
  | 0, first :: rest =>
    let sql := first :: rest
    if isQuote first then hidesNoQuoteFrom sqlite (quotedLen sql first false - 1) rest
    else if first = '[' then
      let len := quotedLen sql first false
      noQuote (sql.take len) && hidesNoQuoteFrom sqlite (len - 1) rest
    else if sqlite ∧ (first = '$' ∨ first = ':' ∨ first = '@' ∨ first = '#') then
      let len := sqliteParameterLen u sql
      noQuote (sql.take len) && hidesNoQuoteFrom sqlite (len - 1) rest
    else if first = '$' then
      match dollarLen u sql with
      | some len => noQuote (sql.take len) && hidesNoQuoteFrom sqlite (len - 1) rest
      | none => hidesNoQuoteFrom sqlite 0 rest
    else if first = '_' ∨ u.isAlphabetic first then
      hidesNoQuoteFrom sqlite ((sql.takeWhile (identifierChar u)).length - 1) rest
    else hidesNoQuoteFrom sqlite 0 rest

def hidesNoQuote (sqlite : Bool) (sql : List Char) : Bool := hidesNoQuoteFrom u sqlite 0 sql

theorem hidesNoQuoteFrom_skip (sqlite : Bool) : ∀ (rest : List Char) (skip : ℕ),
    hidesNoQuoteFrom u sqlite skip rest = hidesNoQuoteFrom u sqlite 0 (rest.drop skip) := by
  intro rest
  induction rest with
  | nil => intro skip; cases skip <;> rfl
  | cons ch rest ih =>
    intro skip
    cases skip with
    | zero => rfl
    | succ skip => exact ih skip

variable {u}

/-- Text each character of which is stepped over alone. -/
theorem hidesNoQuoteFrom_append {sqlite : Bool} {text rest : List Char}
    (htext : ∀ ch ∈ text, isQuote ch = false ∧ ch ≠ '[' ∧ ch ≠ '$' ∧ ch ≠ ':' ∧ ch ≠ '@' ∧ ch ≠ '#' ∧ ch ≠ '_' ∧
      u.isAlphabetic ch = false) (h : hidesNoQuoteFrom u sqlite 0 (text ++ rest) = true) :
    hidesNoQuoteFrom u sqlite 0 rest = true := by
  induction text with
  | nil => exact h
  | cons ch text ih =>
    obtain ⟨h1, h2, h3, h4, h5, h6, h7, h8⟩ := htext ch List.mem_cons_self
    refine ih (fun c hc => htext c (List.mem_cons_of_mem _ hc)) ?_
    rw [List.cons_append, hidesNoQuoteFrom] at h
    simpa [h1, h2, h3, h4, h5, h6, h7, h8] using h

end Hidden

section Tokens

/-- A quoted token is closed, however backslashes are read. -/
def ClosedText (text : List Char) : Prop :=
  ∀ quote, text.head? = some quote → isQuote quote = true →
    ∀ mode, quotedRun quote mode text = (text.length, .closed)

/-- Neither a comment nor a separator nor an unterminated quoted token. -/
structure HarmlessToken (kind : Kind) (text : List Char) : Prop where
  comment : kind ≠ .comment
  separator : ¬ (kind = .symbol ∧ text = [';'])
  closed : ClosedText text

theorem harmless_of_noQuote {kind : Kind} {text : List Char} (hkind : kind ≠ .comment)
    (hsep : ¬ (kind = .symbol ∧ text = [';'])) (hq : text.any isQuote = false) : HarmlessToken kind text := by
  refine ⟨hkind, hsep, fun quote hhead hquote => ?_⟩
  have := List.any_eq_false.1 hq quote (List.mem_of_mem_head? hhead)
  exact absurd hquote this

variable {sqlite : Bool} {before : List Char} {first : Char} {rest : List Char}

theorem closed_take {n : ℕ} (hquote : isQuote first = true)
    (hrun : quotedRun first .rejectAmbiguous (first :: rest) = (n, .closed)) (mode : EscapeMode) :
    quotedRun first mode (first :: rest) = (n, .closed) ∧
      quotedRun first mode ((first :: rest).take n) = (((first :: rest).take n).length, .closed) := by
  have hslash : first ≠ '\\' := by
    rintro rfl
    revert hquote
    decide
  obtain ⟨hpos, hle⟩ := quotedEnd_closed_bounds hrun
  obtain ⟨hd, hb⟩ := quotedEnd_modes hslash hrun
  have hmode : quotedRun first mode (first :: rest) = (n, .closed) := by
    cases mode with
    | doubled => exact hd
    | backslash => exact hb
    | rejectAmbiguous => exact hrun
  have hlen : ((first :: rest).take n).length = n := by
    rw [List.length_take]
    simp only [List.drop_succ_cons, List.drop_zero] at hle
    simp only [List.length_cons]
    omega
  refine ⟨hmode, ?_⟩
  obtain ⟨m, rfl⟩ : ∃ m, n = m + 1 := ⟨n - 1, by omega⟩
  rw [hlen, quotedRun, hlen]
  exact quotedEnd_split hmode (m + 1)

theorem drop_cons_sub {len : ℕ} (hlen : 1 ≤ len) : rest.drop (len - 1) = (first :: rest).drop len := by
  obtain ⟨m, rfl⟩ : ∃ m, len = m + 1 := ⟨len - 1, by omega⟩
  rfl

/-- What a token leaves when the two scans still agree after it. -/
structure Agrees (u : CharTables) (sqlite : Bool) (kind : Kind) (len : ℕ) (sql : List Char) : Prop where
  pos : 1 ≤ len
  harmless : HarmlessToken kind (sql.take len)
  accepted : Accepted u (sql.drop len)
  hides : hidesNoQuoteFrom u sqlite 0 (sql.drop len) = true
  noQuote : sql.head?.any isQuote = false → (sql.take len).any isQuote = false

/-- A token without quotes. -/
theorem agrees_of_noQuote {kind : Kind} {len : ℕ} {sql : List Char} (hpos : 1 ≤ len) (hkind : kind ≠ .comment)
    (hsep : ¬ (kind = .symbol ∧ sql.take len = [';'])) (hq : (sql.take len).any isQuote = false)
    (hacc : Accepted u sql) (hhide : hidesNoQuoteFrom u sqlite 0 (sql.drop len) = true) :
    Agrees u sqlite kind len sql := by
  refine ⟨hpos, harmless_of_noQuote hkind hsep hq, accepted_append hq ?_, hhide, fun _ => hq⟩
  rwa [List.take_append_drop]

theorem agrees_quoted {len : ℕ} {kind : Kind} {escaped : Bool} (hquote : isQuote first = true)
    (hkind : kind ≠ .comment) (hkind' : kind ≠ .symbol)
    (hlen : len = quotedLen (first :: rest) first escaped) (hacc : Accepted u (first :: rest))
    (hhide : hidesNoQuoteFrom u sqlite 0 (first :: rest) = true) : Agrees u sqlite kind len (first :: rest) := by
  obtain ⟨n, hrun, hpos, hrest⟩ := accepted_quote hquote hacc
  have hclosed := closed_take hquote hrun
  have hbracket : first ≠ '[' := by
    rintro rfl
    revert hquote
    decide
  have hquotedLen : ∀ backslash, quotedLen (first :: rest) first backslash = n := by
    intro backslash
    rw [quotedLen, if_neg hbracket, (hclosed _).1]
  rw [hquotedLen] at hlen
  subst hlen
  refine ⟨hpos.le, ⟨hkind, fun h => hkind' h.1, ?_⟩, hrest, ?_, fun hno => by simp [hquote] at hno⟩
  · intro quote hhead _ mode
    obtain ⟨m, rfl⟩ : ∃ m, len = m + 1 := ⟨len - 1, by omega⟩
    rw [List.take_succ_cons, List.head?_cons] at hhead
    obtain rfl := Option.some.inj hhead
    exact (hclosed mode).2
  · simp only [hidesNoQuoteFrom, hquote, if_true, hquotedLen] at hhide
    rwa [hidesNoQuoteFrom_skip, drop_cons_sub hpos.le] at hhide

theorem spaceChar_plain {ch : Char} (h : spaceChar sqlite ch = true) :
    isQuote ch = false ∧ ch ≠ '[' ∧ ch ≠ '$' ∧ ch ≠ ':' ∧ ch ≠ '@' ∧ ch ≠ '#' ∧ ch ≠ '_' ∧
      u.isAlphabetic ch = false := by
  have htrue : spaceChar true ch = true := by
    cases sqlite with
    | true => exact h
    | false => simp_all [spaceChar]
  refine ⟨?_, ?_, ?_, ?_, ?_, ?_, ?_, (u.space ch htrue).1⟩
  · rw [Bool.eq_false_iff]
    intro hq
    simp only [isQuote, Bool.or_eq_true, beq_iff_eq] at hq
    rcases hq with (rfl | rfl) | rfl <;> revert htrue <;> decide
  all_goals
    rintro rfl
    revert htrue
    decide

theorem isDigit_plain {ch : Char} (h : ch.isDigit = true) :
    isQuote ch = false ∧ ch ≠ '[' ∧ ch ≠ '$' ∧ ch ≠ ':' ∧ ch ≠ '@' ∧ ch ≠ '#' ∧ ch ≠ '_' ∧
      u.isAlphabetic ch = false := by
  have hbounds : 48 ≤ ch.toNat ∧ ch.toNat ≤ 57 := by
    simpa [Char.isDigit, UInt32.le_iff_toNat_le] using h
  have hascii : isAscii ch = true := by
    simp only [isAscii, decide_eq_true_eq]
    omega
  refine ⟨?_, ?_, ?_, ?_, ?_, ?_, ?_, ?_⟩
  · rw [Bool.eq_false_iff]
    intro hq
    simp only [isQuote, Bool.or_eq_true, beq_iff_eq] at hq
    rcases hq with (rfl | rfl) | rfl <;> revert h <;> decide
  · rintro rfl; revert h; decide
  · rintro rfl; revert h; decide
  · rintro rfl; revert h; decide
  · rintro rfl; revert h; decide
  · rintro rfl; revert h; decide
  · rintro rfl; revert h; decide
  · rw [(u.ascii ch hascii).1, Bool.eq_false_iff]
    intro halpha
    have := isAlpha_bounds halpha
    omega

theorem any_isQuote_false {text : List Char} (h : ∀ ch ∈ text, isQuote ch = false) : text.any isQuote = false := by
  rw [List.any_eq_false]
  intro ch hch
  simp [h ch hch]

theorem mem_take_takeWhile {p : Char → Bool} {l : List Char} {ch : Char}
    (h : ch ∈ l.take (l.takeWhile p).length) : p ch = true := by
  rw [← List.prefix_iff_eq_take.1 (List.takeWhile_prefix p)] at h
  exact List.mem_takeWhile_imp h

/-- A run that the condition checks for quotes. -/
theorem agrees_checked {kind : Kind} {len : ℕ} (hpos : 1 ≤ len) (hkind : kind ≠ .comment) (hkind' : kind ≠ .symbol)
    (hacc : Accepted u (first :: rest))
    (hhide : (noQuote ((first :: rest).take len) && hidesNoQuoteFrom u sqlite (len - 1) rest) = true) :
    Agrees u sqlite kind len (first :: rest) := by
  rw [Bool.and_eq_true, hidesNoQuoteFrom_skip, drop_cons_sub hpos] at hhide
  exact agrees_of_noQuote hpos hkind (fun h => hkind' h.1) (by simpa [noQuote] using hhide.1) hacc hhide.2

theorem agrees_space (hspace : spaceChar sqlite first = true) (hacc : Accepted u (first :: rest))
    (hhide : hidesNoQuoteFrom u sqlite 0 (first :: rest) = true) :
    Agrees u sqlite .space ((first :: rest).takeWhile (spaceChar sqlite)).length (first :: rest) := by
  refine agrees_of_noQuote (takeWhile_pos hspace rest) (by decide) (by simp) ?_ hacc ?_
  · exact any_isQuote_false fun ch hch => (spaceChar_plain (u := u) (mem_take_takeWhile hch)).1
  · rw [← List.take_append_drop ((first :: rest).takeWhile (spaceChar sqlite)).length (first :: rest)] at hhide
    exact hidesNoQuoteFrom_append (fun ch hch => spaceChar_plain (mem_take_takeWhile hch)) hhide

theorem agrees_word (hplain : isQuote first = false ∧ first ≠ '[' ∧ first ≠ '$' ∧
      ¬ (sqlite = true ∧ (first = '$' ∨ first = ':' ∨ first = '@' ∨ first = '#')))
    (hword : first = '_' ∨ u.isAlphabetic first = true) (hacc : Accepted u (first :: rest))
    (hhide : hidesNoQuoteFrom u sqlite 0 (first :: rest) = true) :
    Agrees u sqlite .word ((first :: rest).takeWhile (identifierChar u)).length (first :: rest) := by
  obtain ⟨hq, hbracket, hdollar, hparameter⟩ := hplain
  have hfirst : identifierChar u first = true := by
    rcases hword with rfl | halpha
    · rfl
    · simp [identifierChar, CharTables.isAlphanumeric, halpha]
  have hpos := takeWhile_pos hfirst rest
  refine agrees_of_noQuote hpos (by decide) (by simp) ?_ hacc ?_
  · exact any_isQuote_false fun ch hch => identifierChar_not_quote u (mem_take_takeWhile hch)
  · simp only [hidesNoQuoteFrom, hq, Bool.false_eq_true, if_false, if_neg hbracket, if_neg hparameter,
      if_neg hdollar, if_pos hword] at hhide
    rwa [hidesNoQuoteFrom_skip, drop_cons_sub hpos] at hhide

/-- A placeholder, or a `$` alone. -/
theorem agrees_dollar (hsqlite : sqlite = false) (hdollar : dollarLen u ('$' :: rest) = none)
    (hacc : Accepted u ('$' :: rest)) (hhide : hidesNoQuoteFrom u sqlite 0 ('$' :: rest) = true) (kind : Kind)
    (hkind : kind ≠ .comment) :
    Agrees u sqlite kind (1 + (rest.takeWhile Char.isDigit).length) ('$' :: rest) := by
  have hlen : ('$' :: rest).take (1 + (rest.takeWhile Char.isDigit).length) =
      '$' :: rest.take (rest.takeWhile Char.isDigit).length := by
    rw [Nat.add_comm, List.take_succ_cons]
  have hdrop : ('$' :: rest).drop (1 + (rest.takeWhile Char.isDigit).length) =
      rest.drop (rest.takeWhile Char.isDigit).length := by
    rw [Nat.add_comm, List.drop_succ_cons]
  refine agrees_of_noQuote (by omega) hkind ?_ ?_ hacc ?_
  · rw [hlen]
    rintro ⟨-, heq⟩
    have := (List.cons.inj heq).1
    revert this
    decide
  · rw [hlen, List.any_cons]
    have hdigits : (rest.take (rest.takeWhile Char.isDigit).length).any isQuote = false :=
      any_isQuote_false fun ch hch => (isDigit_plain (u := u) (mem_take_takeWhile hch)).1
    rw [hdigits]
    rfl
  · have hrest : hidesNoQuoteFrom u sqlite 0 rest = true := by
      simpa [hidesNoQuoteFrom, isQuote, hsqlite, hdollar] using hhide
    rw [hdrop]
    rw [← List.take_append_drop (rest.takeWhile Char.isDigit).length rest] at hrest
    exact hidesNoQuoteFrom_append (fun ch hch => isDigit_plain (mem_take_takeWhile hch)) hrest

/-- One token of the lexer, where the filter accepts the text and no token hides a quote. -/
theorem lexToken_agrees (before : List Char) (hacc : Accepted u (first :: rest))
    (hhide : hidesNoQuoteFrom u sqlite 0 (first :: rest) = true) :
    Agrees u sqlite (lexToken u sqlite before first rest).1 (lexToken u sqlite before first rest).2
      (first :: rest) := by
  unfold lexToken
  dsimp only
  by_cases hspace : spaceChar sqlite first = true
  · rw [if_pos hspace]
    exact agrees_space hspace hacc hhide
  rw [if_neg hspace]
  cases hq : isQuote first with
  | true =>
    have hquote : first = '\'' ∨ first = '"' ∨ first = '`' ∨ first = '[' := by
      simp only [isQuote, Bool.or_eq_true, beq_iff_eq, or_assoc] at hq
      tauto
    have hline : ¬ (first = '-' ∧ rest.head? = some '-') := by
      rintro ⟨rfl, -⟩
      revert hq
      decide
    have hblock : ¬ (first = '/' ∧ rest.head? = some '*') := by
      rintro ⟨rfl, -⟩
      revert hq
      decide
    rw [if_neg hline, if_neg hblock, if_pos hquote]
    refine agrees_quoted hq ?_ ?_ rfl hacc hhide
    · split_ifs <;> simp
    · split_ifs <;> simp
  | false =>
    obtain ⟨-, hsemi, hhash, hline, hblock⟩ := accepted_cons hq hacc
    rw [if_neg hline, if_neg hblock]
    by_cases hbracket : first = '['
    · -- the run between the brackets
      subst hbracket
      rw [if_pos (by simp)]
      refine agrees_checked (quotedLen_pos _ _ _ _) (by simp) (by simp) hacc ?_
      simpa [hidesNoQuoteFrom, hq] using hhide
    · have hopen : ¬ (first = '\'' ∨ first = '"' ∨ first = '`' ∨ first = '[') := by
        simp only [isQuote, Bool.or_eq_false_iff, beq_eq_false_iff_ne] at hq
        tauto
      rw [if_neg hopen]
      by_cases hparameter : sqlite = true ∧ (first = '$' ∨ first = ':' ∨ first = '@' ∨ first = '#')
      · rw [if_pos hparameter]
        refine agrees_checked (sqliteNameLen_le u _ _ _ 1) (by simp) (by simp) hacc ?_
        simpa only [hidesNoQuoteFrom, hq, Bool.false_eq_true, if_false, if_neg hbracket, if_pos hparameter]
          using hhide
      · rw [if_neg hparameter]
        by_cases hdollar : first = '$'
        · subst hdollar
          rw [if_pos rfl]
          have hsqlite : sqlite = false := by simpa using hparameter
          cases hlen : dollarLen u ('$' :: rest) with
          | some n =>
            refine agrees_checked (dollarLen_pos u hlen) (by simp) (by simp) hacc ?_
            simpa [hidesNoQuoteFrom, hq, hsqlite, hlen] using hhide
          | none =>
            refine agrees_dollar hsqlite hlen hacc hhide _ ?_
            split_ifs <;> simp
        · rw [if_neg hdollar]
          by_cases hword : first = '_' ∨ u.isAlphabetic first = true
          · rw [if_pos hword]
            exact agrees_word ⟨hq, hbracket, hdollar, hparameter⟩ hword hacc hhide
          · rw [if_neg hword]
            refine agrees_of_noQuote (Nat.le_refl 1) (by simp) (by simpa using hsemi) (by simp [hq]) hacc ?_
            simp only [hidesNoQuoteFrom, hq, Bool.false_eq_true, if_false, if_neg hbracket, if_neg hparameter,
              if_neg hdollar, if_neg hword] at hhide
            exact hhide

/-- The whole text. -/
theorem scanFrom_harmless (k : ℕ) : ∀ (sql before : List Char) (offset : ℕ), sql.length ≤ k → Accepted u sql →
    hidesNoQuoteFrom u sqlite 0 sql = true →
    ∀ token ∈ scanFrom u sqlite 0 before offset sql, HarmlessToken token.kind token.text := by
  induction k with
  | zero =>
    intro sql before offset hlen _ _ token htoken
    rw [List.length_eq_zero_iff.1 (Nat.le_zero.1 hlen)] at htoken
    cases htoken
  | succ k ih =>
    intro sql before offset hlen hacc hhide token htoken
    cases sql with
    | nil => cases htoken
    | cons first rest =>
      have hagrees := lexToken_agrees before hacc hhide
      rw [scanFrom_cons] at htoken
      rcases List.mem_cons.1 htoken with rfl | htoken
      · exact hagrees.harmless
      · obtain ⟨before', offset', hskip⟩ := scanFrom_skip u sqlite rest
          ((lexToken u sqlite before first rest).2 - 1) (first :: before) (offset + first.utf8Size)
        rw [hskip, drop_cons_sub hagrees.pos] at htoken
        refine ih _ before' offset' ?_ hagrees.accepted hagrees.hides token htoken
        have := hagrees.pos
        simp only [List.length_drop, List.length_cons] at hlen ⊢
        omega

end Tokens

/-- A fragment the filter accepts, in which no bracketed identifier, dollar-quoted string
or SQLite parameter holds a quote: the lexer finds no comment, no separator and no
unterminated quoted token in it, in either reading. -/
theorem validated_fragment_harmless (u : CharTables) (kind : String) (sql : List Char)
    (hvalid : validateRawSqlFragment u kind sql = .ok ())
    (hhides : ∀ sqlite, hidesNoQuote u sqlite sql = true) :
    ∀ sqlite, ∀ token ∈ scan u sql sqlite, token.kind ≠ .comment ∧
      ¬ (token.kind = .symbol ∧ token.text = [';']) ∧ ClosedText token.text := by
  intro sqlite token htoken
  have hharmless := scanFrom_harmless sql.length sql [] 0 (Nat.le_refl _) (accepted_of_validate hvalid)
    (hhides sqlite) token htoken
  exact ⟨hharmless.comment, hharmless.separator, hharmless.closed⟩

/-- Tables that know the ASCII letters and digits only. -/
def asciiTables : CharTables where
  isAlphabetic := fun ch => isAscii ch && ch.isAlpha
  isNumeric := fun ch => isAscii ch && ch.isDigit
  ascii := by
    intro ch h
    simp [h]
  space := by
    intro ch h
    have hspace : ch.toNat ≤ 32 ∨ 128 ≤ ch.toNat := by
      simp only [spaceChar, isWhitespace, Bool.or_eq_true, decide_eq_true_eq, beq_iff_eq, Bool.true_and] at h
      rcases h with h | rfl
      · omega
      · right
        decide
    constructor
    · rw [Bool.eq_false_iff]
      intro h
      obtain ⟨hascii, halpha⟩ := Bool.and_eq_true_iff.1 h
      have := of_decide_eq_true hascii
      have := isAlpha_bounds halpha
      omega
    · simp only [isAscii, Char.isDigit, UInt32.le_iff_toNat_le]
      simp
      omega

theorem validated_comparison :
    validateRawSqlFragment asciiTables "where clause" "a[1] = 'it''s; ok'".toList = .ok () ∧
    ∀ token ∈ scan asciiTables "a[1] = 'it''s; ok'".toList false, token.kind ≠ .comment ∧
      ¬ (token.kind = .symbol ∧ token.text = [';']) ∧ ClosedText token.text := by
  have hvalid : validateRawSqlFragment asciiTables "where clause" "a[1] = 'it''s; ok'".toList = .ok () := by
    decide
  refine ⟨hvalid, ?_⟩
  exact validated_fragment_harmless asciiTables "where clause" _ hvalid (by decide) false

/-- The lexer reads `]]` inside brackets as one bracket, the filter as the end and a
bracket: what is a literal to the filter is a separator and a comment to the lexer. -/
theorem bracket_hides_comment :
    validateRawSqlFragment asciiTables "where clause" "[a]]'];--'".toList = .ok () ∧
    (∃ token ∈ scan asciiTables "[a]]'];--'".toList false, token.kind = .comment) ∧
    (∃ token ∈ scan asciiTables "[a]]'];--'".toList false, token.kind = .symbol ∧ token.text = [';']) ∧
    ∃ token ∈ scan asciiTables "[a]]'];--'".toList true, token.kind = .comment := by
  decide

/-- A dollar-quoted string right after a digit. -/
example : validateRawSqlFragment asciiTables "where clause" "1$$'$$;--'".toList = .ok () ∧
    ∃ token ∈ scan asciiTables "1$$'$$;--'".toList false, token.kind = .comment := by
  decide

/-- A SQLite parameter with a parenthesized suffix. -/
example : validateRawSqlFragment asciiTables "where clause" ":a(')--'".toList = .ok () ∧
    ∃ token ∈ scan asciiTables ":a(')--'".toList true, token.kind = .comment := by
  decide

/-- The dialect-agnostic scan reports an escape when the two dialects end the run in different
places, or only one of them does, and is both scans otherwise. -/
theorem rejectAmbiguous_exact {close : Char} (hclose : close ≠ '\\') (stop index : ℕ) (text : List Char) :
    ((quotedEnd close .rejectAmbiguous stop false index text).2 = .ambiguousEscape ↔
      quotedEnd close .doubled stop false index text ≠ quotedEnd close .backslash stop false index text) ∧
    ((quotedEnd close .rejectAmbiguous stop false index text).2 ≠ .ambiguousEscape →
      quotedEnd close .rejectAmbiguous stop false index text = quotedEnd close .doubled stop false index text ∧
      quotedEnd close .rejectAmbiguous stop false index text = quotedEnd close .backslash stop false index text) := by
  obtain ⟨hambiguous, hparts⟩ | ⟨hambiguous, hd, hb⟩ :=
    @quotedEnd_reject close stop hclose text.length text index (Nat.le_refl _)
  · exact ⟨⟨fun _ => hparts, fun _ => hambiguous⟩, fun hnot => absurd hambiguous hnot⟩
  · refine ⟨⟨fun h => absurd h hambiguous, fun hparts => absurd (hd.trans hb.symm) hparts⟩, fun _ => ⟨hd.symm, hb.symm⟩⟩

theorem rejectAmbiguous_exact_apostrophe :
    (quotedEnd '\'' .rejectAmbiguous 9 false 1 "a\\'' -- '".toList).2 = .ambiguousEscape ∧
    quotedEnd '\'' .doubled 9 false 1 "a\\'' -- '".toList ≠ quotedEnd '\'' .backslash 9 false 1 "a\\'' -- '".toList := by
  have hambiguous : (quotedEnd '\'' .rejectAmbiguous 9 false 1 "a\\'' -- '".toList).2 = .ambiguousEscape := by decide
  exact ⟨hambiguous, (rejectAmbiguous_exact (by decide) 9 1 "a\\'' -- '".toList).1.1 hambiguous⟩

end TideOrm
