import TideOrm.Sanity.Subquery
import TideOrm.Sanity.TableTags
import TideOrm.Proofs.SqlSafety

/-! Where the parentheses of an accepted subquery stand, as the lexer reads it between two more. -/

namespace TideOrm

open Lib

section Ends

variable {u : CharTables}

theorem identifierChar_of_wordChar {ch : Char} (h : isWordChar ch = true) : identifierChar u ch = true := by
  have hascii : isAscii ch = true := by simpa [isAscii] using wordChar_lt h
  simp only [isWordChar, Char.isAlphanum, Bool.or_eq_true, beq_iff_eq] at h
  simp only [identifierChar, isAlphanumeric_ascii u hascii, Bool.or_eq_true, beq_iff_eq]
  tauto

theorem not_wordChar {ch : Char} (h : identifierChar u ch = false) : isWordChar ch = false := by
  rw [Bool.eq_false_iff]
  intro hword
  rw [identifierChar_of_wordChar hword] at h
  cases h

/-- A text is followed by no word character, or ends in a closing parenthesis. -/
def Stops (text after : List Char) : Prop :=
  (∀ ch, after.head? = some ch → isWordChar ch = false) ∨ text.getLast? = some ')'

theorem Stops.cons {text after : List Char} (h : Stops text after) (ch : Char) : Stops (ch :: text) after := by
  rcases h with h | h
  · exact .inl h
  · exact .inr (by rw [List.getLast?_cons, h]; rfl)

theorem sqliteSuffixLen_stops : ∀ (rest : List Char) (pos : ℕ),
    Stops (rest.take (sqliteSuffixLen pos rest - pos)) (rest.drop (sqliteSuffixLen pos rest - pos)) := by
  intro rest
  induction rest with
  | nil => exact fun pos => .inl (by simp)
  | cons ch rest ih =>
    intro pos
    rw [sqliteSuffixLen]
    split_ifs with hspace hclose
    · refine .inl fun c hc => ?_
      obtain rfl : ch = c := by simpa using hc
      simp only [isAsciiWhitespace, Bool.or_eq_true, beq_iff_eq] at hspace
      rcases hspace with (((rfl | rfl) | rfl) | rfl) | rfl <;> decide
    · right
      simp [hclose]
    · have hle := sqliteSuffixLen_le (pos + 1) rest
      have hsub : sqliteSuffixLen (pos + 1) rest - pos = (sqliteSuffixLen (pos + 1) rest - (pos + 1)) + 1 := by omega
      rw [hsub, List.take_succ_cons, List.drop_succ_cons]
      exact (ih (pos + 1)).cons ch

theorem sqliteNameLen_stops : ∀ (rest : List Char) (hasName taken : Bool) (pos : ℕ),
    Stops (rest.take (sqliteNameLen u hasName taken pos rest - pos)) (rest.drop (sqliteNameLen u hasName taken pos rest - pos)) := by
  intro rest
  induction rest with
  | nil => exact fun hasName taken pos => .inl (by simp)
  | cons ch rest ih =>
    intro hasName taken pos
    have hstep : ∀ hasName' taken', Stops ((ch :: rest).take (sqliteNameLen u hasName' taken' (pos + 1) rest - pos))
        ((ch :: rest).drop (sqliteNameLen u hasName' taken' (pos + 1) rest - pos)) := by
      intro hasName' taken'
      have hle := sqliteNameLen_le u rest hasName' taken' (pos + 1)
      have hsub : sqliteNameLen u hasName' taken' (pos + 1) rest - pos =
          (sqliteNameLen u hasName' taken' (pos + 1) rest - (pos + 1)) + 1 := by omega
      rw [hsub, List.take_succ_cons, List.drop_succ_cons]
      exact (ih hasName' taken' (pos + 1)).cons ch
    cases taken with
    | true =>
      simp only [sqliteNameLen]
      exact hstep hasName false
    | false =>
      simp only [sqliteNameLen]
      split_ifs with hname hcolons hsuffix
      · exact hstep true false
      · exact hstep hasName true
      · have hle := sqliteSuffixLen_le (pos + 1) rest
        have hsub : sqliteSuffixLen (pos + 1) rest - pos = (sqliteSuffixLen (pos + 1) rest - (pos + 1)) + 1 := by omega
        rw [hsub, List.take_succ_cons, List.drop_succ_cons]
        exact (sqliteSuffixLen_stops rest (pos + 1)).cons ch
      · refine .inl fun c hc => ?_
        obtain rfl : ch = c := by simpa using hc
        simp only [Bool.or_eq_true, not_or, Bool.not_eq_true] at hname
        exact not_wordChar hname.1

theorem quotedEnd_stop {close : Char} {stop : ℕ} : ∀ {rest : List Char} {taken : Bool} {index : ℕ},
    (quotedEnd close .doubled stop taken index rest).2 = .closed ∨ (quotedEnd close .doubled stop taken index rest).1 = stop := by
  intro rest
  induction rest with
  | nil => exact fun {taken index} => .inr (by simp [quotedEnd])
  | cons ch rest ih =>
    intro taken index
    cases taken with
    | true => exact ih
    | false =>
      simp only [quotedEnd, ne_eq, not_true_eq_false, and_false, if_false]
      split_ifs
      · exact ih
      · exact .inl rfl
      · exact ih

theorem dollarLen_last {rest : List Char} {n : ℕ} (h : dollarLen u ('$' :: rest) = some n) :
    (('$' :: rest).take n).getLast? = some '$' := by
  unfold dollarLen at h
  cases hopening : dollarTagLen u ('$' :: rest) with
  | none =>
    rw [hopening] at h
    cases h
  | some opening =>
    obtain ⟨tag, after, rfl, rfl, -⟩ := dollarTagLen_some u hopening
    have htake : List.take (tag.length + 2) ('$' :: (tag ++ '$' :: after)) = '$' :: (tag ++ ['$']) := by
      simp [List.take_append, List.take_of_length_le]
    have hdrop : List.drop (tag.length + 2) ('$' :: (tag ++ '$' :: after)) = after := by
      simp [List.drop_append]
    simp only [hopening, htake, hdrop] at h
    obtain ⟨k, hk, rfl⟩ := Option.map_eq_some_iff.1 h
    obtain ⟨front, last, rfl, rfl⟩ := findText_split hk
    have htext : '$' :: (tag ++ '$' :: (front ++ ('$' :: (tag ++ ['$']) ++ last))) =
        ('$' :: (tag ++ '$' :: (front ++ '$' :: tag)) ++ ['$']) ++ last := by simp
    have hlen : tag.length + 2 + front.length + ('$' :: (tag ++ ['$'])).length =
        ('$' :: (tag ++ '$' :: (front ++ '$' :: tag)) ++ ['$']).length := by
      simp
      omega
    rw [htext, hlen, List.take_left, List.getLast?_concat]

end Ends

/-- Whether the token is a bracketed name, a dollar-quoted string or a parameter. -/
def Token.isEnclosed (token : Token) : Bool :=
  (token.kind == .identifier && token.text.head? == some '[') ||
    (token.kind == .literal && token.text.head? == some '$') || token.kind == .parameter

section Tokens

variable {u : CharTables} {sqlite : Bool} {first : Char} {rest : List Char}

def noParen (text : List Char) : Prop := ∀ ch ∈ text, opensParen ch = false ∧ closesParen ch = false

/-- How the scan reads a token that is not in quotes: a symbol by itself, any other without
parentheses unless they are enclosed. -/
inductive Reads (kind : Kind) (text after : List Char) : Prop where
  | symbol (ch : Char) (hkind : kind = .symbol) (htext : text = [ch]) (hends : EndsWords text after)
  | plain (hkind : kind ≠ .symbol) (hparen : noParen text)
      (hnext : kind = .word → ∀ ch, after.head? = some ch → isWordChar ch = false) (hends : EndsWords text after)
  | enclosed (hkind : kind ≠ .symbol) (hword : kind ≠ .word) (henclosed : ∀ start, Token.isEnclosed ⟨text, start, kind⟩ = true)
      (hends : EndsWords text after)

theorem noParen_of {p : Char → Bool} {text : List Char} (h : ∀ ch ∈ text, p ch = true) (hopen : p '(' = false)
    (hclose : p ')' = false) : noParen text := by
  intro ch hch
  simp only [opensParen, closesParen, beq_eq_false_iff_ne]
  constructor
  · rintro rfl
    rw [h _ hch] at hopen
    cases hopen
  · rintro rfl
    rw [h _ hch] at hclose
    cases hclose

theorem isWordStart_false {ch : Char} (hunder : ch ≠ '_') (halpha : u.isAlphabetic ch = false) : isWordStart ch = false := by
  rw [isWordStart, Bool.or_eq_false_iff, beq_eq_false_iff_ne]
  refine ⟨hunder, ?_⟩
  rw [Bool.eq_false_iff]
  intro hletter
  have hascii : isAscii ch = true := by
    have hbounds := isAlpha_bounds hletter
    simp only [isAscii, decide_eq_true_eq]
    omega
  rw [(u.ascii ch hascii).1, hletter] at halpha
  cases halpha

theorem takeWhile_take {p : Char → Bool} (text : List Char) :
    text.take (text.takeWhile p).length = text.takeWhile p ∧ text.drop (text.takeWhile p).length = text.dropWhile p := by
  have hsplit : text.takeWhile p ++ text.dropWhile p = text := List.takeWhile_append_dropWhile
  generalize text.takeWhile p = taken at hsplit ⊢
  generalize text.dropWhile p = left at hsplit ⊢
  subst hsplit
  exact ⟨List.take_left, List.drop_left⟩

theorem head_dropWhile {p : Char → Bool} {text : List Char} {ch : Char} (h : (text.dropWhile p).head? = some ch) :
    p ch = false := by
  have := List.head?_dropWhile_not p text
  rw [h] at this
  simpa using this

theorem reads_space (h : spaceChar sqlite first = true) :
    Reads .space ((first :: rest).take ((first :: rest).takeWhile (spaceChar sqlite)).length)
      ((first :: rest).drop ((first :: rest).takeWhile (spaceChar sqlite)).length) := by
  rw [(takeWhile_take _).1]
  refine .plain (by decide) (noParen_of (fun ch hch => List.mem_takeWhile_imp hch) ?_ ?_) (fun h => by cases h) (.inl ?_)
  · cases sqlite <;> decide
  · cases sqlite <;> decide
  · rw [List.any_eq_false]
    intro ch hch
    obtain ⟨-, -, -, -, -, -, hunder, halpha⟩ := spaceChar_plain (u := asciiTables) (List.mem_takeWhile_imp hch)
    simp [isWordStart_false hunder halpha]

theorem reads_bareWord :
    Reads .word ((first :: rest).take ((first :: rest).takeWhile (identifierChar u)).length)
      ((first :: rest).drop ((first :: rest).takeWhile (identifierChar u)).length) := by
  rw [(takeWhile_take _).1, (takeWhile_take _).2]
  have hnext : ∀ ch, ((first :: rest).dropWhile (identifierChar u)).head? = some ch → isWordChar ch = false :=
    fun ch hch => not_wordChar (head_dropWhile hch)
  refine .plain (by decide) (noParen_of (fun ch hch => List.mem_takeWhile_imp hch) ?_ ?_) (fun _ => hnext) (.inr (.inl hnext))
  · simp [identifierChar_ascii u (show isAscii '(' = true by decide)]
  · simp [identifierChar_ascii u (show isAscii ')' = true by decide)]

theorem reads_bracket : Reads .identifier (('[' :: rest).take (quotedLen ('[' :: rest) '[' false))
    (('[' :: rest).drop (quotedLen ('[' :: rest) '[' false)) := by
  have hpos := quotedLen_pos '[' rest '[' false
  obtain ⟨n, hn⟩ : ∃ n, quotedLen ('[' :: rest) '[' false = n + 1 := ⟨_, (Nat.sub_add_cancel hpos).symm⟩
  refine .enclosed (by decide) (by decide) (fun start => ?_) ?_
  · rw [hn, List.take_succ_cons]
    rfl
  · have hrun : quotedLen ('[' :: rest) '[' false = (quotedEnd ']' .doubled (rest.length + 1) false 1 rest).1 := rfl
    rcases hend : quotedEnd ']' .doubled (rest.length + 1) false 1 rest with ⟨stop, run⟩
    have hstop := @quotedEnd_stop ']' (rest.length + 1) rest false 1
    rw [hrun, hend] at hn
    rw [hrun, hend]
    rw [hend] at hstop
    dsimp only at hn hstop ⊢
    subst hn
    rcases hstop with rfl | hstop
    · refine .inr (.inr ⟨']', ?_, by decide⟩)
      rw [List.take_succ_cons, List.getLast?_cons, show rest.take n = rest.take (n + 1 - 1) from rfl, quotedEnd_last hend]
      rfl
    · refine .inr (.inl fun ch hch => ?_)
      rw [hstop, List.drop_of_length_le (by simp)] at hch
      cases hch

theorem Stops.endsWords {text after : List Char} (h : Stops text after) : EndsWords text after := by
  rcases h with h | h
  · exact .inr (.inl h)
  · exact .inr (.inr ⟨')', h, by decide⟩)

theorem reads_sqliteParameter : Reads .parameter ((first :: rest).take (sqliteParameterLen u (first :: rest)))
    ((first :: rest).drop (sqliteParameterLen u (first :: rest))) := by
  have hpos : 1 ≤ sqliteParameterLen u (first :: rest) := sqliteNameLen_le u rest false false 1
  obtain ⟨n, hn⟩ : ∃ n, sqliteParameterLen u (first :: rest) = n + 1 := ⟨_, (Nat.sub_add_cancel hpos).symm⟩
  have hstops := sqliteNameLen_stops (u := u) rest false false 1
  rw [show sqliteNameLen u false false 1 rest = n + 1 from hn, Nat.add_sub_cancel] at hstops
  rw [hn, List.take_succ_cons, List.drop_succ_cons]
  exact .enclosed (by decide) (by decide) (fun start => rfl) (hstops.cons first).endsWords

theorem reads_dollar {n : ℕ} (h : dollarLen u ('$' :: rest) = some n) :
    Reads .literal (('$' :: rest).take n) (('$' :: rest).drop n) := by
  obtain ⟨m, rfl⟩ : ∃ m, n = m + 1 := ⟨_, (Nat.sub_add_cancel (dollarLen_pos u h)).symm⟩
  refine .enclosed (by decide) (by decide) (fun start => ?_) (.inr (.inr ⟨'$', dollarLen_last h, by decide⟩))
  rw [List.take_succ_cons]
  rfl

theorem reads_placeholder :
    Reads (if 1 < 1 + (rest.takeWhile Char.isDigit).length then .parameter else .symbol)
      (('$' :: rest).take (1 + (rest.takeWhile Char.isDigit).length))
      (('$' :: rest).drop (1 + (rest.takeWhile Char.isDigit).length)) := by
  rw [Nat.add_comm, List.take_succ_cons, (takeWhile_take _).1]
  have hstart : ('$' :: rest.takeWhile Char.isDigit).any isWordStart = false := by
    rw [List.any_eq_false]
    intro ch hch
    rcases List.mem_cons.1 hch with rfl | hch
    · decide
    · have hdigit := isDigit_plain (u := asciiTables) (List.mem_takeWhile_imp hch)
      simp [isWordStart_false hdigit.2.2.2.2.2.2.1 hdigit.2.2.2.2.2.2.2]
  cases hdigits : rest.takeWhile Char.isDigit with
  | nil => exact .symbol '$' rfl rfl (.inl (by decide))
  | cons digit digits =>
    rw [hdigits] at hstart
    have hchars : ∀ ch ∈ '$' :: digit :: digits, (ch == '$' || ch.isDigit) = true := by
      intro ch hch
      rcases List.mem_cons.1 hch with rfl | hch
      · rfl
      · simp [List.mem_takeWhile_imp (hdigits ▸ hch)]
    exact .plain (by simp) (noParen_of hchars (by decide) (by decide)) (fun h => by simp at h) (.inl hstart)

theorem lexToken_reads (before : List Char) (hquote : isQuote first = false)
    (hcomment : (lexToken u sqlite before first rest).1 ≠ .comment) :
    Reads (lexToken u sqlite before first rest).1 ((first :: rest).take (lexToken u sqlite before first rest).2)
      ((first :: rest).drop (lexToken u sqlite before first rest).2) := by
  have hsingle : first ≠ '\'' := by
    rintro rfl
    cases hquote
  unfold lexToken at hcomment ⊢
  dsimp only at hcomment ⊢
  by_cases hspace : spaceChar sqlite first = true
  · rw [if_pos hspace]
    exact reads_space hspace
  rw [if_neg hspace] at hcomment ⊢
  by_cases hline : first = '-' ∧ rest.head? = some '-'
  · rw [if_pos hline] at hcomment
    exact absurd rfl hcomment
  rw [if_neg hline] at hcomment ⊢
  by_cases hblock : first = '/' ∧ rest.head? = some '*'
  · rw [if_pos hblock] at hcomment
    exact absurd rfl hcomment
  rw [if_neg hblock]
  by_cases hopens : first = '\'' ∨ first = '"' ∨ first = '`' ∨ first = '['
  · have hbracket : first = '[' := by
      simp only [isQuote, Bool.or_eq_false_iff, beq_eq_false_iff_ne] at hquote
      tauto
    subst hbracket
    rw [if_pos hopens, if_neg hsingle]
    simpa using reads_bracket
  rw [if_neg hopens]
  by_cases hparameter : sqlite = true ∧ (first = '$' ∨ first = ':' ∨ first = '@' ∨ first = '#')
  · rw [if_pos hparameter]
    exact reads_sqliteParameter
  rw [if_neg hparameter]
  by_cases hdollar : first = '$'
  · subst hdollar
    rw [if_pos rfl]
    cases hlen : dollarLen u ('$' :: rest) with
    | some n => exact reads_dollar hlen
    | none => exact reads_placeholder
  rw [if_neg hdollar]
  by_cases hword : first = '_' ∨ u.isAlphabetic first = true
  · rw [if_pos hword]
    exact reads_bareWord
  · rw [if_neg hword]
    rw [not_or, Bool.not_eq_true] at hword
    refine .symbol first rfl rfl (.inl ?_)
    simpa using isWordStart_false hword.1 hword.2

end Tokens

section SetWords

variable {kind : String} {skip depth : ℕ} {text rest : List Char} {tokens : List SqlToken}

theorem letter_forall {P : Char → Prop} (hall : ∀ n < 128, (Char.ofNat n).isAlpha = true → P (Char.ofNat n)) {ch : Char}
    (h : ch.isAlpha = true) : P ch := by
  have hbounds := isAlpha_bounds h
  simpa using hall ch.toNat (by omega) (by simpa using h)

theorem letter_not_number {ch : Char} (h : ch.isAlpha = true) : isNumberChar ch = false :=
  letter_forall (P := fun ch => isNumberChar ch = false) (by decide +kernel) h

theorem setWord_shape (h : anyKeyword SET_OPERATIONS text = true) :
    (∀ ch ∈ text, ch.isAlpha = true) ∧ ∃ first second others, text = first :: second :: others ∧
      (first = 'e' ∨ first = 'E' → second = 'x' ∨ second = 'X') := by
  have hletters : ∀ ch ∈ text, ch.isAlpha = true := by
    intro ch hch
    refine toLower_isAlpha ?_
    by_contra hno
    rw [Bool.not_eq_true] at hno
    rw [anyKeyword_of_mem (by decide +kernel) hch hno] at h
    cases h
  refine ⟨hletters, ?_⟩
  have hlower : ∃ first second others, text.map Char.toLower = first :: second :: others ∧ (first = 'e' → second = 'x') := by
    rw [anyKeyword, List.any_eq_true] at h
    obtain ⟨other, hother, heq⟩ := h
    rw [eqIgnoreAsciiCase, beq_iff_eq] at heq
    rw [heq]
    simp only [SET_OPERATIONS, List.mem_cons, List.not_mem_nil, or_false] at hother
    rcases hother with rfl | rfl | rfl
    · exact ⟨'u', 'n', ['i', 'o', 'n'], by decide +kernel, by decide⟩
    · exact ⟨'i', 'n', "tersect".toList, by decide +kernel, by decide⟩
    · exact ⟨'e', 'x', "cept".toList, by decide +kernel, by decide⟩
  obtain ⟨first, second, others, hmap, he⟩ := hlower
  rcases text with _ | ⟨c, _ | ⟨d, rest⟩⟩
  · cases hmap
  · simp at hmap
  · refine ⟨c, d, rest, rfl, fun hc => ?_⟩
    simp only [List.map_cons, List.cons.injEq] at hmap
    have hd : d.toLower = 'x' := by
      rw [hmap.2.1]
      refine he ?_
      rw [← hmap.1]
      rcases hc with rfl | rfl <;> decide
    exact letter_forall (P := fun d => d.toLower = 'x' → d = 'x' ∨ d = 'X') (by decide +kernel) (hletters d (by simp)) hd

/-- The scan finds the set operation that the lexer reads. -/
theorem scan_setWord (hword : anyKeyword SET_OPERATIONS text = true)
    (hnext : ∀ ch, rest.head? = some ch → isWordChar ch = false)
    (h : scanSqlTokensFrom kind skip depth (text ++ rest) = .ok tokens) (hpending : Pending false ((text ++ rest).take skip)) :
    ∃ called, SqlToken.word text depth called ∈ tokens := by
  obtain ⟨hletters, first, second, others, rfl, he⟩ := setWord_shape hword
  have hfirst := hletters first (by simp)
  have hzero : skip = 0 := by
    -- no number goes on with the letters of such a word
    rcases skip with _ | skip
    · rfl
    · rcases hpending with hnumber | ⟨hno, -⟩
      · rw [List.cons_append, List.take_succ_cons, numberTail, letter_not_number hfirst] at hnumber
        simp only [Bool.false_or, Bool.and_eq_true, Bool.or_eq_true, beq_iff_eq, Option.any_eq_true] at hnumber
        obtain ⟨⟨hexponent, next, hhead, hnext⟩, -⟩ := hnumber
        cases skip with
        | zero => cases hhead
        | succ skip =>
          obtain rfl : second = next := by simpa using hhead
          rcases he hexponent with rfl | rfl <;> cases hnext
      · cases hno
  subst hzero
  obtain ⟨called, tokens', rfl, -⟩ := scan_word (.inr hfirst) h
  have hwordChars : ∀ ch ∈ second :: others, isWordChar ch = true := fun ch hch =>
    isWordChar_of_start (.inr (hletters ch (List.mem_cons_of_mem _ hch)))
  have htake : (second :: others ++ rest).takeWhile isWordChar = second :: others := by
    rw [List.takeWhile_append_of_pos hwordChars]
    cases rest with
    | nil => simp
    | cons ch rest => simp [hnext ch rfl]
  refine ⟨called, ?_⟩
  rw [show (second :: others).append rest = second :: others ++ rest from rfl, htake]
  exact List.mem_cons_self ..

end SetWords

def Token.opens (token : Token) : Bool := token.kind == .symbol && token.text == ['(']

def Token.closes (token : Token) : Bool := token.kind == .symbol && token.text == [')']

/-- What an enclosed token of the text opens, it closes. -/
def EnclosesEvenly (tokens : List Token) : Prop :=
  ∀ token ∈ tokens, token.isEnclosed = true → nesting opensParen closesParen 0 token.text = some 0

instance (tokens : List Token) : Decidable (EnclosesEvenly tokens) :=
  inferInstanceAs (Decidable (∀ token ∈ tokens, token.isEnclosed = true → nesting opensParen closesParen 0 token.text = some 0))

section Run

variable {u : CharTables} {sqlite : Bool} {kind : String} {first : Char} {rest : List Char}

/-- A quoted token, closed in the text already without the parenthesis after it. -/
theorem lexToken_quoted {before : List Char} (hquote : isQuote first = true) (hacc : Accepted u (first :: rest)) :
    ∃ n, quotedRun first .rejectAmbiguous (first :: rest) = (n, .closed) ∧ (lexToken u sqlite before first rest).2 = n ∧
      (lexToken u sqlite before first rest).1 ≠ .symbol ∧ (lexToken u sqlite before first rest).1 ≠ .word := by
  obtain ⟨n, hrun, -, -⟩ := accepted_quote hquote hacc
  have hplain : spaceChar sqlite first = false ∧ first ≠ '-' ∧ first ≠ '/' ∧ first ≠ '[' := by
    simp only [isQuote, Bool.or_eq_true, beq_iff_eq, or_assoc] at hquote
    rcases hquote with rfl | rfl | rfl <;> cases sqlite <;> decide
  have hopens : first = '\'' ∨ first = '"' ∨ first = '`' := by
    simpa [isQuote, or_assoc] using hquote
  have hlex : lexToken u sqlite before first rest = (if first = '\'' then .literal else .identifier, n) := by
    simp [lexToken, hplain.1, hplain.2.1, hplain.2.2.1, hopens, quotedLen, hplain.2.2.2, (closed_take hquote hrun _).1]
  rw [hlex]
  refine ⟨n, hrun, rfl, ?_, ?_⟩ <;> dsimp only <;> split_ifs <;> simp

theorem lexToken_close (before : List Char) : lexToken u sqlite before ')' [] = (.symbol, 1) := by
  have halpha : u.isAlphabetic ')' = false := by rw [(u.ascii ')' (by decide)).1]; decide
  cases sqlite <;> simp [lexToken, halpha, spaceChar, isWhitespace]

theorem nesting_one {token : Token} {depth : ℕ} (h : token.kind ≠ .symbol) :
    nesting Token.opens Token.closes depth [token] = some depth :=
  nesting_plain (fun mark hmark => by
    obtain rfl := List.mem_singleton.1 hmark
    simp [Token.opens, Token.closes, h]) depth

theorem nesting_symbol (ch : Char) (start depth : ℕ) :
    nesting Token.opens Token.closes depth [⟨[ch], start, .symbol⟩] = nesting opensParen closesParen depth [ch] := by
  simp [nesting, Token.opens, Token.closes, opensParen, closesParen]

theorem EndsWords.front {text after : List Char} {ch : Char} (h : EndsWords text (after ++ [ch])) : EndsWords text after := by
  rcases h with h | h | h
  · exact .inl h
  · refine .inr (.inl fun c hc => h c ?_)
    rw [List.head?_append, hc]
    rfl
  · exact .inr (.inr h)

/-- Text that runs over the closing parenthesis encloses it unevenly. -/
theorem not_even_over {skip depth : ℕ} {text : List Char} {tokens : List SqlToken} (hquote : ∀ ch ∈ text, isQuote ch = false)
    (h : scanSqlTokensFrom kind skip depth text = .ok tokens) (hpending : Pending false (text.take skip)) :
    nesting opensParen closesParen 0 (text ++ [')']) ≠ some 0 := by
  intro heven
  rw [← List.append_nil text] at h hpending
  obtain ⟨skip', depth', tokens', h', hnesting, -, -⟩ := scan_text hquote h hpending
  have hzero : depth' = 0 := by
    by_contra hne
    cases skip' <;> rw [scanSqlTokensFrom, if_pos hne] at h' <;> cases h'
  have hover := nesting_balanced heven depth
  rw [nesting_append, hnesting, hzero] at hover
  cases hover

/-- What the lexer makes of text the scan accepts at a depth, and of the parenthesis after it: the
text's parentheses close down to that parenthesis, and the scan has seen each set operation outside them. -/
structure Closed (tokens : List SqlToken) (depth : ℕ) (lexed : List Token) (body : List Token) (closing : Token) : Prop where
  split : lexed = body ++ [closing]
  closes : closing.closes = true
  nested : nesting Token.opens Token.closes depth body = some 0
  setWord : ∀ front token after, body = front ++ token :: after → nesting Token.opens Token.closes depth front = some 0 →
    token.isWord SET_OPERATIONS = true → ∃ called, SqlToken.word token.text 0 called ∈ tokens

/-- One more token in front. -/
theorem Closed.cons {tokens tokens' : List SqlToken} {depth depth' : ℕ} {lexed body : List Token} {token closing : Token}
    (h : Closed tokens' depth' lexed body closing) (hsub : tokens' ⊆ tokens)
    (hnesting : nesting Token.opens Token.closes depth [token] = some depth')
    (hword : depth = 0 → token.isWord SET_OPERATIONS = true → ∃ called, SqlToken.word token.text 0 called ∈ tokens) :
    Closed tokens depth (token :: lexed) (token :: body) closing := by
  have hcons : ∀ run, nesting Token.opens Token.closes depth (token :: run) = nesting Token.opens Token.closes depth' run := by
    intro run
    rw [← List.singleton_append, nesting_append, hnesting]
    rfl
  refine ⟨by rw [h.split]; rfl, h.closes, by rw [hcons]; exact h.nested, ?_⟩
  intro front other after hsplit hfront hset
  cases front with
  | nil =>
    obtain ⟨rfl, -⟩ := List.cons.inj hsplit
    exact hword (Option.some.inj hfront) hset
  | cons head front =>
    obtain ⟨rfl, hbody⟩ := List.cons.inj hsplit
    rw [hcons] at hfront
    obtain ⟨called, hmem⟩ := h.setWord front other after hbody hfront hset
    exact ⟨called, hsub hmem⟩

/-- The scan and the lexer after one token of accepted text. -/
theorem scan_lexed {before : List Char} {skip depth : ℕ} {tokens : List SqlToken} {token : Token}
    (hacc : Accepted u (first :: (rest ++ [')']))) (hhides : hidesNoQuoteFrom u sqlite 0 (first :: (rest ++ [')'])) = true)
    (hkind : token.kind = (lexToken u sqlite before first (rest ++ [')'])).1)
    (htext : token.text = (first :: (rest ++ [')'])).take (lexToken u sqlite before first (rest ++ [')'])).2)
    (heven : token.isEnclosed = true → nesting opensParen closesParen 0 token.text = some 0)
    (hscan : scanSqlTokensFrom kind skip depth (first :: rest) = .ok tokens)
    (hpending : Pending false ((first :: rest).take skip)) :
    ∃ after skip' depth' tokens', (first :: (rest ++ [')'])).drop (lexToken u sqlite before first (rest ++ [')'])).2 = after ++ [')'] ∧
      scanSqlTokensFrom kind skip' depth' after = .ok tokens' ∧ Pending false (after.take skip') ∧ tokens' ⊆ tokens ∧
      nesting Token.opens Token.closes depth [token] = some depth' ∧
      (token.isWord SET_OPERATIONS = true → ∃ called, SqlToken.word token.text depth called ∈ tokens) := by
  have hagrees := lexToken_agrees before hacc hhides
  have hquoted := @lexToken_quoted u sqlite first (rest ++ [')']) before
  have hreads := @lexToken_reads u sqlite first (rest ++ [')']) before
  generalize lexToken u sqlite before first (rest ++ [')']) = lexed at hkind htext hagrees hquoted hreads ⊢
  obtain ⟨kind', n⟩ := lexed
  dsimp only at hkind htext hagrees hquoted hreads ⊢
  have hsplit : n ≤ (first :: rest).length → (first :: (rest ++ [')'])).take n = (first :: rest).take n ∧
      (first :: (rest ++ [')'])).drop n = (first :: rest).drop n ++ [')'] := fun hn => by
    rw [← List.cons_append]
    exact ⟨List.take_append_of_le_length hn, List.drop_append_of_le_length hn⟩
  cases hquote : isQuote first with
  | true =>
    obtain ⟨m, hrun, hrest⟩ := scan_quoted hquote hscan hpending
    have hwrapped : quotedRun first .rejectAmbiguous (first :: (rest ++ [')'])) = (m, .closed) := by
      refine quotedEnd_append ?_ hrun
      rintro hhead
      obtain rfl := Option.some.inj hhead
      cases hquote
    obtain ⟨m', hrun', rfl, hsymbol, hword⟩ := hquoted hquote hacc
    obtain ⟨rfl, -⟩ := Prod.mk.inj (hwrapped.symm.trans hrun')
    have hle : m ≤ (first :: rest).length := by
      have hbound := (quotedEnd_closed_bounds hrun).2
      simp only [List.drop_succ_cons, List.drop_zero] at hbound
      simp only [List.length_cons]
      omega
    refine ⟨(first :: rest).drop m, 0, depth, tokens, (hsplit hle).2, hrest, pending_nil false, List.Subset.refl _,
      nesting_one (hkind ▸ hsymbol), fun hset => ?_⟩
    simp [Token.isWord, hkind, hword] at hset
  | false =>
    have hplain : ∀ ch ∈ token.text, isQuote ch = false := by
      have hnone := hagrees.noQuote (by simpa using hquote)
      rw [← htext, List.any_eq_false] at hnone
      simpa using hnone
    have hread := hreads hquote hagrees.harmless.comment
    rw [← htext] at hread
    by_cases hle : n ≤ (first :: rest).length
    · obtain ⟨htake, hdrop⟩ := hsplit hle
      rw [htake] at htext
      rw [hdrop] at hread ⊢
      have hwhole : token.text ++ (first :: rest).drop n = first :: rest := by rw [htext, List.take_append_drop]
      generalize (first :: rest).drop n = after at hread hwhole ⊢
      rw [← hwhole] at hscan hpending
      clear htext
      obtain ⟨text, start, kind''⟩ := token
      dsimp only at hkind hread hplain heven hscan hpending hwhole ⊢
      subst hkind
      have hends : EndsWords text after := by
        cases hread with
        | symbol _ _ _ hends => exact hends.front
        | plain _ _ _ hends => exact hends.front
        | enclosed _ _ _ hends => exact hends.front
      obtain ⟨skip', depth', tokens', hscan', hnesting, hsub, hpending'⟩ := scan_token hplain hends hscan hpending
      refine ⟨after, skip', depth', tokens', rfl, hscan', hpending', hsub, ?_⟩
      cases hread with
      | symbol ch hsymbol hone =>
        subst hsymbol hone
        exact ⟨by rw [nesting_symbol, hnesting], fun hset => by simp [Token.isWord] at hset⟩
      | plain hsymbol hparen hnext =>
        rw [nesting_plain hparen] at hnesting
        refine ⟨by rw [nesting_one hsymbol, hnesting], fun hset => ?_⟩
        simp only [Token.isWord, Bool.and_eq_true, beq_iff_eq] at hset
        refine scan_setWord hset.2 (fun ch hch => hnext hset.1 ch ?_) hscan hpending
        rw [List.head?_append, hch]
        rfl
      | enclosed hsymbol hword henclosed =>
        rw [nesting_balanced (heven (henclosed start))] at hnesting
        exact ⟨by rw [nesting_one hsymbol, hnesting], fun hset => by simp [Token.isWord, hword] at hset⟩
    · -- a token over the end would hold the last parenthesis
      exfalso
      have hover : token.text = first :: rest ++ [')'] := by
        rw [htext, List.take_of_length_le, List.cons_append]
        simp only [List.length_cons, List.length_append, List.length_nil] at hle ⊢
        omega
      obtain ⟨text, start, kind''⟩ := token
      dsimp only at hkind hread hplain heven hover
      subst hkind hover
      cases hread with
      | symbol ch _ htext => simp at htext
      | plain _ hparen =>
        have hclose := (hparen ')' (by simp)).2
        cases hclose
      | enclosed _ _ henclosed =>
        exact not_even_over (fun ch hch => hplain ch (List.mem_append_left _ hch)) hscan hpending (heven (henclosed start))

theorem scan_closed (k : ℕ) : ∀ (text before : List Char) (offset skip depth : ℕ) (tokens : List SqlToken), text.length ≤ k →
    Accepted u (text ++ [')']) → hidesNoQuoteFrom u sqlite 0 (text ++ [')']) = true →
    EnclosesEvenly (scanFrom u sqlite 0 before offset (text ++ [')'])) →
    scanSqlTokensFrom kind skip depth text = .ok tokens → Pending false (text.take skip) →
    ∃ body closing, Closed tokens depth (scanFrom u sqlite 0 before offset (text ++ [')'])) body closing := by
  have hnil : ∀ (before : List Char) (offset skip depth : ℕ) (tokens : List SqlToken),
      scanSqlTokensFrom kind skip depth [] = .ok tokens →
      ∃ body closing, Closed tokens depth (scanFrom u sqlite 0 before offset ([] ++ [')'])) body closing := by
    intro before offset skip depth tokens hscan
    have hzero : depth = 0 := by
      by_contra hne
      cases skip <;> rw [scanSqlTokensFrom, if_pos hne] at hscan <;> cases hscan
    subst hzero
    refine ⟨[], ⟨[')'], offset, .symbol⟩, ?_, rfl, rfl, fun front token after hsplit => by simp at hsplit⟩
    rw [List.nil_append, scanFrom_cons, lexToken_close]
    rfl
  induction k with
  | zero =>
    intro text before offset skip depth tokens hlen _ _ _ hscan _
    obtain rfl := List.length_eq_zero_iff.1 (Nat.le_zero.1 hlen)
    exact hnil before offset skip depth tokens hscan
  | succ k ih =>
    intro text before offset skip depth tokens hlen hacc hhides heven hscan hpending
    cases text with
    | nil => exact hnil before offset skip depth tokens hscan
    | cons first rest =>
      rw [List.cons_append] at hacc hhides heven ⊢
      have hagrees := lexToken_agrees before hacc hhides
      rw [scanFrom_cons] at heven ⊢
      obtain ⟨before', offset', hskip⟩ := scanFrom_skip u sqlite (rest ++ [')'])
        ((lexToken u sqlite before first (rest ++ [')'])).2 - 1) (first :: before) (offset + first.utf8Size)
      have hrest : (rest ++ [')']).drop ((lexToken u sqlite before first (rest ++ [')'])).2 - 1) =
          (first :: (rest ++ [')'])).drop (lexToken u sqlite before first (rest ++ [')'])).2 := drop_cons_sub hagrees.pos
      rw [hskip, hrest] at heven ⊢
      obtain ⟨after, skip', depth', tokens', hdrop, hscan', hpending', hsub, hnesting, hset⟩ :=
        scan_lexed hacc hhides rfl rfl (heven _ (List.mem_cons_self ..)) hscan hpending
      have hacc' := hagrees.accepted
      have hhides' := hagrees.hides
      have hpos := hagrees.pos
      have hlength := congrArg List.length hdrop
      rw [hdrop] at hacc' hhides' heven ⊢
      have hshort : after.length ≤ k := by
        simp only [List.length_drop, List.length_cons, List.length_append, List.length_nil] at hlength hlen
        omega
      obtain ⟨body, closing, hclosed⟩ := ih after before' offset' skip' depth' tokens' hshort hacc' hhides'
        (fun token hmem => heven token (List.mem_cons_of_mem _ hmem)) hscan' hpending'
      exact ⟨_ :: body, closing, hclosed.cons hsub hnesting fun hzero hword => hzero ▸ hset hword⟩

end Run

/-- The first token's parenthesis is closed by the last one and by none before it; without set
operations none stands directly inside. -/
def StaysInside (setOps : Bool) (tokens : List Token) : Prop :=
  ∃ opening body closing, tokens = opening :: (body ++ [closing]) ∧ opening.opens = true ∧ closing.closes = true ∧
    nesting Token.opens Token.closes 0 body = some 0 ∧
    (setOps = false → ∀ front token after, body = front ++ token :: after → nesting Token.opens Token.closes 0 front = some 0 →
      token.isWord SET_OPERATIONS = false)

def parenthesized (sql : List Char) : List Char := '(' :: (sql ++ [')'])

section Valid

variable {u : CharTables} {sql : List Char} {allowTopLevelSetOps : Bool}

theorem lexToken_open (sqlite : Bool) (before rest : List Char) : lexToken u sqlite before '(' rest = (.symbol, 1) := by
  have halpha : u.isAlphabetic '(' = false := by rw [(u.ascii '(' (by decide)).1]; decide
  cases sqlite <;> simp [lexToken, halpha, spaceChar, isWhitespace]

theorem hidesNoQuote_inside {sqlite : Bool} (h : hidesNoQuote u sqlite (parenthesized sql) = true) :
    hidesNoQuoteFrom u sqlite 0 (sql ++ [')']) = true := by
  have halpha : u.isAlphabetic '(' = false := by rw [(u.ascii '(' (by decide)).1]; decide
  have hplain : ∀ ch ∈ ['('], isQuote ch = false ∧ ch ≠ '[' ∧ ch ≠ '$' ∧ ch ≠ ':' ∧ ch ≠ '@' ∧ ch ≠ '#' ∧ ch ≠ '_' ∧
      u.isAlphabetic ch = false := by
    intro ch hch
    obtain rfl := List.mem_singleton.1 hch
    exact ⟨by decide, by decide, by decide, by decide, by decide, by decide, by decide, halpha⟩
  exact hidesNoQuoteFrom_append hplain h

/-- What an accepted subquery has passed. -/
theorem validateSubquery_ok (h : validateSubquerySqlWithMode u sql allowTopLevelSetOps = .ok ()) :
    Accepted u sql ∧ ∃ tokens, scanSqlTokensFrom "subquery" 0 0 sql = .ok tokens ∧
      (allowTopLevelSetOps = false → ∀ text called, SqlToken.word text 0 called ∈ tokens → anyKeyword SET_OPERATIONS text = false) := by
  unfold validateSubquerySqlWithMode at h
  cases hraw : validateRawSqlFragment u "subquery" sql with
  | error e =>
    rw [hraw] at h
    cases h
  | ok =>
    refine ⟨accepted_of_validate hraw, ?_⟩
    rw [hraw] at h
    cases hscan : scanSqlTokensFrom "subquery" 0 0 sql with
    | error e =>
      rw [collectTopLevelSqlWords, scanSqlTokens, hscan] at h
      cases h
    | ok tokens =>
      refine ⟨tokens, rfl, ?_⟩
      rintro rfl text called hmem
      have hword : (text.map Char.toLower, called) ∈ tokens.filterMap SqlToken.topLevelWord? :=
        List.mem_filterMap.2 ⟨_, hmem, rfl⟩
      rw [collectTopLevelSqlWords, scanSqlTokens, hscan] at h
      simp only [Except.map, bind, Except.bind, Bool.false_eq_true, if_false] at h
      split_ifs at h
      split at h
      · cases h
      · split at h
        · cases h
        · next hfind =>
          have hno := List.find?_eq_none.1 hfind _ hword
          rw [anyKeyword, List.any_eq_false]
          intro other hother heq
          rw [eqIgnoreAsciiCase, beq_iff_eq] at heq
          refine hno (List.contains_iff_mem.2 ?_)
          dsimp only
          rw [heq]
          simp only [SET_OPERATIONS, List.mem_cons, List.not_mem_nil, or_false] at hother ⊢
          rcases hother with rfl | rfl | rfl
          · exact .inl (by decide +kernel)
          · exact .inr (.inl (by decide +kernel))
          · exact .inr (.inr (by decide +kernel))

end Valid

/-- An accepted subquery, in which no bracketed name, dollar-quoted string or parameter holds a
quote and each of them closes the parentheses it opens, stays inside its parentheses. -/
theorem subquery_stays_inside (u : CharTables) (sql : List Char) (allowTopLevelSetOps sqlite : Bool)
    (hvalid : validateSubquerySqlWithMode u sql allowTopLevelSetOps = .ok ())
    (hhides : hidesNoQuote u sqlite (parenthesized sql) = true)
    (heven : EnclosesEvenly (scan u (parenthesized sql) sqlite)) :
    StaysInside allowTopLevelSetOps (scan u (parenthesized sql) sqlite) := by
  obtain ⟨⟨previous, haccepted⟩, tokens, hscan, hset⟩ := validateSubquery_ok hvalid
  have hinert : ∀ ch ∈ [')'], Inert ch := by
    intro ch hch
    obtain rfl := List.mem_singleton.1 hch
    simp [Inert, isQuote]
  have hacc : Accepted u (sql ++ [')']) := ⟨previous, findForbiddenFrom_append hinert _ _ _ haccepted⟩
  have hopen : scan u (parenthesized sql) sqlite =
      ⟨['('], 0, .symbol⟩ :: scanFrom u sqlite 0 ['('] (0 + '('.utf8Size) (sql ++ [')']) := by
    rw [scan, parenthesized, scanFrom_cons, lexToken_open]
    rfl
  rw [hopen] at heven ⊢
  obtain ⟨body, closing, hclosed⟩ := scan_closed sql.length sql ['('] (0 + '('.utf8Size) 0 0 tokens (Nat.le_refl _) hacc
    (hidesNoQuote_inside hhides) (fun token hmem => heven token (List.mem_cons_of_mem _ hmem)) hscan (pending_nil false)
  refine ⟨_, body, closing, by rw [hclosed.split], rfl, hclosed.closes, hclosed.nested, ?_⟩
  intro hallow front token after hsplit hfront
  by_contra hword
  rw [Bool.not_eq_false] at hword
  obtain ⟨called, hmem⟩ := hclosed.setWord front token after hsplit hfront hword
  have hno := hset hallow token.text called hmem
  simp only [Token.isWord, hno, Bool.and_false, Bool.false_eq_true] at hword

/-- A subquery with an array subscript and a cast, in SQLite's reading. -/
theorem cast_subquery_stays_inside :
    StaysInside false (scan asciiTables (parenthesized "SELECT tags[1], (total)::numeric(10,2) FROM t".toList) true) := by
  -- a text as its characters: the kernel would decode it from bytes at every use
  rw [String.toList_ofList]
  exact subquery_stays_inside asciiTables _ false true (by decide +kernel) (by decide +kernel) (by decide +kernel)

/-- A parenthesis in a bracketed name is counted by the check and hidden from the lexer, so the
subquery's last parenthesis closes the one around it. -/
theorem bracket_closes_subquery :
    validateSubquerySql asciiTables "SELECT 1 AS [(])".toList = .ok () ∧
      ∀ sqlite, ¬ StaysInside false (scan asciiTables (parenthesized "SELECT 1 AS [(])".toList) sqlite) := by
  refine ⟨by decide +kernel, fun sqlite hinside => ?_⟩
  obtain ⟨opening, body, closing, htokens, -, -, hnested, -⟩ := hinside
  have hbody : (scan asciiTables (parenthesized "SELECT 1 AS [(])".toList) sqlite).tail.dropLast = body := by
    rw [htokens]
    simp
  rw [← hbody] at hnested
  cases sqlite <;> exact absurd hnested (by decide +kernel)

end TideOrm
