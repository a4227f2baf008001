import TideOrm.Spec.Subquery
import TideOrm.Lib.Nesting
import TideOrm.Sanity.SqlPieces
import Mathlib.Data.List.TakeWhile

/-! The scan of a subquery character by character: between the quoted runs it counts each
parenthesis, and what it has read ahead is the rest of a word or of a number. -/

namespace TideOrm

open Lib

theorem wordChar_lt {ch : Char} (h : isWordChar ch = true) : ch.toNat < 128 := by
  simp only [isWordChar, Char.isAlphanum, Bool.or_eq_true, beq_iff_eq] at h
  rcases h with rfl | halpha | hdigit
  · decide
  · have hbounds := isAlpha_bounds halpha
    omega
  · have hbounds := Lib.toNat_of_isDigit hdigit
    omega

def isNumberChar (ch : Char) : Bool := ch.isDigit || ch == '.' || ch == '_' || ch == '+' || ch == '-'

/-- What may be left of a number: an `e` in it stands before the exponent. -/
def numberTail : List Char → Bool
  | [] => true
  | ch :: rest => (isNumberChar ch || ((ch == 'e' || ch == 'E') && rest.head?.any isNumberChar)) && numberTail rest

theorem numberTail_append {text tail : List Char} (h : ∀ ch ∈ text, isNumberChar ch = true)
    (htail : numberTail tail = true) : numberTail (text ++ tail) = true := by
  induction text with
  | nil => exact htail
  | cons ch text ih =>
    rw [List.cons_append, numberTail, h ch (List.mem_cons_self ..), Bool.true_or, Bool.true_and]
    exact ih fun c hc => h c (List.mem_cons_of_mem _ hc)

theorem numberTail_of_all {text : List Char} (h : ∀ ch ∈ text, isNumberChar ch = true) : numberTail text = true := by
  have happend := numberTail_append h (show numberTail [] = true from rfl)
  rwa [List.append_nil] at happend

/-- The sign and the digits of an exponent. -/
theorem exponent_chars (after : List Char) {sign : ℕ}
    (hsign : sign = if after.head? = some '+' ∨ after.head? = some '-' then 1 else 0) :
    ∀ ch ∈ after.take (sign + ((after.drop sign).takeWhile Char.isDigit).length), isNumberChar ch = true := by
  intro ch hch
  rw [List.take_add] at hch
  rcases List.mem_append.1 hch with hmem | hmem
  · cases after with
    | nil => simp at hmem
    | cons c after =>
      split at hsign
      · next hhead =>
        subst hsign
        obtain rfl : ch = c := by simpa using hmem
        rcases hhead with hhead | hhead
        · obtain rfl := Option.some.inj hhead
          rfl
        · obtain rfl := Option.some.inj hhead
          rfl
      · subst hsign
        simp at hmem
  · rw [← List.prefix_iff_eq_take.1 (List.takeWhile_prefix _)] at hmem
    simp [isNumberChar, List.mem_takeWhile_imp hmem]

theorem numericLiteral_tail (first : Char) (rest : List Char) :
    numberTail (rest.take (numericLiteralLen (first :: rest) - 1)) = true := by
  set p : Char → Bool := fun ch => ch.isDigit || ch == '.' || ch == '_' with hp
  have hdigits : ∀ ch ∈ rest.takeWhile p, isNumberChar ch = true := by
    intro ch hch
    have hdigit := List.mem_takeWhile_imp hch
    simp only [hp, Bool.or_eq_true] at hdigit
    simp only [isNumberChar, Bool.or_eq_true]
    tauto
  simp only [numericLiteralLen, List.drop_succ_cons, List.drop_zero, Nat.add_comm 1, ← hp]
  have hsplit : rest.takeWhile p ++ rest.dropWhile p = rest := List.takeWhile_append_dropWhile
  generalize rest.takeWhile p = digits at hdigits hsplit ⊢
  generalize rest.dropWhile p = tail at hsplit
  subst hsplit
  have hshort : numberTail ((digits ++ tail).take digits.length) = true := by
    rw [List.take_left]
    exact numberTail_of_all hdigits
  rw [List.drop_left]
  cases tail with
  | nil => simpa using hshort
  | cons e after =>
    dsimp only
    by_cases he : e = 'e' ∨ e = 'E'
    · rw [if_pos he]
      generalize hsign : (if after.head? = some '+' ∨ after.head? = some '-' then 1 else 0) = sign
      have hexponent := exponent_chars after hsign.symm
      have hempty : after = [] → ((after.drop sign).takeWhile Char.isDigit).length = 0 := by
        rintro rfl
        simp
      generalize ((after.drop sign).takeWhile Char.isDigit).length = exponent at hexponent hempty ⊢
      by_cases hzero : exponent = 0
      · rw [if_pos hzero]
        simpa using hshort
      · have hlen : digits.length + 1 + 1 + sign + exponent - 1 = digits.length + (sign + exponent + 1) := by omega
        rw [if_neg hzero, hlen, List.take_length_add_append, List.take_succ_cons]
        refine numberTail_append hdigits ?_
        cases after with
        | nil => exact absurd (hempty rfl) hzero
        | cons c after =>
          obtain ⟨m, hm⟩ : ∃ m, sign + exponent = m + 1 := ⟨sign + exponent - 1, by omega⟩
          rw [hm, List.take_succ_cons] at hexponent ⊢
          have he : (e == 'e' || e == 'E') = true := by simpa using he
          have hc := hexponent c (List.mem_cons_self ..)
          rw [numberTail, he, List.head?_cons, Option.any_some, hc, numberTail_of_all hexponent]
          simp
    · rw [if_neg he]
      simpa using hshort

/-- What the scan has read ahead: the rest of a number, or of a word if there was one. -/
def Pending (word : Bool) (text : List Char) : Prop := numberTail text = true ∨ (word = true ∧ ∀ ch ∈ text, isWordChar ch = true)

def isWordStart (ch : Char) : Bool := ch == '_' || ch.isAlpha

def opensParen (ch : Char) : Bool := ch == '('

def closesParen (ch : Char) : Bool := ch == ')'

/-- The characters that words and numbers are made of. -/
def isRunChar (ch : Char) : Bool := isWordChar ch || isNumberChar ch

theorem pending_runChar {word : Bool} {ch : Char} {text : List Char} (h : Pending word (ch :: text)) :
    isRunChar ch = true ∧ Pending word text := by
  rcases h with h | ⟨hword, h⟩
  · rw [numberTail, Bool.and_eq_true] at h
    refine ⟨?_, .inl h.2⟩
    have hch := h.1
    simp only [Bool.or_eq_true, Bool.and_eq_true, beq_iff_eq] at hch
    rcases hch with hnumber | ⟨rfl | rfl, -⟩
    · simp [isRunChar, hnumber]
    · rfl
    · rfl
  · exact ⟨by simp [isRunChar, h ch (List.mem_cons_self ..)], .inr ⟨hword, fun c hc => h c (List.mem_cons_of_mem _ hc)⟩⟩

theorem Pending.weaken {word more : Bool} {text : List Char} (h : Pending word text) : Pending (word || more) text := by
  rcases h with h | ⟨rfl, h⟩
  · exact .inl h
  · exact .inr ⟨rfl, h⟩

theorem pending_nil (word : Bool) : Pending word [] := .inl rfl

theorem runChar_plain {ch : Char} (h : isRunChar ch = true) : isWhitespace ch = false ∧ isQuote ch = false ∧
    opensParen ch = false ∧ closesParen ch = false := by
  have hlt : ch.toNat < 128 := by
    simp only [isRunChar, isNumberChar, Bool.or_eq_true, beq_iff_eq] at h
    rcases h with hword | (((hdigit | rfl) | rfl) | rfl) | rfl
    · exact wordChar_lt hword
    · have hbounds := Lib.toNat_of_isDigit hdigit
      omega
    all_goals decide
  have hall : ∀ n < 128, isRunChar (Char.ofNat n) = true → isWhitespace (Char.ofNat n) = false ∧
      isQuote (Char.ofNat n) = false ∧ opensParen (Char.ofNat n) = false ∧ closesParen (Char.ofNat n) = false := by
    decide +kernel
  simpa using hall ch.toNat hlt (by simpa using h)

theorem isWordChar_of_start {ch : Char} (h : ch = '_' ∨ ch.isAlpha = true) : isWordChar ch = true := by
  rcases h with rfl | halpha
  · rfl
  · simp [isWordChar, Char.isAlphanum, halpha]

/-- The scan reads a word, and has read ahead to its end. -/
theorem scan_word {kind : String} {depth : ℕ} {ch : Char} {rest : List Char} {tokens : List SqlToken}
    (hword : ch = '_' ∨ ch.isAlpha = true) (h : scanSqlTokensFrom kind 0 depth (ch :: rest) = .ok tokens) :
    ∃ called tokens', tokens = .word (ch :: rest.takeWhile isWordChar) depth called :: tokens' ∧
      scanSqlTokensFrom kind (rest.takeWhile isWordChar).length depth rest = .ok tokens' := by
  have hchar := isWordChar_of_start hword
  obtain ⟨hspace, hquote, hopen, hclose⟩ := @runChar_plain ch (by simp [isRunChar, hchar])
  simp only [isQuote, Bool.or_eq_false_iff, beq_eq_false_iff_ne] at hquote
  simp only [opensParen, closesParen, beq_eq_false_iff_ne] at hopen hclose
  have hdigit : ch.isDigit = false := by
    rw [Bool.eq_false_iff]
    intro hdigit
    have hbounds := Lib.toNat_of_isDigit hdigit
    rcases hword with rfl | halpha
    · revert hdigit
      decide
    · have := isAlpha_bounds halpha
      omega
  rw [scanSqlTokensFrom] at h
  simp only [hspace, hquote.1.1, hquote.1.2, hquote.2, hopen, hclose, hdigit, if_pos hword, or_self, if_false,
    Bool.false_eq_true, List.takeWhile_cons, hchar, if_true, List.length_cons, Nat.add_sub_cancel] at h
  cases hrest : scanSqlTokensFrom kind (rest.takeWhile isWordChar).length depth rest with
  | error e =>
    rw [hrest] at h
    cases h
  | ok tokens' =>
    rw [hrest] at h
    exact ⟨_, tokens', (Except.ok.inj h).symm, rfl⟩

/-- The scan reads one character that is not a quote. -/
theorem scan_char {kind : String} {skip depth : ℕ} {ch : Char} {rest : List Char} {tokens : List SqlToken} {word : Bool}
    (hquote : isQuote ch = false) (h : scanSqlTokensFrom kind skip depth (ch :: rest) = .ok tokens)
    (hpending : Pending word ((ch :: rest).take skip)) :
    ∃ skip' depth' tokens', scanSqlTokensFrom kind skip' depth' rest = .ok tokens' ∧
      nesting opensParen closesParen depth [ch] = some depth' ∧ tokens' ⊆ tokens ∧
      Pending (word || isWordStart ch) (rest.take skip') ∧ (isRunChar ch = false → skip' = 0) := by
  cases skip with
  | succ skip =>
    rw [List.take_succ_cons] at hpending
    obtain ⟨hrun, hpending⟩ := pending_runChar hpending
    obtain ⟨-, -, hopen, hclose⟩ := runChar_plain hrun
    exact ⟨skip, depth, tokens, h, by simp [nesting, hopen, hclose], List.Subset.refl _, hpending.weaken,
      fun hno => absurd hrun (by simp [hno])⟩
  | zero =>
    simp only [isQuote, Bool.or_eq_false_iff, beq_eq_false_iff_ne] at hquote
    obtain ⟨⟨hsingle, hdouble⟩, hback⟩ := hquote
    have hplain : ch ≠ '(' → ch ≠ ')' → nesting opensParen closesParen depth [ch] = some depth := by
      intro hopen hclose
      simp [nesting, opensParen, closesParen, hopen, hclose]
    by_cases hword : ch = '_' ∨ ch.isAlpha = true
    · obtain ⟨called, tokens', rfl, hrest⟩ := scan_word hword h
      have hchar := isWordChar_of_start hword
      obtain ⟨-, -, hopen, hclose⟩ := @runChar_plain ch (by simp [isRunChar, hchar])
      refine ⟨_, depth, tokens', hrest, by simp [nesting, hopen, hclose], List.subset_cons_self .., ?_,
        fun hno => absurd hchar (by simp [isRunChar] at hno; simp [hno])⟩
      refine .inr ⟨by simpa [isWordStart] using .inr hword, fun c hc => ?_⟩
      rw [← List.prefix_iff_eq_take.1 (List.takeWhile_prefix _)] at hc
      exact List.mem_takeWhile_imp hc
    rw [scanSqlTokensFrom] at h
    simp only [hsingle, hdouble, hback, or_self, if_false, if_neg hword] at h
    split_ifs at h with hspace hopen hclose hzero hdigit
    · have hne : ch ≠ '(' ∧ ch ≠ ')' := by
        constructor
        · rintro rfl
          revert hspace
          decide
        · rintro rfl
          revert hspace
          decide
      exact ⟨0, depth, tokens, h, hplain hne.1 hne.2, List.Subset.refl _, pending_nil _, fun _ => rfl⟩
    · exact ⟨0, depth + 1, tokens, h, by simp [nesting, opensParen, hopen], List.Subset.refl _, pending_nil _, fun _ => rfl⟩
    · refine ⟨0, depth - 1, tokens, h, ?_, List.Subset.refl _, pending_nil _, fun _ => rfl⟩
      simp [nesting, opensParen, closesParen, hclose, hzero]
    · exact ⟨_, depth, tokens, h, hplain hopen hclose, List.Subset.refl _, .inl (numericLiteral_tail ch rest),
        fun hno => absurd hdigit (by simp [isRunChar, isNumberChar] at hno; simp [hno])⟩
    · cases hrest : scanSqlTokensFrom kind 0 depth rest with
      | error e =>
        rw [hrest] at h
        cases h
      | ok tokens' =>
        rw [hrest] at h
        obtain rfl := Except.ok.inj h
        exact ⟨0, depth, tokens', hrest, hplain hopen hclose, List.subset_cons_self .., pending_nil _, fun _ => rfl⟩

section

variable {kind : String} {skip depth : ℕ} {rest : List Char} {tokens : List SqlToken} {word : Bool}

/-- The scan reads text without quotes. -/
theorem scan_text {text : List Char} (hquote : ∀ ch ∈ text, isQuote ch = false)
    (h : scanSqlTokensFrom kind skip depth (text ++ rest) = .ok tokens) (hpending : Pending word ((text ++ rest).take skip)) :
    ∃ skip' depth' tokens', scanSqlTokensFrom kind skip' depth' rest = .ok tokens' ∧
      nesting opensParen closesParen depth text = some depth' ∧ tokens' ⊆ tokens ∧
      Pending (word || text.any isWordStart) (rest.take skip') := by
  induction text generalizing skip depth tokens word with
  | nil => exact ⟨skip, depth, tokens, h, rfl, List.Subset.refl _, by simpa using hpending⟩
  | cons ch text ih =>
    obtain ⟨skip₁, depth₁, tokens₁, h₁, hnesting₁, hsub₁, hpending₁, -⟩ :=
      scan_char (hquote ch (List.mem_cons_self ..)) h hpending
    obtain ⟨skip₂, depth₂, tokens₂, h₂, hnesting₂, hsub₂, hpending₂⟩ :=
      ih (fun c hc => hquote c (List.mem_cons_of_mem _ hc)) h₁ hpending₁
    refine ⟨skip₂, depth₂, tokens₂, h₂, ?_, List.Subset.trans hsub₂ hsub₁, by simpa [Bool.or_assoc] using hpending₂⟩
    rw [← List.singleton_append, nesting_append, hnesting₁]
    exact hnesting₂

/-- No word that begins in the text goes on in the rest. -/
def EndsWords (text rest : List Char) : Prop :=
  text.any isWordStart = false ∨ (∀ ch, rest.head? = some ch → isWordChar ch = false) ∨
    ∃ ch, text.getLast? = some ch ∧ isRunChar ch = false

/-- The scan reads a token that is not in quotes. -/
theorem scan_token {text : List Char} (hquote : ∀ ch ∈ text, isQuote ch = false) (hends : EndsWords text rest)
    (h : scanSqlTokensFrom kind skip depth (text ++ rest) = .ok tokens) (hpending : Pending false ((text ++ rest).take skip)) :
    ∃ skip' depth' tokens', scanSqlTokensFrom kind skip' depth' rest = .ok tokens' ∧
      nesting opensParen closesParen depth text = some depth' ∧ tokens' ⊆ tokens ∧ Pending false (rest.take skip') := by
  rcases hends with hstart | hnext | ⟨ch, hlast, hrun⟩
  · obtain ⟨skip', depth', tokens', h', hnesting, hsub, hpending'⟩ := scan_text hquote h hpending
    exact ⟨skip', depth', tokens', h', hnesting, hsub, by simpa [hstart] using hpending'⟩
  · obtain ⟨skip', depth', tokens', h', hnesting, hsub, hpending'⟩ := scan_text hquote h hpending
    refine ⟨skip', depth', tokens', h', hnesting, hsub, ?_⟩
    rcases hpending' with hnumber | ⟨-, hword⟩
    · exact .inl hnumber
    · cases rest with
      | nil => simpa using pending_nil false
      | cons ch rest =>
        cases skip' with
        | zero => exact pending_nil false
        | succ skip' => exact absurd (hword ch (by simp)) (by simp [hnext ch rfl])
  · obtain ⟨front, rfl⟩ := List.getLast?_eq_some_iff.1 hlast
    rw [List.append_assoc] at h hpending
    obtain ⟨skip₁, depth₁, tokens₁, h₁, hnesting₁, hsub₁, hpending₁⟩ :=
      scan_text (fun c hc => hquote c (List.mem_append_left _ hc)) h hpending
    obtain ⟨skip₂, depth₂, tokens₂, h₂, hnesting₂, hsub₂, -, hzero⟩ := scan_char (hquote ch (by simp)) h₁ hpending₁
    obtain rfl := hzero hrun
    refine ⟨0, depth₂, tokens₂, h₂, ?_, List.Subset.trans hsub₂ hsub₁, pending_nil false⟩
    rw [nesting_append, hnesting₁]
    exact hnesting₂

theorem scan_skip : ∀ (rest : List Char) (skip : ℕ),
    scanSqlTokensFrom kind skip depth rest = scanSqlTokensFrom kind 0 depth (rest.drop skip) := by
  intro rest
  induction rest with
  | nil => intro skip; cases skip <;> rfl
  | cons ch rest ih =>
    intro skip
    cases skip with
    | zero => rfl
    | succ skip => exact ih skip

/-- The scan reads a quoted token, with nothing read ahead. -/
theorem scan_quoted {ch : Char} (hquote : isQuote ch = true)
    (h : scanSqlTokensFrom kind skip depth (ch :: rest) = .ok tokens) (hpending : Pending false ((ch :: rest).take skip)) :
    ∃ n, quotedRun ch .rejectAmbiguous (ch :: rest) = (n, .closed) ∧
      scanSqlTokensFrom kind 0 depth ((ch :: rest).drop n) = .ok tokens := by
  cases skip with
  | succ skip =>
    rw [List.take_succ_cons] at hpending
    obtain ⟨-, hno, -⟩ := runChar_plain (pending_runChar hpending).1
    rw [hquote] at hno
    cases hno
  | zero =>
    have hspace : isWhitespace ch = false := by
      simp only [isQuote, Bool.or_eq_true, beq_iff_eq] at hquote
      rcases hquote with (rfl | rfl) | rfl <;> decide
    have hcases : ch = '\'' ∨ ch = '"' ∨ ch = '`' := by
      simpa [isQuote, or_assoc] using hquote
    rw [scanSqlTokensFrom] at h
    simp only [hspace, Bool.false_eq_true, if_false, consumeQuotedRun] at h
    rcases hrun : quotedRun ch .rejectAmbiguous (ch :: rest) with ⟨n, run⟩
    have hpos : run = .closed → 1 < n := by
      rintro rfl
      exact (quotedEnd_closed_bounds hrun).1
    have hrest : run = .closed → scanSqlTokensFrom kind (n - 1) depth rest = .ok tokens →
        scanSqlTokensFrom kind 0 depth ((ch :: rest).drop n) = .ok tokens := by
      intro hclosed hscan
      obtain ⟨m, rfl⟩ : ∃ m, n = m + 1 := ⟨n - 1, by have := hpos hclosed; omega⟩
      rwa [Nat.add_sub_cancel, scan_skip] at hscan
    rw [hrun] at h
    by_cases hsingle : ch = '\''
    · rw [if_pos hsingle] at h
      cases run with
      | closed => exact ⟨n, rfl, hrest rfl h⟩
      | unterminated => cases h
      | ambiguousEscape => cases h
    · rw [if_neg hsingle, if_pos (hcases.resolve_left hsingle)] at h
      cases run with
      | closed => exact ⟨n, rfl, hrest rfl h⟩
      | unterminated => cases h
      | ambiguousEscape => cases h

end

end TideOrm
