import TideOrm.Lib.Words
import TideOrm.Proofs.SqliteTokens
import Mathlib.Data.List.Forall2

/-! The migrations that switch SQLite's foreign keys off are recognized, but for the `==` that assigns
a value too. -/

namespace TideOrm

section Values

/-- Digits are pushed while the number stays a signed 32-bit integer. -/
theorem foldlM_pushDigit {radix : ℕ} (hradix : 0 < radix) (digits : List Char) : ∀ number ≤ 2147483647,
    digits.foldlM (pushDigit radix) number =
      if number * radix ^ digits.length + Lib.radixValue radix (digits.map hexDigitValue) ≤ 2147483647 then
        some (number * radix ^ digits.length + Lib.radixValue radix (digits.map hexDigitValue)) else none := by
  induction digits with
  | nil =>
    intro number hnumber
    simp [hnumber]
  | cons ch digits ih =>
    intro number hnumber
    have hvalue : number * radix ^ (ch :: digits).length + Lib.radixValue radix ((ch :: digits).map hexDigitValue) =
        (number * radix + hexDigitValue ch) * radix ^ digits.length + Lib.radixValue radix (digits.map hexDigitValue) := by
      rw [List.map_cons, Lib.radixValue_cons, List.length_map, List.length_cons]
      ring
    rw [hvalue, List.foldlM_cons, pushDigit]
    by_cases hpushed : number * radix + hexDigitValue ch ≤ 2147483647
    · rw [if_pos hpushed]
      exact ih _ hpushed
    · have hpow : 1 ≤ radix ^ digits.length := Nat.one_le_pow _ _ hradix
      have hle : number * radix + hexDigitValue ch ≤ (number * radix + hexDigitValue ch) * radix ^ digits.length := Nat.le_mul_of_pos_right _ hpow
      rw [if_neg hpushed, if_neg (by omega)]
      rfl

theorem fromStrRadix_any {radix : ℕ} (hradix : 0 < radix) {digits : List Char} (hne : digits ≠ []) :
    ((fromStrRadix digits radix).any fun number => number % 256 != 0) = !(pragmaInteger radix digits % 256 == 0) := by
  have hfold := foldlM_pushDigit hradix digits 0 (Nat.zero_le _)
  rw [Nat.zero_mul, Nat.zero_add] at hfold
  rw [fromStrRadix, if_neg hne, hfold, pragmaInteger]
  split_ifs with hvalue
  · rfl
  · rfl

theorem stripHex_filter (value : List Char) :
    ((stripHex value).filter fun hex => hex.head?.any isHexDigit) =
      if value.head? = some '0' ∧ (value[1]? = some 'x' ∨ value[1]? = some 'X') ∧ value[2]?.any isHexDigit then some (value.drop 2) else none := by
  cases value with
  | nil => rfl
  | cons zero value =>
    cases value with
    | nil => simp [stripHex]
    | cons x value =>
      have hmarked : (['0', 'x'].isPrefixOf (zero :: x :: value) || ['0', 'X'].isPrefixOf (zero :: x :: value)) = true ↔
          zero = '0' ∧ (x = 'x' ∨ x = 'X') := by
        simp only [List.isPrefixOf, Bool.and_true, Bool.or_eq_true, Bool.and_eq_true, beq_iff_eq, ← and_or_left]
        exact and_congr eq_comm (or_congr eq_comm eq_comm)
      have hstrip : stripHex (zero :: x :: value) = if zero = '0' ∧ (x = 'x' ∨ x = 'X') then some value else none := if_congr hmarked rfl rfl
      have hnext : (zero :: x :: value)[2]? = value.head? := by
        cases value <;> rfl
      rw [hstrip, hnext]
      by_cases hhex : zero = '0' ∧ (x = 'x' ∨ x = 'X')
      · rw [if_pos hhex, Option.filter_some]
        refine if_congr ?_ rfl rfl
        simp [hhex.1, hhex.2]
      · rw [if_neg hhex, if_neg]
        · rfl
        · simp only [List.head?_cons, List.getElem?_cons_succ, List.getElem?_cons_zero, Option.some.injEq]
          exact fun h => hhex ⟨h.1, h.2.1⟩

theorem takeWhile_ne_nil {p : Char → Bool} {text : List Char} (h : text.head?.any p = true) : text.takeWhile p ≠ [] := by
  cases text with
  | nil => cases h
  | cons ch text =>
    have hch : p ch = true := h
    rw [List.takeWhile_cons_of_pos hch]
    exact List.cons_ne_nil _ _

/-- The conversion is SQLite's. -/
theorem sqlitePragmaEnabled_eq (value : List Char) : sqlitePragmaEnabled value = !pragmaFalse value := by
  rw [sqlitePragmaEnabled, pragmaFalse]
  by_cases hdigit : value.head?.any Char.isDigit = true
  · rw [if_pos hdigit, if_pos hdigit, stripHex_filter, leadingInteger]
    split_ifs with hhex
    · refine fromStrRadix_any (by decide) (takeWhile_ne_nil ?_)
      rw [List.head?_drop]
      exact hhex.2.2
    · exact fromStrRadix_any (by decide) (takeWhile_ne_nil hdigit)
  · rw [if_neg hdigit, if_neg hdigit, Bool.not_not]
    simp only [anyKeyword, List.any_cons, List.any_nil, Bool.or_false]
    rw [Bool.or_comm (eqIgnoreAsciiCase value "true".toList)]

end Values

section Statements

variable {u : CharTables}

theorem isSymbol_of_kind {t : Token} (h : t.kind ≠ .symbol) (symbols : List (List Char)) : t.isSymbol symbols = false := by
  rw [Token.isSymbol, beq_eq_false_iff_ne.2 h, Bool.false_and]

theorem isSymbol_of_text {t : Token} {text : List Char} (h : t.text ≠ text) : t.isSymbol [text] = false := by
  simp [Token.isSymbol, h]

theorem isSymbol_symbolToken (ch : Char) : (symbolToken ch).isSymbol [[ch]] = true := by simp [Token.isSymbol, symbolToken]

/-- A name is one lexeme that spells it. -/
theorem Lexed.of_name {nm : Nm} {read : List Token} (h : Lexed (.name nm) read) :
    ∃ t, read = [t] ∧ t.unquoted = some nm.text ∧ t.kind ≠ .symbol := by
  cases h with
  | bare => exact ⟨_, rfl, rfl, Kind.noConfusion⟩
  | quoted quote content =>
    refine ⟨_, rfl, unquoted_spell quote content, ?_⟩
    show quotedKind quote ≠ .symbol
    unfold quotedKind
    split_ifs <;> decide

/-- A quoted name is longer than its quote. -/
theorem quoted_ne (quote : Char) (content : List Char) (ch : Char) : (Nm.quoted quote content).spell ≠ [ch] := by
  intro heq
  have hlength := congrArg List.length heq
  simp [Nm.spell] at hlength

/-- The lexemes of a pragma's value, a unary plus in front of them or not. -/
structure ReadsValue (read core : List Token) (text : List Char) : Prop where
  plus : (read = core ∧ ∀ t ∈ core.head?, t.isSymbol [['+']] = false) ∨ read = symbolToken '+' :: core
  nonempty : core ≠ []
  value : valueText core = text
  parenthesis : ∀ t ∈ core, t.isSymbol [[')']] = false

theorem valueText_cons (first second : Token) (rest : List Token) :
    valueText (first :: second :: rest) = (first :: second :: rest).flatMap Token.text := rfl

theorem NumberLexemes.text_ne {text : List Char} {read : List Token} (h : NumberLexemes text read) (hrun : NumberRun text) {ch : Char}
    (hch : isWordChar ch = false ∧ ch ≠ '.' ∧ ch ≠ '+' ∧ ch ≠ '-') : ∀ t ∈ read, t.text ≠ [ch] := by
  intro t ht heq
  have hmem : ch ∈ text := by
    rw [← h.text]
    exact List.mem_flatMap.2 ⟨t, ht, by rw [heq]; exact List.mem_singleton_self ch⟩
  rcases hrun.chars ch hmem with hword | hdot | hplus | hminus
  · rw [hch.1] at hword
    cases hword
  · exact hch.2.1 hdot
  · exact hch.2.2.1 hplus
  · exact hch.2.2.2 hminus

theorem number_first_ne {first ch : Char} (hfirst : first.isDigit = true ∨ first = '.') (hch : ch.isDigit = false ∧ ch ≠ '.') : first ≠ ch := by
  rintro rfl
  rcases hfirst with hdigit | hdot
  · rw [hch.1] at hdigit
    cases hdigit
  · exact hch.2 hdot

/-- A number is read as its value. -/
theorem readsValue_number {text : List Char} {read : List Token} (h : Lexed (.number text) read) :
    ReadsValue read read text ∧ ReadsValue (symbolToken '+' :: read) read text ∧
      ReadsValue (symbolToken '-' :: read) (symbolToken '-' :: read) ('-' :: text) := by
  cases h with
  | @number first text read hfirst hrun hread =>
    have hparenthesis : ∀ t ∈ symbolToken first :: read, t.isSymbol [[')']] = false := by
      refine List.forall_mem_cons.2 ⟨isSymbol_of_text ?_, fun t ht => isSymbol_of_text (hread.text_ne hrun (by decide) t ht)⟩
      exact fun heq => number_first_ne hfirst (by decide) (List.cons.inj heq).1
    have htext : (symbolToken first :: read).flatMap Token.text = first :: text := by
      rw [List.flatMap_cons, hread.text]
      rfl
    have hvalue : valueText (symbolToken first :: read) = first :: text := by
      cases read with
      | nil =>
        rw [← htext]
        rfl
      | cons t read => rw [valueText_cons, htext]
    have hplus : ∀ t ∈ (symbolToken first :: read).head?, t.isSymbol [['+']] = false := by
      rintro t ht
      rw [← Option.some.inj ht]
      exact isSymbol_of_text fun heq => number_first_ne hfirst (by decide) (List.cons.inj heq).1
    refine ⟨⟨Or.inl ⟨rfl, hplus⟩, List.cons_ne_nil _ _, hvalue, hparenthesis⟩, ⟨Or.inr rfl, List.cons_ne_nil _ _, hvalue, hparenthesis⟩, ?_⟩
    refine ⟨Or.inl ⟨rfl, ?_⟩, List.cons_ne_nil _ _, ?_, List.forall_mem_cons.2 ⟨by decide, hparenthesis⟩⟩
    · rintro t ht
      rw [← Option.some.inj ht]
      decide
    · rw [valueText_cons, List.flatMap_cons, htext]
      rfl

/-- A value is read up to what follows it. -/
theorem value_read (value : PragmaValue) {rest : List SqliteToken} {reads : List (List Token)}
    (h : List.Forall₂ Lexed (value.tokens ++ rest) reads) :
    ∃ read core reads', reads.flatten = read ++ reads'.flatten ∧ ReadsValue read core value.text ∧ List.Forall₂ Lexed rest reads' := by
  cases value with
  | name nm =>
    obtain ⟨read, reads', hread, hreads, rfl⟩ := List.forall₂_cons_left_iff.1 h
    obtain ⟨t, rfl, hunquoted, hkind⟩ := hread.of_name
    refine ⟨[t], [t], reads', rfl, ⟨Or.inl ⟨rfl, ?_⟩, List.cons_ne_nil _ _, ?_, List.forall_mem_singleton.2 (isSymbol_of_kind hkind _)⟩, hreads⟩
    · rintro other hother
      rw [← Option.some.inj hother]
      exact isSymbol_of_kind hkind _
    · rw [valueText, hunquoted]
      rfl
  | number text =>
    obtain ⟨read, reads', hread, hreads, rfl⟩ := List.forall₂_cons_left_iff.1 h
    exact ⟨read, read, reads', rfl, (readsValue_number hread).1, hreads⟩
  | plus text =>
    obtain ⟨sign, reads₁, hsign, hreads₁, rfl⟩ := List.forall₂_cons_left_iff.1 h
    obtain ⟨read, reads', hread, hreads, rfl⟩ := List.forall₂_cons_left_iff.1 hreads₁
    cases hsign
    exact ⟨symbolToken '+' :: read, read, reads', rfl, (readsValue_number hread).2.1, hreads⟩
  | minus text =>
    obtain ⟨sign, reads₁, hsign, hreads₁, rfl⟩ := List.forall₂_cons_left_iff.1 h
    obtain ⟨read, reads', hread, hreads, rfl⟩ := List.forall₂_cons_left_iff.1 hreads₁
    cases hsign
    exact ⟨symbolToken '-' :: read, symbolToken '-' :: read, reads', rfl, (readsValue_number hread).2.2, hreads⟩

/-- What the code makes of the tokens behind the pragma's name. -/
def argumentDisables (args : List Token) : Bool :=
  (args.head?.any fun token => token.isSymbol [['='], ['(']]) &&
    !sqlitePragmaEnabled (valueText
      ((if args[1]?.any fun token => token.isSymbol [['+']] then args.drop 2 else args.drop 1).takeWhile fun token => !token.isSymbol [[')']]))

theorem statementDisables_pragma {keyword : List Char} (hkeyword : eqIgnoreAsciiCase keyword "pragma".toList = true) {schema : List Token}
    (hschema : schema = [] ∨ ∃ t, schema = [t, symbolToken '.']) (name : Token) {args : List Token}
    (hargs : ∀ t ∈ args.head?, t.isSymbol [['.']] = false) :
    statementDisables (⟨keyword, 0, .word⟩ :: (schema ++ name :: args)) =
      ((name.unquoted.any fun name => eqIgnoreAsciiCase name "foreign_keys".toList) && argumentDisables args) := by
  have hword : Token.isWord ⟨keyword, 0, .word⟩ ["pragma".toList] = true := by
    rw [Token.isWord, anyKeyword, List.any_cons, hkeyword]
    rfl
  have hrest : (if (schema ++ name :: args)[1]?.any fun token => token.isSymbol [['.']] then (schema ++ name :: args).drop 2 else schema ++ name :: args) =
      name :: args := by
    rcases hschema with rfl | ⟨t, rfl⟩
    · cases args with
      | nil => rfl
      | cons arg args => exact if_neg (Bool.eq_false_iff.1 (hargs arg rfl))
    · rfl
  rw [statementDisables, hword, Bool.not_true, if_neg Bool.false_ne_true, hrest, argumentDisables]
  show (if (!_ || !_) = true then false else !sqlitePragmaEnabled _) = _
  cases name.unquoted.any fun name => eqIgnoreAsciiCase name "foreign_keys".toList <;>
    cases args.head?.any fun token => token.isSymbol [['='], ['(']] <;> rfl

section Arguments

variable {read core : List Token} {text : List Char}

theorem ReadsValue.drop (h : ReadsValue read core text) (opening : Token) (tail : List Token) :
    (if (opening :: (read ++ tail))[1]?.any fun token => token.isSymbol [['+']] then (opening :: (read ++ tail)).drop 2
      else (opening :: (read ++ tail)).drop 1) = core ++ tail := by
  rcases h.plus with ⟨rfl, hhead⟩ | rfl
  · obtain ⟨first, more, rfl⟩ := List.exists_cons_of_ne_nil h.nonempty
    exact if_neg (Bool.eq_false_iff.1 (hhead first rfl))
  · exact if_pos (isSymbol_symbolToken '+')

theorem ReadsValue.takeWhile (h : ReadsValue read core text) {tail : List Token} (htail : ∀ t ∈ tail.head?, t.isSymbol [[')']] = true) :
    (core ++ tail).takeWhile (fun token => !token.isSymbol [[')']]) = core := by
  rw [List.takeWhile_append_of_pos fun t ht => by rw [h.parenthesis t ht]; rfl]
  cases tail with
  | nil => exact List.append_nil core
  | cons t tail => rw [List.takeWhile_cons_of_neg (by rw [htail t rfl]; exact Bool.false_ne_true), List.append_nil]

/-- The value is read up to the tail. -/
theorem ReadsValue.disables (h : ReadsValue read core text) {opening : Token} (hopening : opening.isSymbol [['='], ['(']] = true) {tail : List Token}
    (htail : ∀ t ∈ tail.head?, t.isSymbol [[')']] = true) :
    argumentDisables (opening :: (read ++ tail)) = pragmaFalse text := by
  rw [argumentDisables, h.drop opening tail, h.takeWhile htail, h.value, sqlitePragmaEnabled_eq, Bool.not_not, List.head?_cons, Option.any_some,
    hopening, Bool.true_and]

theorem argumentDisables_single (h : ReadsValue read core text) : argumentDisables (symbolToken '=' :: read) = pragmaFalse text := by
  have hdisables := @ReadsValue.disables read core text h (symbolToken '=') rfl [] fun _ ht => by cases ht
  rwa [List.append_nil] at hdisables

theorem argumentDisables_called (h : ReadsValue read core text) :
    argumentDisables (symbolToken '(' :: (read ++ [symbolToken ')'])) = pragmaFalse text := by
  refine h.disables rfl ?_
  rintro t ht
  rw [← Option.some.inj ht]
  rfl

/-- Nothing that begins with `=` is a name or a number. -/
theorem sqlitePragmaEnabled_equals (text : List Char) : sqlitePragmaEnabled ('=' :: text) = false := by
  have hdigit : ¬('=' :: text).head?.any Char.isDigit = true := Bool.false_ne_true
  rw [sqlitePragmaEnabled, if_neg hdigit]
  simp only [anyKeyword, List.any_cons, List.any_nil, eqIgnoreAsciiCase, Bool.or_false]
  rfl

/-- The second `=` is taken for the value's first character. -/
theorem argumentDisables_double (h : ReadsValue read core text) : argumentDisables (symbolToken '=' :: symbolToken '=' :: read) = true := by
  have hparenthesis : ∀ t ∈ read, (!t.isSymbol [[')']]) = true := by
    intro t ht
    rcases h.plus with ⟨rfl, -⟩ | rfl
    · rw [h.parenthesis t ht]
      rfl
    · rcases List.mem_cons.1 ht with rfl | ht
      · rfl
      · rw [h.parenthesis t ht]
        rfl
  have hread : (symbolToken '=' :: read).takeWhile (fun token => !token.isSymbol [[')']]) = symbolToken '=' :: read :=
    List.takeWhile_eq_self_iff.2 (List.forall_mem_cons.2 ⟨rfl, hparenthesis⟩)
  obtain ⟨first, more, hmore⟩ : ∃ first more, read = first :: more := by
    rcases h.plus with ⟨rfl, -⟩ | rfl
    · exact List.exists_cons_of_ne_nil h.nonempty
    · exact ⟨_, _, rfl⟩
  have hvalue : valueText (symbolToken '=' :: read) = '=' :: read.flatMap Token.text := by
    rw [hmore]
    rfl
  show (true && !sqlitePragmaEnabled (valueText ((symbolToken '=' :: read).takeWhile fun token => !token.isSymbol [[')']]))) = true
  rw [hread, hvalue, sqlitePragmaEnabled_equals]
  rfl

end Arguments

/-- The names of a pragma, the schema's in front or not. -/
theorem names_read (schema : Option Nm) (name : Nm) {rest : List SqliteToken} {reads : List (List Token)}
    (h : List.Forall₂ Lexed ((schema.elim [] fun schema => [.name schema, .symbol ['.']]) ++ .name name :: rest) reads) :
    ∃ front t reads', reads.flatten = front ++ t :: reads'.flatten ∧ (front = [] ∨ ∃ s, front = [s, symbolToken '.']) ∧
      t.unquoted = some name.text ∧ List.Forall₂ Lexed rest reads' := by
  cases schema with
  | none =>
    obtain ⟨read, reads', hread, hreads, rfl⟩ := List.forall₂_cons_left_iff.1 h
    obtain ⟨t, rfl, hunquoted, -⟩ := hread.of_name
    exact ⟨[], t, reads', rfl, Or.inl rfl, hunquoted, hreads⟩
  | some schema =>
    obtain ⟨first, reads₁, hfirst, hreads₁, rfl⟩ := List.forall₂_cons_left_iff.1 h
    obtain ⟨dot, reads₂, hdot, hreads₂, rfl⟩ := List.forall₂_cons_left_iff.1 hreads₁
    obtain ⟨read, reads', hread, hreads, rfl⟩ := List.forall₂_cons_left_iff.1 hreads₂
    obtain ⟨s, rfl, -, -⟩ := hfirst.of_name
    obtain ⟨t, rfl, hunquoted, -⟩ := hread.of_name
    cases hdot
    exact ⟨[s, symbolToken '.'], t, reads', rfl, Or.inr ⟨s, rfl⟩, hunquoted, hreads⟩

/-- What the given value is found to do. -/
theorem argument_read (form : PragmaForm) (value : PragmaValue) {reads : List (List Token)} (h : List.Forall₂ Lexed (form.wrap value.tokens) reads) :
    (argumentDisables reads.flatten = true ↔ form = .double ∨ pragmaFalse value.text = true) ∧
      ∀ t ∈ reads.flatten.head?, t.isSymbol [['.']] = false := by
  cases form with
  | single =>
    obtain ⟨opening, reads₁, hopening, hreads, rfl⟩ := List.forall₂_cons_left_iff.1 h
    cases hopening
    rw [← List.append_nil value.tokens] at hreads
    obtain ⟨read, core, reads₂, hflatten, hread, hnil⟩ := value_read value hreads
    obtain rfl := List.forall₂_nil_left_iff.1 hnil
    refine ⟨?_, fun t ht => by rw [← Option.some.inj ht]; rfl⟩
    show argumentDisables (symbolToken '=' :: reads₁.flatten) = true ↔ _
    rw [hflatten, List.flatten_nil, List.append_nil, argumentDisables_single hread]
    exact ⟨Or.inr, fun h => h.resolve_left (by decide)⟩
  | double =>
    obtain ⟨opening, reads₁, hopening, hreads, rfl⟩ := List.forall₂_cons_left_iff.1 h
    cases hopening
    rw [← List.append_nil value.tokens] at hreads
    obtain ⟨read, core, reads₂, hflatten, hread, hnil⟩ := value_read value hreads
    obtain rfl := List.forall₂_nil_left_iff.1 hnil
    refine ⟨?_, fun t ht => by rw [← Option.some.inj ht]; rfl⟩
    show argumentDisables (symbolToken '=' :: symbolToken '=' :: reads₁.flatten) = true ↔ _
    rw [hflatten, List.flatten_nil, List.append_nil, argumentDisables_double hread]
    exact iff_of_true rfl (Or.inl rfl)
  | called =>
    obtain ⟨opening, reads₁, hopening, hreads, rfl⟩ := List.forall₂_cons_left_iff.1 h
    cases hopening
    obtain ⟨read, core, reads₂, hflatten, hread, hrest⟩ := value_read value hreads
    obtain ⟨closing, reads₃, hclosing, hnil, rfl⟩ := List.forall₂_cons_left_iff.1 hrest
    obtain rfl := List.forall₂_nil_left_iff.1 hnil
    cases hclosing
    refine ⟨?_, fun t ht => by rw [← Option.some.inj ht]; rfl⟩
    show argumentDisables (symbolToken '(' :: reads₁.flatten) = true ↔ _
    rw [hflatten]
    show argumentDisables (symbolToken '(' :: (read ++ [symbolToken ')'])) = true ↔ _
    rw [argumentDisables_called hread]
    exact ⟨Or.inr, fun h => h.resolve_left (by decide)⟩

/-- What a pragma statement is found to do. -/
theorem statementDisables_iff (p : Pragma) {reads : List (List Token)} (h : List.Forall₂ Lexed p.tokens reads) :
    statementDisables reads.flatten = true ↔ eqIgnoreAsciiCase p.name.text "foreign_keys".toList = true ∧
      ∃ form value, p.argument = some (form, value) ∧ (form = .double ∨ pragmaFalse value.text = true) := by
  obtain ⟨keyword, reads₁, hkeyword, hreads₁, rfl⟩ := List.forall₂_cons_left_iff.1 h
  obtain ⟨front, t, reads₂, hflatten, hfront, hunquoted, hargument⟩ := names_read p.schema p.name hreads₁
  cases hkeyword
  rw [List.flatten_cons, hflatten, List.singleton_append]
  cases hgiven : p.argument with
  | none =>
    rw [hgiven] at hargument
    obtain rfl := List.forall₂_nil_left_iff.1 hargument
    rw [statementDisables_pragma p.isPragma hfront t (fun _ ht => by cases ht)]
    simp [argumentDisables]
  | some argument =>
    rw [hgiven] at hargument
    obtain ⟨hdisables, hdot⟩ := argument_read argument.1 argument.2 hargument
    rw [statementDisables_pragma p.isPragma hfront t hdot, hunquoted, Option.any_some, Bool.and_eq_true, hdisables]
    refine and_congr_right fun _ => ⟨fun h => ⟨argument.1, argument.2, rfl, h⟩, ?_⟩
    rintro ⟨form, value, heq, h⟩
    obtain rfl := Option.some.inj heq
    exact h

/-- Only the keyword `PRAGMA` is read as one. -/
theorem Lexed.keyword {token : SqliteToken} {read : List Token} (h : Lexed token read) :
    ∃ first more, read = first :: more ∧
      (first.isWord ["pragma".toList] = true → ∃ keyword, token = .name (.bare keyword) ∧ eqIgnoreAsciiCase keyword "pragma".toList = true) := by
  cases h with
  | @bare text _ =>
    refine ⟨_, _, rfl, fun hword => ⟨text, rfl, ?_⟩⟩
    simpa [Token.isWord, anyKeyword] using hword
  | quoted quote content =>
    refine ⟨_, _, rfl, fun hword => ?_⟩
    have hkind : quotedKind quote = .word := beq_iff_eq.1 (Bool.and_eq_true_iff.1 hword).1
    unfold quotedKind at hkind
    split_ifs at hkind
  | number => exact ⟨_, _, rfl, fun hword => by cases hword⟩
  | numbered => exact ⟨_, _, rfl, fun hword => by cases hword⟩
  | named => exact ⟨_, _, rfl, fun hword => by cases hword⟩
  | blob hmark =>
    refine ⟨_, _, rfl, fun hword => ?_⟩
    rcases hmark with rfl | rfl
    · exact absurd hword (by decide)
    · exact absurd hword (by decide)
  | symbol htext =>
    have hne : ∀ text ∈ SQLITE_SYMBOLS, text ≠ [] := by decide +kernel
    obtain ⟨ch, text, rfl⟩ := List.exists_cons_of_ne_nil (hne _ htext)
    exact ⟨_, _, rfl, fun hword => by cases hword⟩

/-- Only the separator is read as one. -/
theorem Lexed.separator {token : SqliteToken} {read : List Token} (h : Lexed token read) (htoken : token ≠ .symbol [';']) :
    ∀ t ∈ read, t.text ≠ [';'] := by
  cases h with
  | bare hne => exact List.forall_mem_singleton.2 hne
  | quoted quote content => exact List.forall_mem_singleton.2 (quoted_ne quote content ';')
  | @number first text read hfirst hrun hread =>
    refine List.forall_mem_cons.2 ⟨?_, hread.text_ne hrun (by decide)⟩
    exact fun heq => number_first_ne hfirst (by decide) (List.cons.inj heq).1
  | numbered hdigits =>
    refine List.forall_mem_cons.2 ⟨by decide, fun t ht => ?_⟩
    obtain ⟨digit, hdigit, rfl⟩ := List.mem_map.1 ht
    exact fun heq => number_first_ne (Or.inl (hdigits digit hdigit)) (by decide) (List.cons.inj heq).1
  | named hsigil =>
    refine List.forall_mem_singleton.2 fun heq => ?_
    rw [(List.cons.inj heq).1] at hsigil
    exact absurd hsigil (by decide)
  | @blob mark content hmark =>
    refine List.forall_mem_cons.2 ⟨fun heq => ?_, List.forall_mem_singleton.2 (quoted_ne '\'' content ';')⟩
    rw [(List.cons.inj heq).1] at hmark
    exact absurd hmark (by decide)
  | @symbol text htext =>
    have hseparator : ∀ text ∈ SQLITE_SYMBOLS, ';' ∈ text → text = [';'] := by decide +kernel
    intro t ht heq
    obtain ⟨ch, hch, rfl⟩ := List.mem_map.1 ht
    obtain rfl : ch = ';' := (List.cons.inj heq).1
    exact htoken (congrArg SqliteToken.symbol (hseparator text htext hch))

/-- The statements found to disable the foreign keys. -/
theorem statementDisables_turns {statement : List SqliteToken} {reads : List (List Token)} (h : List.Forall₂ Lexed statement reads)
    (hpragma : ∀ keyword, statement.head? = some (.name (.bare keyword)) → eqIgnoreAsciiCase keyword "pragma".toList = true →
      ∃ p : Pragma, statement = p.tokens) :
    statementDisables reads.flatten = true ↔ TurnsOff statement ∨ TurnsOnDouble statement := by
  constructor
  · intro hdisables
    obtain ⟨p, rfl⟩ : ∃ p : Pragma, statement = p.tokens := by
      cases h with
      | nil => cases hdisables
      | @cons token read statement reads hread hreads =>
        obtain ⟨first, more, rfl, hkeyword⟩ := hread.keyword
        have hword : first.isWord ["pragma".toList] = true := by
          by_contra hword
          rw [List.flatten_cons, List.cons_append, statementDisables, Bool.eq_false_iff.2 hword, Bool.not_false, if_pos rfl] at hdisables
          cases hdisables
        obtain ⟨keyword, rfl, hpragma'⟩ := hkeyword hword
        exact hpragma keyword rfl hpragma'
    obtain ⟨hname, form, value, hargument, hvalue⟩ := (statementDisables_iff p h).1 hdisables
    cases hfalse : pragmaFalse value.text with
    | true => exact Or.inl ⟨form, value, p, ⟨rfl, hname, hargument⟩, hfalse⟩
    | false =>
      rw [hfalse] at hvalue
      obtain rfl := hvalue.resolve_right Bool.false_ne_true
      exact Or.inr ⟨value, p, ⟨rfl, hname, hargument⟩, hfalse⟩
  · rintro (⟨form, value, p, ⟨rfl, hname, hargument⟩, hfalse⟩ | ⟨value, p, ⟨rfl, hname, hargument⟩, -⟩)
    · exact (statementDisables_iff p h).2 ⟨hname, form, value, hargument, Or.inr hfalse⟩
    · exact (statementDisables_iff p h).2 ⟨hname, .double, value, hargument, Or.inl rfl⟩

end Statements

section Scripts

variable {u : CharTables}

theorem statements_read (script : SqliteScript) (hplain : script.PlainNames u) :
    List.Forall₂ (fun statement read => ∃ reads, List.Forall₂ Lexed statement reads ∧ read = reads.flatten) script.statements
      ((sqliteLexemes u script.text).splitOnP fun token => token.text == [';']) := by
  obtain ⟨reads, hreads, heq⟩ := lexed_reads script.reads hplain
  rw [heq]
  refine Lib.splitOnP_flatten (fun token read hread hseparator => ?_) (fun token read hread hseparator => ?_) hreads
  · obtain rfl := beq_iff_eq.1 hseparator
    cases hread
    exact ⟨symbolToken ';', rfl, rfl⟩
  · have htext := hread.separator fun htoken => beq_eq_false_iff_ne.1 hseparator htoken
    exact fun t ht => beq_eq_false_iff_ne.2 (htext t ht)

theorem valueText_unplaced (tokens : List Token) : valueText (tokens.map Token.unplaced) = valueText tokens := by
  cases tokens with
  | nil => rfl
  | cons first rest =>
    cases rest with
    | nil => rfl
    | cons second rest =>
      rw [List.map_cons, List.map_cons, valueText_cons, valueText_cons, ← List.map_cons, ← List.map_cons, List.flatMap_map]
      rfl

theorem statementDisables_unplaced (statement : List Token) : statementDisables (statement.map Token.unplaced) = statementDisables statement := by
  have hsecond : ∀ (tokens : List Token) (symbols : List (List Char)),
      ((tokens.map Token.unplaced)[1]?.any fun token => token.isSymbol symbols) = tokens[1]?.any fun token => token.isSymbol symbols := by
    intro tokens symbols
    rw [List.getElem?_map, Option.any_map]
    rfl
  cases statement with
  | nil => rfl
  | cons keyword rest =>
    have hrest : (if (rest.map Token.unplaced)[1]?.any fun token => token.isSymbol [['.']] then (rest.map Token.unplaced).drop 2 else rest.map Token.unplaced) =
        (if rest[1]?.any fun token => token.isSymbol [['.']] then rest.drop 2 else rest).map Token.unplaced := by
      rw [hsecond, ← List.map_drop]
      split_ifs
      · rfl
      · rfl
    rw [List.map_cons, statementDisables, statementDisables, hrest]
    cases if rest[1]?.any fun token => token.isSymbol [['.']] then rest.drop 2 else rest with
    | nil => rfl
    | cons name args =>
      have hargs : (if (args.map Token.unplaced)[1]?.any fun token => token.isSymbol [['+']] then (args.map Token.unplaced).drop 2
            else (args.map Token.unplaced).drop 1) =
          (if args[1]?.any fun token => token.isSymbol [['+']] then args.drop 2 else args.drop 1).map Token.unplaced := by
        rw [hsecond, ← List.map_drop, ← List.map_drop]
        split_ifs
        · rfl
        · rfl
      simp only [List.map_cons, hargs, List.takeWhile_map, valueText_unplaced, List.head?_map, Option.any_map]
      rfl

theorem disablesForeignKeys_eq (u : CharTables) (sql : List Char) :
    disablesForeignKeys u sql = ((sqliteLexemes u sql).splitOnP fun token => token.text == [';']).any statementDisables := by
  rw [sqliteLexemes, Lib.splitOnP_map, List.any_map, disablesForeignKeys]
  exact congrArg (List.any _) (funext fun statement => (statementDisables_unplaced statement).symm)

theorem disablesForeignKeys_iff (script : SqliteScript) (hplain : script.PlainNames u) :
    disablesForeignKeys u script.text = true ↔ ∃ statement ∈ script.statements, TurnsOff statement ∨ TurnsOnDouble statement := by
  have hpragmas : ∀ statement ∈ script.statements, ∀ keyword, statement.head? = some (.name (.bare keyword)) →
    eqIgnoreAsciiCase keyword "pragma".toList = true → ∃ p : Pragma, statement = p.tokens := script.pragmas
  have hread := statements_read script hplain
  rw [disablesForeignKeys_eq]
  generalize script.statements = statements at hpragmas hread
  generalize (sqliteLexemes u script.text).splitOnP (fun token => token.text == [';']) = reads at hread
  induction hread with
  | nil => simp
  | @cons statement read statements reads hfirst _ ih =>
    rw [List.forall_mem_cons] at hpragmas
    obtain ⟨tokens, htokens, rfl⟩ := hfirst
    rw [List.any_cons, Bool.or_eq_true, List.exists_mem_cons_iff]
    exact or_congr (statementDisables_turns htokens hpragmas.1) (ih hpragmas.2)

/-- A script is recognized exactly unless the only foreign keys it sets are switched on by `==`. -/
theorem disables_exactly_iff (u : CharTables) (script : SqliteScript) (hplain : script.PlainNames u) :
    (disablesForeignKeys u script.text = true ↔ script.TurnsForeignKeysOff) ↔
      ((∃ statement ∈ script.statements, TurnsOnDouble statement) → script.TurnsForeignKeysOff) := by
  rw [disablesForeignKeys_iff script hplain]
  constructor
  · rintro h ⟨statement, hmem, hdouble⟩
    exact h.1 ⟨statement, hmem, Or.inr hdouble⟩
  · intro h
    constructor
    · rintro ⟨statement, hmem, hoff | hdouble⟩
      · exact ⟨statement, hmem, hoff⟩
      · exact h ⟨statement, hmem, hdouble⟩
    · rintro ⟨statement, hmem, hoff⟩
      exact ⟨statement, hmem, Or.inl hoff⟩

end Scripts

section Assignments

/-- A name of several characters. -/
theorem bare_before {text rest : List Char} (hfirst : text.head?.any startsName = true) (hmore : text.tail.all isIdChar = true)
    (hlong : 1 < text.length) (hrest : ∀ ch ∈ rest.head?, isIdChar ch = false) : (SqliteToken.name (.bare text)).Before rest := by
  cases text with
  | nil => cases hfirst
  | cons ch more =>
    refine .bare hfirst (List.all_eq_true.1 hmore) hrest ?_
    rintro (heq | heq)
    · rw [heq] at hlong
      exact absurd hlong (by decide)
    · rw [heq] at hlong
      exact absurd hlong (by decide)

/-- The keyword `PRAGMA`, `foreign_keys`, `=` or `==` and a bare value. -/
def assignmentPragma (double : Bool) (value : List Char) : Pragma where
  keyword := "PRAGMA".toList
  isPragma := rfl
  schema := none
  name := .bare "foreign_keys".toList
  argument := some (if double then .double else .single, .name (.bare value))

def assignmentSymbol (double : Bool) : List Char := if double then ['=', '='] else ['=']

def assignmentTokens (double : Bool) (value : List Char) : List SqliteToken :=
  [.name (.bare "PRAGMA".toList), .blank [' '], .name (.bare "foreign_keys".toList), .blank [' '], .symbol (assignmentSymbol double), .blank [' '],
    .name (.bare value)]

theorem assignment_reads (double : Bool) {value : List Char} (hvalue : (SqliteToken.name (.bare value)).Before []) :
    SqliteReads ("PRAGMA foreign_keys ".toList ++ (assignmentSymbol double ++ ' ' :: value)) (assignmentTokens double value) := by
  have hblank : ∀ rest, (SqliteToken.blank [' ']).Before rest := fun _ => .space rfl fun _ h => (List.not_mem_nil h).elim
  have hlast : SqliteReads value [.name (.bare value)] := by
    have hread := SqliteReads.cons hvalue .nil
    rwa [List.append_nil] at hread
  have hsymbol : (SqliteToken.symbol (assignmentSymbol double)).Before (' ' :: value) := by
    refine .symbol (by cases double <;> decide) ?_ ?_
    · rintro ch hch
      rw [← Option.some.inj hch]
      cases double <;> decide
    · intro hdot
      cases double <;> cases hdot
  have hassigned := SqliteReads.cons hsymbol (.cons (hblank _) hlast)
  have hname : (SqliteToken.name (.bare "foreign_keys".toList)).Before (' ' :: (assignmentSymbol double ++ ' ' :: value)) :=
    bare_before (by decide) (by decide) (by decide) fun ch hch => by rw [← Option.some.inj hch]; decide
  have hkeyword : (SqliteToken.name (.bare "PRAGMA".toList)).Before
      (" foreign_keys ".toList ++ (assignmentSymbol double ++ ' ' :: value)) :=
    bare_before (by decide) (by decide) (by decide) fun ch hch => by rw [← Option.some.inj hch]; decide
  exact .cons hkeyword (.cons (hblank _) (.cons hname (.cons (hblank _) hassigned)))

theorem assignment_statements (double : Bool) (value : List Char) :
    sqliteStatements (assignmentTokens double value) = [(assignmentPragma double value).tokens] := by
  cases double <;> rfl

def assignmentScript (double : Bool) (value : List Char) (hvalue : (SqliteToken.name (.bare value)).Before []) : SqliteScript where
  text := "PRAGMA foreign_keys ".toList ++ (assignmentSymbol double ++ ' ' :: value)
  tokens := assignmentTokens double value
  reads := assignment_reads double hvalue
  pragmas := by
    intro statement hmem _ _ _
    rw [assignment_statements, List.mem_singleton] at hmem
    exact ⟨_, hmem⟩

theorem value_on : (SqliteToken.name (.bare "ON".toList)).Before [] :=
  bare_before (by decide) (by decide) (by decide) fun _ h => by cases h

theorem value_off : (SqliteToken.name (.bare "OFF".toList)).Before [] :=
  bare_before (by decide) (by decide) (by decide) fun _ h => by cases h

theorem assignment_names {text keyword name value blank symbol : List Char}
    (h : SqliteToken.name (.bare text) ∈ [.name (.bare keyword), .blank blank, .name (.bare name), .blank blank, .symbol symbol, .blank blank,
      .name (.bare value)]) : text ∈ [keyword, name, value] := by
  simpa using h

theorem assignment_plain (double : Bool) {value : List Char} (hvalue : (SqliteToken.name (.bare value)).Before [])
    (hword : value.all fun ch => ch == '_' || ch.isAlpha) : (assignmentScript double value hvalue).PlainNames asciiTables := by
  intro text htext
  have hnames : text ∈ ["PRAGMA".toList, "foreign_keys".toList, value] := assignment_names htext
  have hchars : ∀ text ∈ ["PRAGMA".toList, "foreign_keys".toList, value], text.all (fun ch => ch == '_' || ch.isAlpha) = true :=
    List.forall_mem_cons.2 ⟨by decide +kernel, List.forall_mem_cons.2 ⟨by decide +kernel, List.forall_mem_singleton.2 hword⟩⟩
  have hfirst : ∀ ch ∈ text, ch = '_' ∨ asciiTables.isAlphabetic ch = true := by
    intro ch hch
    have hchar := List.all_eq_true.1 (hchars text hnames) ch hch
    rw [Bool.or_eq_true, beq_iff_eq] at hchar
    refine hchar.imp id fun halpha => Bool.and_eq_true_iff.2 ⟨?_, halpha⟩
    have hbounds := isAlpha_bounds halpha
    exact decide_eq_true (by omega)
  exact ⟨fun ch hch => hfirst ch (List.mem_of_mem_head? hch), fun ch hch => identifierChar_word (hfirst ch hch)⟩

/-- The value behind `==`. -/
theorem double_argument {p : Pragma} {keyword name value : Nm}
    (h : p.tokens = [.name keyword, .name name, .symbol ['=', '='], .name value]) : p.argument = some (.double, .name value) := by
  obtain ⟨word, _, schema, nm, argument⟩ := p
  cases schema with
  | some schema => simp [Pragma.tokens] at h
  | none =>
    cases argument with
    | none => simp [Pragma.tokens] at h
    | some argument =>
      obtain ⟨form, given⟩ := argument
      cases form with
      | single => simp [Pragma.tokens, PragmaForm.wrap] at h
      | called => simp [Pragma.tokens, PragmaForm.wrap] at h
      | double =>
        cases given with
        | name given =>
          simp only [Pragma.tokens, PragmaForm.wrap, PragmaValue.tokens, Option.elim_none, Option.elim_some, List.nil_append, List.cons.injEq,
            SqliteToken.name.injEq, and_true, true_and] at h
          rw [h.2.2]
        | number => simp [Pragma.tokens, PragmaForm.wrap, PragmaValue.tokens] at h
        | plus => simp [Pragma.tokens, PragmaForm.wrap, PragmaValue.tokens] at h
        | minus => simp [Pragma.tokens, PragmaForm.wrap, PragmaValue.tokens] at h

end Assignments

/-- `PRAGMA foreign_keys = OFF` is recognized. -/
theorem disables_exactly_assignment : (assignmentScript false "OFF".toList value_off).text = "PRAGMA foreign_keys = OFF".toList ∧
    (disablesForeignKeys asciiTables (assignmentScript false "OFF".toList value_off).text = true ↔
      (assignmentScript false "OFF".toList value_off).TurnsForeignKeysOff) := by
  refine ⟨by decide +kernel, ?_⟩
  refine (disables_exactly_iff asciiTables _ (assignment_plain false value_off (by decide +kernel))).2 fun _ => ?_
  refine ⟨_, List.mem_singleton_self (assignmentPragma false "OFF".toList).tokens, ?_⟩
  exact ⟨.single, _, _, ⟨rfl, beq_self_eq_true _, rfl⟩, by decide +kernel⟩

/-- `PRAGMA foreign_keys == ON` switches them on, and is taken for a request to disable them. -/
theorem double_assignment_misread : (assignmentScript true "ON".toList value_on).text = "PRAGMA foreign_keys == ON".toList ∧
    ¬(disablesForeignKeys asciiTables (assignmentScript true "ON".toList value_on).text = true ↔
      (assignmentScript true "ON".toList value_on).TurnsForeignKeysOff) := by
  have hflagged : disablesForeignKeys asciiTables (assignmentScript true "ON".toList value_on).text = true := by decide +kernel
  refine ⟨by decide +kernel, fun h => ?_⟩
  obtain ⟨statement, hmem, form, value, p, ⟨rfl, -, hargument⟩, hfalse⟩ := h.1 hflagged
  have htokens : p.tokens = (assignmentPragma true "ON".toList).tokens := List.mem_singleton.1 hmem
  rw [double_argument htokens] at hargument
  obtain ⟨rfl, rfl⟩ := Prod.mk.inj (Option.some.inj hargument)
  exact absurd hfalse (by decide +kernel)

end TideOrm
