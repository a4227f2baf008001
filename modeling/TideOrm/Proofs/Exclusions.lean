import TideOrm.Proofs.SqlSafety
import TideOrm.Sanity.Fulltext
import TideOrm.Spec.SearchBuilder

/-! Which words of a boolean search text are left out: the tokens of the search builder against the segments of the
databases' queries, both over the terms the text is written with. -/

namespace TideOrm

open Lib

section

variable {u : CharTables}

section Words

theorem searchWords_nil : searchWords u [] = [] := rfl

theorem searchWords_separator {ch : Char} (h : isWhitespace ch = true ∨ ch = '"') (front rest : List Char) :
    searchWords u (front ++ ch :: rest) = searchWords u front ++ searchWords u rest := by
  have hsep : (isWhitespace ch || ch == '"') = true := by
    rcases h with h | rfl
    · rw [h, Bool.true_or]
    · exact Bool.or_true _
  unfold searchWords
  rw [List.splitOnP_append_cons (p := fun ch => isWhitespace ch || ch == '"') front rest hsep, List.filter_append]

theorem searchWords_blanks {blanks : List Char} (h : ∀ ch ∈ blanks, isWhitespace ch = true) (text : List Char) :
    searchWords u (blanks ++ text) = searchWords u text := by
  induction blanks with
  | nil => rfl
  | cons ch blanks ih =>
    have hcut := searchWords_separator (u := u) (.inl (h ch List.mem_cons_self)) [] (blanks ++ text)
    rw [List.cons_append]
    exact hcut.trans (ih fun ch hch => h ch (List.mem_cons_of_mem _ hch))

theorem searchWords_trim (text : List Char) : searchWords u (trim text) = searchWords u text := by
  obtain ⟨front, back, hblank, heq⟩ := trim_split text
  have hback : searchWords u (trim text ++ back) = searchWords u (trim text) := by
    cases back with
    | nil => rw [List.append_nil]
    | cons ch back =>
      have hback : ∀ ch ∈ back, isWhitespace ch = true := fun ch hch =>
        hblank ch (List.mem_append_right _ (List.mem_cons_of_mem _ hch))
      have hrest := searchWords_blanks (u := u) hback []
      rw [List.append_nil] at hrest
      rw [searchWords_separator (.inl (hblank ch (List.mem_append_right _ List.mem_cons_self))), hrest, searchWords_nil,
        List.append_nil]
  conv_rhs => rw [heq]
  rw [searchWords_blanks fun ch hch => hblank ch (List.mem_append_left _ hch), hback]

theorem operator_not_searchable {ch : Char} (h : isBooleanOperator ch = true) : u.isAlphanumeric ch = false := by
  have hcases : ch = '+' ∨ ch = '-' ∨ ch = '~' ∨ ch = '<' ∨ ch = '>' := by
    simpa [isBooleanOperator, or_assoc] using h
  have hascii := u.ascii ch (by rcases hcases with rfl | rfl | rfl | rfl | rfl <;> decide)
  unfold CharTables.isAlphanumeric
  rw [hascii.1, hascii.2]
  rcases hcases with rfl | rfl | rfl | rfl | rfl <;> decide

theorem searchWords_operators {operators : List Char} (h : operators.all isBooleanOperator = true) :
    searchWords u operators = [] := by
  have hall : ∀ ch ∈ operators, isBooleanOperator ch = true := List.all_eq_true.1 h
  have hplain : ∀ ch ∈ operators, (isWhitespace ch || ch == '"') = false := by
    intro ch hch
    obtain ⟨hspace, hquote⟩ := operator_plain (hall ch hch)
    simp [hspace, hquote]
  have hunsearchable : hasSearchableChar u operators = false :=
    List.any_eq_false.2 fun ch hch hsearchable =>
      Bool.false_ne_true ((operator_not_searchable (hall ch hch)).symm.trans hsearchable)
  unfold searchWords
  rw [List.splitOnP_eq_singleton hplain, List.filter_cons_of_neg (by rw [hunsearchable]; exact Bool.false_ne_true), List.filter_nil]

theorem SearchTerm.words_eq {term : SearchTerm} (h : '"' ∉ term.text) :
    term.words u = (searchWords u term.text).map (trimMarks u) := by
  have hcut : term.text.splitOnP (fun ch => isWhitespace ch || ch == '"') = term.text.splitOnP isWhitespace := by
    refine splitOnP_congr fun ch hch => ?_
    have hquote : (ch == '"') = false := beq_eq_false_iff_ne.2 fun heq => h (heq ▸ hch)
    rw [hquote, Bool.or_false]
  unfold SearchTerm.words searchWords
  rw [hcut]

theorem trimMarks_within (word : List Char) : trimMarks u word <:+: word :=
  (List.rdropWhile_prefix ..).isInfix.trans (List.dropWhile_suffix _).isInfix

theorem trimMarks_searchable {word : List Char} (h : hasSearchableChar u word = true) :
    hasSearchableChar u (trimMarks u word) = true := by
  have hfront : (word.takeWhile fun ch => !u.isAlphanumeric ch).any u.isAlphanumeric = false :=
    List.any_eq_false.2 fun ch hch => by simpa using List.mem_takeWhile_imp hch
  have hback : ((word.dropWhile fun ch => !u.isAlphanumeric ch).rtakeWhile fun ch => !u.isAlphanumeric ch).any
      u.isAlphanumeric = false :=
    List.any_eq_false.2 fun ch hch => by simpa using List.mem_rtakeWhile_imp hch
  have hsplit : word = (word.takeWhile fun ch => !u.isAlphanumeric ch) ++
      (trimMarks u word ++ (word.dropWhile fun ch => !u.isAlphanumeric ch).rtakeWhile fun ch => !u.isAlphanumeric ch) := by
    unfold trimMarks
    rw [List.rdropWhile_append_rtakeWhile, List.takeWhile_append_dropWhile]
  unfold hasSearchableChar at h ⊢
  rw [hsplit, List.any_append, List.any_append, hfront, hback, Bool.or_false, Bool.false_or] at h
  exact h

end Words

section Segments

/-- What a boolean search reads in a segment. -/
def segmentReading (segment : SearchSegment) : List Char × Bool := (segment.text, segment.excluded)

/-- What a term is searched as, if it is not blank. -/
def termReadings (terms : List SearchTerm) : List (List Char × Bool) :=
  (terms.filter fun term => !term.text.isEmpty).map fun term => (term.text, term.excluded)

theorem termReadings_cons (term : SearchTerm) (terms : List SearchTerm) : termReadings (term :: terms) =
    (if term.text.isEmpty then [] else [(term.text, term.excluded)]) ++ termReadings terms := by
  unfold termReadings
  cases h : term.text.isEmpty <;> simp [h]

theorem flushSegment_reading (current : List Char) (quoted : Bool) (operator : Option Char) :
    (flushSegment current quoted operator).map segmentReading =
      if (trim current).isEmpty then []
      else [(trim current, if quoted then operator == some '-' else (trim current).head? == some '-')] := by
  unfold flushSegment
  dsimp only
  by_cases hblank : (trim current).isEmpty = true
  · rw [if_pos hblank, if_pos hblank]
    rfl
  · rw [if_neg hblank, if_neg hblank]
    rfl

theorem phraseOperator_operators {operators : List Char} (h : operators.all isBooleanOperator = true) :
    phraseOperator operators = operators.getLast? ∧
      (if (phraseOperator operators).isSome then [] else flushSegment operators false none) = [] := by
  have htrim : trim operators = operators := trim_eq_self (List.any_eq_false.2 fun ch hch hspace =>
    Bool.false_ne_true ((operator_plain (List.all_eq_true.1 h ch hch)).1.symm.trans hspace))
  have hoperator : phraseOperator operators = operators.getLast? := by
    unfold phraseOperator
    dsimp only
    rw [htrim, h, Bool.and_true]
    cases operators with
    | nil => rfl
    | cons ch operators => rfl
  refine ⟨hoperator, ?_⟩
  rw [hoperator]
  cases operators with
  | nil => rfl
  | cons ch operators => rw [List.getLast?_cons, Option.isSome_some, if_pos rfl]

theorem phraseOperator_word {text : List Char} (hblank : ∀ ch ∈ text, isWhitespace ch = false)
    (h : text.all isBooleanOperator = false) : phraseOperator text = none := by
  have htrim : trim text = text := trim_eq_self (List.any_eq_false.2 fun ch hch hspace =>
    Bool.false_ne_true ((hblank ch hch).symm.trans hspace))
  unfold phraseOperator
  dsimp only
  rw [htrim, h, Bool.and_false, if_neg Bool.false_ne_true]

theorem segmentsFrom_quote (current rest : List Char) : segmentsFrom current false none ('"' :: rest) =
    (if (phraseOperator current).isSome then [] else flushSegment current false none) ++
      segmentsFrom [] true (phraseOperator current) rest := by
  rw [segmentsFrom, if_pos rfl, if_neg Bool.false_ne_true]

/-- A word is cut off by what stands behind it. -/
theorem segmentsFrom_follow {text : List Char} (hblank : ∀ ch ∈ text, isWhitespace ch = false) {rest : List SearchItem}
    (hfollow : SearchItem.Follow text rest) (hrest : SearchItem.Written rest) :
    segmentsFrom text false none (rest.flatMap SearchItem.spell) =
      flushSegment text false none ++ segmentsFrom [] false none (rest.flatMap SearchItem.spell) := by
  have hquote : text.all isBooleanOperator = false → ∀ after, segmentsFrom text false none ('"' :: after) =
      flushSegment text false none ++ segmentsFrom [] false none ('"' :: after) := by
    intro hplain after
    rw [segmentsFrom_quote, segmentsFrom_quote, phraseOperator_word hblank hplain]
    rfl
  cases hrest with
  | nil => exact (List.append_nil _).symm
  | blank hspace hrest =>
    rw [List.flatMap_cons, SearchItem.spell, List.singleton_append, segmentsFrom_break hspace, segmentsFrom_break hspace]
    rfl
  | word => cases hfollow
  | @phrase operators _ _ _ _ _ =>
    cases operators with
    | nil => exact hquote hfollow _
    | cons => cases hfollow
  | @cut operators _ _ _ =>
    cases operators with
    | nil => exact hquote hfollow _
    | cons => cases hfollow

theorem segmentsFrom_open {text : List Char} (h : '"' ∉ text) (current : List Char) (operator : Option Char) :
    segmentsFrom current true operator text = flushSegment (current ++ text) true operator := by
  induction text generalizing current with
  | nil => rw [segmentsFrom, List.append_nil]
  | cons ch text ih =>
    have hch : ch ≠ '"' := fun heq => h (heq ▸ List.mem_cons_self)
    rw [segmentsFrom, if_neg hch, Bool.not_true, Bool.and_false, if_neg Bool.false_ne_true,
      ih fun hmem => h (List.mem_cons_of_mem _ hmem), List.append_assoc, List.singleton_append]

theorem segmentsFrom_spell {items : List SearchItem} (hwritten : SearchItem.Written items) (led : Option Bool) :
    (segmentsFrom [] false none (items.flatMap SearchItem.spell)).map segmentReading =
      termReadings (SearchItem.termsFrom led items) := by
  have hopen : ∀ {operators : List Char}, operators.all isBooleanOperator = true → ∀ rest,
      segmentsFrom [] false none (operators ++ '"' :: rest) = segmentsFrom [] true operators.getLast? rest := by
    intro operators hoperators rest
    obtain ⟨hoperator, hflush⟩ := phraseOperator_operators hoperators
    have hrun := segmentsFrom_run (fun ch hch => operator_plain (List.all_eq_true.1 hoperators ch hch)) [] ('"' :: rest)
    rw [hrun, List.nil_append, segmentsFrom_quote, hflush, hoperator, List.nil_append]
  induction hwritten generalizing led with
  | nil => rfl
  | @blank ch rest hspace _ ih =>
    rw [List.flatMap_cons, SearchItem.spell, List.singleton_append, segmentsFrom_break hspace]
    exact ih none
  | @word text rest hne htext hfollow hrest ih =>
    have hblank : ∀ ch ∈ text, isWhitespace ch = false := fun ch hch => (htext ch hch).1
    have htrim : trim text = text := trim_eq_self (List.any_eq_false.2 fun ch hch hspace =>
      Bool.false_ne_true ((hblank ch hch).symm.trans hspace))
    rw [List.flatMap_cons, SearchItem.spell, segmentsFrom_run htext, List.nil_append, segmentsFrom_follow hblank hfollow hrest,
      List.map_append, flushSegment_reading, htrim, ih, SearchItem.termsFrom, termReadings_cons]
    rfl
  | @phrase operators text rest hoperators htext _ ih =>
    rw [List.flatMap_cons, SearchItem.spell, List.append_assoc, List.cons_append, List.append_assoc, List.singleton_append,
      hopen hoperators, segmentsFrom_phrase htext, List.nil_append, List.map_append, flushSegment_reading, ih,
      SearchItem.termsFrom, termReadings_cons]
    rfl
  | @cut operators text hoperators htext =>
    rw [List.flatMap_cons, List.flatMap_nil, List.append_nil, SearchItem.spell, hopen hoperators, segmentsFrom_open htext,
      List.nil_append, flushSegment_reading, SearchItem.termsFrom, termReadings_cons]
    exact (List.append_nil _).symm

theorem splitSearchSegments_spell (text : SearchText) :
    (splitSearchSegments text.spell).map segmentReading = termReadings text.terms :=
  segmentsFrom_spell text.written none

end Segments

section Tokens

/-- The words of the tokens that do not begin with a minus. -/
def keptWords (u : CharTables) (tokens : List (List Char)) : List (List Char) :=
  (tokens.filter fun token => !(token.head? == some '-')).flatMap (searchWords u)

theorem keptWords_append (left right : List (List Char)) :
    keptWords u (left ++ right) = keptWords u left ++ keptWords u right := by
  unfold keptWords
  rw [List.filter_append, List.flatMap_append]

/-- The token that is open: none before its first character. -/
def openSearchToken (token : List Char) : Option (List Char) := if token.isEmpty then none else some token

theorem openSearchToken_append (token : List Char) {piece : List Char} (hne : piece ≠ []) :
    openSearchToken (token ++ piece) = some (token ++ piece) := by
  unfold openSearchToken
  rw [if_neg fun hempty => hne (List.append_eq_nil_iff.1 (List.isEmpty_iff.1 hempty)).2]

theorem openSearchToken_getD (token : List Char) : (openSearchToken token).getD [] = token := by
  cases token with
  | nil => rfl
  | cons ch token => rfl

theorem searchTokensFrom_quote (inQuotes : Bool) (token rest : List Char) :
    searchTokensFrom (openSearchToken token) inQuotes ('"' :: rest) = searchTokensFrom (openSearchToken (token ++ ['"'])) (!inQuotes) rest := by
  rw [searchTokensFrom, openSearchToken_getD, openSearchToken_append _ (List.cons_ne_nil _ _)]
  rfl

/-- A run of characters of one token: no quotes, and no blanks outside them. -/
theorem searchTokensFrom_run {inQuotes : Bool} {text : List Char}
    (h : ∀ ch ∈ text, (inQuotes = true ∨ isWhitespace ch = false) ∧ ch ≠ '"') (token rest : List Char) :
    searchTokensFrom (openSearchToken token) inQuotes (text ++ rest) = searchTokensFrom (openSearchToken (token ++ text)) inQuotes rest := by
  induction text generalizing token with
  | nil => rw [List.nil_append, List.append_nil]
  | cons ch text ih =>
    obtain ⟨hspace, hquote⟩ := h ch List.mem_cons_self
    have hgather : (isWhitespace ch && !inQuotes) = false := by
      rcases hspace with rfl | hspace
      · rw [Bool.not_true, Bool.and_false]
      · rw [hspace, Bool.false_and]
    rw [List.cons_append, searchTokensFrom, if_neg hquote, hgather, if_neg Bool.false_ne_true, openSearchToken_getD,
      ← openSearchToken_append _ (List.cons_ne_nil _ _), ih fun ch hch => h ch (List.mem_cons_of_mem _ hch), List.append_assoc,
      List.singleton_append]

theorem searchTokensFrom_break {ch : Char} (h : isWhitespace ch = true) (start : Option (List Char)) (rest : List Char) :
    searchTokensFrom start false (ch :: rest) = start.toList ++ searchTokensFrom (openSearchToken []) false rest := by
  have hquote : ch ≠ '"' := by
    rintro rfl
    cases h
  rw [searchTokensFrom, if_neg hquote, h]
  rfl

/-- Whether the open block begins with a minus. -/
def ledBy (token : List Char) : Option Bool := (openSearchToken token).map fun token => token.head? == some '-'

theorem ledBy_append (token : List Char) {piece : List Char} (hne : piece ≠ []) :
    ledBy (token ++ piece) = some ((ledBy token).getD (piece.head? == some '-')) := by
  unfold ledBy
  rw [openSearchToken_append _ hne]
  cases token with
  | nil => rfl
  | cons ch token => rfl

/-- The words of the terms that stand in blocks without a minus. -/
def unledWords (u : CharTables) (terms : List SearchTerm) : List (List Char) :=
  (terms.filter fun term => !term.led).flatMap fun term => searchWords u term.text

theorem keptWords_open (token : List Char) :
    keptWords u (openSearchToken token).toList = if token.head? == some '-' then [] else searchWords u token := by
  cases token with
  | nil => rfl
  | cons ch token =>
    unfold keptWords openSearchToken
    rw [List.isEmpty_cons, if_neg Bool.false_ne_true, Option.toList_some]
    cases h : (ch :: token).head? == some '-' with
    | true => rw [List.filter_cons_of_neg (by rw [h]; decide), List.filter_nil, List.flatMap_nil, if_pos rfl]
    | false =>
      rw [List.filter_cons_of_pos (by rw [h]; rfl), List.filter_nil, List.flatMap_singleton, if_neg Bool.false_ne_true]

theorem unledWords_cons (term : SearchTerm) (terms : List SearchTerm) :
    unledWords u (term :: terms) = (if term.led then [] else searchWords u term.text) ++ unledWords u terms := by
  unfold unledWords
  cases h : term.led <;> simp [h]

/-- What is written behind an open token adds the words of its term. -/
theorem keptWords_extend {token piece text : List Char}
    (hwords : searchWords u (token ++ piece) = searchWords u token ++ searchWords u text) (excluded : Bool)
    (terms : List SearchTerm) :
    keptWords u (openSearchToken (token ++ piece)).toList ++ unledWords u terms =
      keptWords u (openSearchToken token).toList ++
        unledWords u (⟨text, excluded, (ledBy token).getD (piece.head? == some '-')⟩ :: terms) := by
  rw [unledWords_cons, keptWords_open, keptWords_open, hwords, ← List.append_assoc]
  congr 1
  cases token with
  | nil => rfl
  | cons ch token =>
    have hled : (ledBy (ch :: token)).getD (piece.head? == some '-') = ((ch :: token).head? == some '-') := rfl
    have hhead : (ch :: token ++ piece).head? = (ch :: token).head? := rfl
    rw [hled, hhead]
    cases (ch :: token).head? == some '-' <;> rfl

theorem searchTokensFrom_opened {operators text : List Char} (hoperators : operators.all isBooleanOperator = true)
    (htext : '"' ∉ text) (token rest : List Char) :
    searchTokensFrom (openSearchToken token) false (operators ++ '"' :: (text ++ rest)) =
      searchTokensFrom (openSearchToken (token ++ (operators ++ '"' :: text))) true rest := by
  have hplain : ∀ ch ∈ operators, (false = true ∨ isWhitespace ch = false) ∧ ch ≠ '"' := fun ch hch =>
    have hch := operator_plain (List.all_eq_true.1 hoperators ch hch)
    ⟨.inr hch.1, hch.2⟩
  have hinside : ∀ ch ∈ text, (true = true ∨ isWhitespace ch = false) ∧ ch ≠ '"' := fun ch hch =>
    ⟨.inl rfl, fun heq => htext (heq ▸ hch)⟩
  rw [searchTokensFrom_run hplain, searchTokensFrom_quote, Bool.not_false, searchTokensFrom_run hinside]
  simp only [List.append_assoc, List.singleton_append]

/-- Words are cut where an item ends: behind a quote, or before the next item. -/
def CutBehind (token : List Char) (rest : List SearchItem) : Prop :=
  token = [] ∨ (∃ front, token = front ++ ['"']) ∨ ∃ text, SearchItem.Follow text rest

theorem searchWords_cut {token text : List Char} {rest : List SearchItem} (h : CutBehind token (.word text :: rest)) :
    searchWords u (token ++ text) = searchWords u token ++ searchWords u text := by
  rcases h with rfl | ⟨front, rfl⟩ | ⟨_, hfollow⟩
  · rfl
  · rw [List.append_assoc, List.singleton_append, searchWords_separator (.inr rfl), searchWords_separator (.inr rfl),
      searchWords_nil, List.append_nil]
  · cases hfollow

theorem operators_cut {token : List Char} (operators : List Char) {rest : List SearchItem} (h : CutBehind token rest)
    (hrest : ∀ text, SearchItem.Follow text rest → operators = []) :
    operators = [] ∨ token = [] ∨ ∃ front, token = front ++ ['"'] := by
  rcases h with htoken | htoken | ⟨text, hfollow⟩
  · exact .inr (.inl htoken)
  · exact .inr (.inr htoken)
  · exact .inl (hrest text hfollow)

theorem searchWords_phrase {token operators : List Char} (hoperators : operators.all isBooleanOperator = true)
    (h : operators = [] ∨ token = [] ∨ ∃ front, token = front ++ ['"']) (tail : List Char) :
    searchWords u (token ++ (operators ++ '"' :: tail)) = searchWords u token ++ searchWords u tail := by
  have hfront : searchWords u (token ++ operators) = searchWords u token := by
    rcases h with rfl | rfl | ⟨front, rfl⟩
    · rw [List.append_nil]
    · exact searchWords_operators hoperators
    · rw [List.append_assoc, List.singleton_append, searchWords_separator (.inr rfl), searchWords_separator (.inr rfl),
        searchWords_operators hoperators, searchWords_nil]
  rw [← List.append_assoc, searchWords_separator (.inr rfl), hfront]

theorem keptWords_spell {items : List SearchItem} (hwritten : SearchItem.Written items) {token : List Char} (hcut : CutBehind token items) :
    keptWords u (searchTokensFrom (openSearchToken token) false (items.flatMap SearchItem.spell)) =
      keptWords u (openSearchToken token).toList ++ unledWords u (SearchItem.termsFrom (ledBy token) items) := by
  induction hwritten generalizing token with
  | nil => exact (List.append_nil _).symm
  | @blank ch rest hspace _ ih =>
    rw [List.flatMap_cons, SearchItem.spell, List.singleton_append, searchTokensFrom_break hspace, keptWords_append,
      ih (.inl rfl)]
    rfl
  | @word text rest hne htext hfollow _ ih =>
    rw [List.flatMap_cons, SearchItem.spell, searchTokensFrom_run fun ch hch => ⟨.inr (htext ch hch).1, (htext ch hch).2⟩,
      ih (.inr (.inr ⟨text, hfollow⟩)), ledBy_append _ hne, keptWords_extend (searchWords_cut hcut)]
    rfl
  | @phrase operators text rest hoperators htext _ ih =>
    have hoperator := operators_cut operators hcut fun _ hfollow => by
      cases operators with
      | nil => rfl
      | cons => cases hfollow
    have hclose : operators ++ '"' :: (text ++ ['"']) = operators ++ '"' :: text ++ ['"'] := by
      rw [List.append_assoc, List.cons_append]
    have htoken : token ++ (operators ++ '"' :: text) ++ ['"'] = token ++ (operators ++ '"' :: (text ++ ['"'])) := by
      rw [hclose, List.append_assoc]
    have hwords : searchWords u (token ++ (operators ++ '"' :: (text ++ ['"']))) = searchWords u token ++ searchWords u (trim text) := by
      rw [searchWords_phrase hoperators hoperator, searchWords_separator (.inr rfl), searchWords_nil, List.append_nil,
        searchWords_trim]
    have hhead : ((operators ++ '"' :: (text ++ ['"'])).head? == some '-') = (operators.head? == some '-') := by
      cases operators <;> rfl
    have hne : operators ++ '"' :: (text ++ ['"']) ≠ [] := List.append_ne_nil_of_right_ne_nil _ (List.cons_ne_nil _ _)
    rw [List.flatMap_cons, SearchItem.spell, List.append_assoc, List.cons_append, List.append_assoc, List.singleton_append,
      searchTokensFrom_opened hoperators htext, searchTokensFrom_quote, Bool.not_true, htoken,
      ih (.inr (.inl ⟨token ++ (operators ++ '"' :: text), htoken.symm⟩)), ledBy_append _ hne, keptWords_extend hwords, hhead]
    rfl
  | @cut operators text hoperators htext =>
    have hoperator := operators_cut operators hcut fun _ hfollow => by
      cases operators with
      | nil => rfl
      | cons => cases hfollow
    have hwords : searchWords u (token ++ (operators ++ '"' :: text)) = searchWords u token ++ searchWords u (trim text) := by
      rw [searchWords_phrase hoperators hoperator, searchWords_trim]
    have hhead : ((operators ++ '"' :: text).head? == some '-') = (operators.head? == some '-') := by
      cases operators <;> rfl
    have hopened := searchTokensFrom_opened hoperators htext token []
    rw [List.append_nil] at hopened
    have hextend := keptWords_extend hwords (operators.getLast? == some '-') []
    rw [hhead] at hextend
    rw [List.flatMap_cons, List.flatMap_nil, List.append_nil, SearchItem.spell, hopened, searchTokensFrom]
    exact (List.append_nil _).symm.trans hextend

end Tokens

section Spelled

theorem written_word {run : List Char} (hrun : ∀ ch ∈ run, isWhitespace ch = false ∧ ch ≠ '"') (items : List SearchItem)
    (hfollow : SearchItem.Follow run items) (hwritten : SearchItem.Written items) :
    ∃ spelled, SearchItem.Written spelled ∧ spelled.flatMap SearchItem.spell = run ++ items.flatMap SearchItem.spell := by
  cases run with
  | nil => exact ⟨items, hwritten, rfl⟩
  | cons ch run => exact ⟨.word (ch :: run) :: items, .word (List.cons_ne_nil _ _) hrun hfollow hwritten, rfl⟩

/-- A text behind a run outside quotes, and behind an open quote. -/
theorem exists_written (text : List Char) :
    (∀ run, (∀ ch ∈ run, isWhitespace ch = false ∧ ch ≠ '"') →
      ∃ items, SearchItem.Written items ∧ items.flatMap SearchItem.spell = run ++ text) ∧
    ∀ operators inside, operators.all isBooleanOperator = true → '"' ∉ inside →
      ∃ item items, SearchItem.Written (item :: items) ∧
        (item :: items).flatMap SearchItem.spell = operators ++ '"' :: (inside ++ text) ∧
        ∀ run : List Char, operators = [] → run.all isBooleanOperator = false → SearchItem.Follow run (item :: items) := by
  induction text with
  | nil =>
    constructor
    · exact fun run hrun => written_word hrun [] trivial .nil
    · intro operators inside hoperators hinside
      refine ⟨.cut operators inside, [], .cut hoperators hinside, ?_, ?_⟩
      · rw [List.flatMap_cons, List.flatMap_nil, SearchItem.spell, List.append_nil, List.append_nil]
      · rintro run rfl hplain
        exact hplain
  | cons ch text ih =>
    obtain ⟨hrest, hquoted⟩ := ih
    obtain ⟨items, hwritten, hspell⟩ := hrest [] fun _ hmem => (List.not_mem_nil hmem).elim
    constructor
    · intro run hrun
      by_cases hquote : ch = '"'
      · subst hquote
        cases hall : run.all isBooleanOperator with
        | true =>
          obtain ⟨item, items, hwritten, hspell, -⟩ := hquoted run [] hall List.not_mem_nil
          exact ⟨item :: items, hwritten, hspell⟩
        | false =>
          obtain ⟨item, items, hwritten, hspell, hfollow⟩ := hquoted [] [] rfl List.not_mem_nil
          obtain ⟨spelled, hspelled, heq⟩ := written_word hrun _ (hfollow run rfl hall) hwritten
          exact ⟨spelled, hspelled, heq.trans (congrArg (run ++ ·) hspell)⟩
      · cases hspace : isWhitespace ch with
        | true =>
          obtain ⟨spelled, hspelled, heq⟩ := written_word hrun (.blank ch :: items) trivial (.blank hspace hwritten)
          refine ⟨spelled, hspelled, heq.trans ?_⟩
          rw [List.flatMap_cons, hspell]
          rfl
        | false =>
          obtain ⟨items, hwritten, hspell⟩ := hrest (run ++ [ch])
            (List.forall_mem_append.2 ⟨hrun, List.forall_mem_singleton.2 ⟨hspace, hquote⟩⟩)
          exact ⟨items, hwritten, by rw [hspell, List.append_assoc, List.singleton_append]⟩
    · intro operators inside hoperators hinside
      by_cases hquote : ch = '"'
      · subst hquote
        refine ⟨.phrase operators inside, items, .phrase hoperators hinside hwritten, ?_, ?_⟩
        · rw [List.flatMap_cons, hspell, SearchItem.spell]
          simp only [List.append_assoc, List.cons_append, List.nil_append]
        · rintro run rfl hplain
          exact hplain
      · have hlonger : '"' ∉ inside ++ [ch] := by
          rw [List.mem_append, List.mem_singleton, not_or]
          exact ⟨hinside, fun heq => hquote heq.symm⟩
        obtain ⟨item, items, hwritten, hspell, hfollow⟩ := hquoted operators (inside ++ [ch]) hoperators hlonger
        exact ⟨item, items, hwritten, by rw [hspell, List.append_assoc, List.singleton_append], hfollow⟩

theorem exists_spell (query : List Char) : ∃ text : SearchText, text.spell = query := by
  obtain ⟨items, hwritten, hspell⟩ := (exists_written query).1 [] fun _ hmem => (List.not_mem_nil hmem).elim
  exact ⟨⟨items, hwritten⟩, hspell⟩

end Spelled

section Terms

theorem termsFrom_unquoted {items : List SearchItem} (hwritten : SearchItem.Written items) (led : Option Bool) :
    ∀ term ∈ SearchItem.termsFrom led items, '"' ∉ term.text := by
  have htrim : ∀ {text : List Char}, '"' ∉ text → '"' ∉ trim text := fun h hmem => h ((trim_within _).subset hmem)
  induction hwritten generalizing led with
  | nil => exact fun _ hmem => (List.not_mem_nil hmem).elim
  | blank _ _ ih => exact ih none
  | word _ htext _ _ ih => exact List.forall_mem_cons.2 ⟨fun hmem => (htext _ hmem).2 rfl, ih _⟩
  | phrase _ htext _ ih => exact List.forall_mem_cons.2 ⟨htrim htext, ih _⟩
  | cut _ htext => exact List.forall_mem_singleton.2 (htrim htext)

variable {text : SearchText}

theorem SearchText.words_eq {term : SearchTerm} (h : term ∈ text.terms) :
    term.words u = (searchWords u term.text).map (trimMarks u) :=
  SearchTerm.words_eq (termsFrom_unquoted text.written none term h)

/-- The segments of a written text are its terms that are not blank. -/
theorem exists_segment {P : List Char → Bool → Prop} :
    (∃ segment ∈ splitSearchSegments text.spell, P segment.text segment.excluded) ↔
      ∃ term ∈ text.terms, term.text ≠ [] ∧ P term.text term.excluded := by
  have hmap : (∃ segment ∈ splitSearchSegments text.spell, P segment.text segment.excluded) ↔
      ∃ reading ∈ (splitSearchSegments text.spell).map segmentReading, P reading.1 reading.2 := by
    simp only [List.mem_map, exists_exists_and_eq_and]
    rfl
  rw [hmap, splitSearchSegments_spell]
  unfold termReadings
  simp only [List.mem_map, exists_exists_and_eq_and]
  constructor
  · rintro ⟨term, hmem, hterm⟩
    obtain ⟨hmem, hne⟩ := List.mem_filter.1 hmem
    exact ⟨term, hmem, by simpa using hne, hterm⟩
  · rintro ⟨term, hmem, hne, hterm⟩
    exact ⟨term, List.mem_filter.2 ⟨hmem, by simpa using hne⟩, hterm⟩

theorem not_searchable_separator {ch : Char} (h : (isWhitespace ch || ch == '"') = true) : u.isAlphanumeric ch = false := by
  unfold CharTables.isAlphanumeric
  rcases Bool.or_eq_true_iff.1 h with hspace | hquote
  · obtain ⟨halpha, hnumeric⟩ := u.space ch (by unfold spaceChar; simp [hspace])
    rw [halpha, hnumeric, Bool.or_false]
  · obtain rfl := beq_iff_eq.1 hquote
    obtain ⟨halpha, hnumeric⟩ := u.ascii '"' (by decide)
    rw [halpha, hnumeric]
    decide

theorem searchWords_plain {text : List Char} (hplain : ∀ ch ∈ text, (isWhitespace ch || ch == '"') = false)
    (h : hasSearchableChar u text = true) : searchWords u text ≠ [] := by
  unfold searchWords
  rw [List.splitOnP_eq_singleton hplain, List.filter_cons_of_pos h]
  exact List.cons_ne_nil _ _

theorem searchWords_ne_nil {text : List Char} (h : hasSearchableChar u text = true) : searchWords u text ≠ [] := by
  induction text using cut_induction (p := fun ch => isWhitespace ch || ch == '"') with
  | single text hplain => exact searchWords_plain hplain h
  | cut front ch rest hplain hsep ih =>
    unfold hasSearchableChar at h
    rw [List.any_append, List.any_cons, not_searchable_separator hsep, Bool.false_or, Bool.or_eq_true] at h
    have hcut : searchWords u (front ++ ch :: rest) = searchWords u front ++ searchWords u rest :=
      searchWords_separator ((Bool.or_eq_true_iff.1 hsep).imp_right beq_iff_eq.1) front rest
    rw [hcut]
    rcases h with hfront | hrest
    · exact List.append_ne_nil_of_left_ne_nil (searchWords_plain hplain hfront) _
    · exact List.append_ne_nil_of_right_ne_nil _ (ih hrest)

end Terms

section Readings

variable {toLowercase : List Char → List Char} {search : FullTextSearchBuilder}

theorem mem_unledWords {terms : List SearchTerm} {word : List Char} :
    word ∈ unledWords u terms ↔ ∃ term ∈ terms, term.led = false ∧ word ∈ searchWords u term.text := by
  unfold unledWords
  simp only [List.mem_flatMap, List.mem_filter, Bool.not_eq_true', and_assoc]

theorem highlightTerms_spell (hmode : search.config.mode = .boolean) (hfilters : search.config.filtersTerms = false)
    {text : SearchText} (hspell : text.spell = search.query) :
    search.highlightTerms u toLowercase = [' '].intercalate ((unledWords u text.terms).map (trimMarks u)) := by
  have hquery : search.queryText u toLowercase = text.spell := by
    rw [hspell]
    exact if_pos (.inr hfilters)
  have hkept : keptWords u (searchTokens text.spell) = unledWords u text.terms := keptWords_spell text.written (.inl rfl)
  unfold FullTextSearchBuilder.highlightTerms
  rw [hquery, ← hkept]
  unfold keptWords
  simp only [hmode, decide_true, Bool.true_and]

theorem searchable_joined {words : List (List Char)} (h : ∀ word ∈ words, hasSearchableChar u word = true) :
    hasSearchableChar u ([' '].intercalate words) = true ↔ words ≠ [] := by
  cases words with
  | nil => exact iff_of_false Bool.false_ne_true fun hne => hne rfl
  | cons word words =>
    refine iff_of_true ?_ (List.cons_ne_nil _ _)
    obtain ⟨tail, htail⟩ : word <+: [' '].intercalate (word :: words) := by
      cases words with
      | nil => rw [List.intercalate_singleton]
      | cons other words =>
        rw [List.intercalate_cons_cons, List.append_assoc]
        exact List.prefix_append _ _
    unfold hasSearchableChar at h ⊢
    rw [← htail, List.any_append, h word List.mem_cons_self, Bool.true_or]

theorem splitWhitespace_joined {words : List (List Char)} (h : ∀ word ∈ words, word ≠ [] ∧ ∀ ch ∈ word, isWhitespace ch = false) :
    splitWhitespace ([' '].intercalate words) = words := by
  unfold splitWhitespace
  cases words with
  | nil => rfl
  | cons word words =>
    rw [splitOnP_intercalate rfl (List.cons_ne_nil _ _) fun word hmem => (h word hmem).2, List.filter_eq_self]
    intro word hmem
    simpa using (h word hmem).1

theorem searchWords_unblank {text word : List Char} (h : word ∈ searchWords u text) : ∀ ch ∈ word, isWhitespace ch = false :=
  fun ch hch => (Bool.or_eq_false_iff.1 ((mem_splitOnP (List.mem_filter.1 h).1).2 ch hch)).1

/-- The marked words are those of the terms in blocks without a minus. -/
theorem mem_markedWords (hmode : search.config.mode = .boolean) (hfilters : search.config.filtersTerms = false)
    {text : SearchText} (hspell : text.spell = search.query) {word : List Char} :
    word ∈ search.markedWords u toLowercase ↔ ∃ term ∈ text.terms, term.led = false ∧ word ∈ term.words u := by
  have hmarked : search.markedWords u toLowercase = (unledWords u text.terms).map (trimMarks u) := by
    unfold FullTextSearchBuilder.markedWords
    rw [highlightTerms_spell hmode hfilters hspell]
    refine splitWhitespace_joined (List.forall_mem_map.2 fun word hmem => ?_)
    obtain ⟨term, -, -, hword⟩ := mem_unledWords.1 hmem
    exact ⟨searchable_ne_nil (trimMarks_searchable (mem_searchWords hword).2),
      fun ch hch => searchWords_unblank hword ch ((trimMarks_within word).subset hch)⟩
  rw [hmarked, List.mem_map]
  constructor
  · rintro ⟨whole, hmem, rfl⟩
    obtain ⟨term, hterm, hled, hword⟩ := mem_unledWords.1 hmem
    exact ⟨term, hterm, hled, SearchText.words_eq hterm ▸ List.mem_map_of_mem hword⟩
  · rintro ⟨term, hterm, hled, hword⟩
    rw [SearchText.words_eq hterm] at hword
    obtain ⟨whole, hwhole, rfl⟩ := List.mem_map.1 hword
    exact ⟨whole, mem_unledWords.2 ⟨term, hterm, hled, hwhole⟩, rfl⟩

theorem SearchText.word_of_searchable {text : SearchText} {term : SearchTerm} (hmem : term ∈ text.terms)
    (h : hasSearchableChar u term.text = true) : ∃ word, word ∈ term.words u := by
  rw [SearchText.words_eq hmem]
  exact List.exists_mem_of_ne_nil _ fun hnil => searchWords_ne_nil h (List.map_eq_nil_iff.1 hnil)

theorem SearchText.mem_words {text : SearchText} {term : SearchTerm} (hmem : term ∈ text.terms) {word : List Char}
    (h : word ∈ term.words u) : word <:+: term.text ∧ hasSearchableChar u word = true := by
  rw [SearchText.words_eq hmem] at h
  obtain ⟨whole, hwhole, rfl⟩ := List.mem_map.1 h
  obtain ⟨hwithin, hsearchable⟩ := mem_searchWords hwhole
  exact ⟨(trimMarks_within whole).trans hwithin, trimMarks_searchable hsearchable⟩

theorem searchable_within {word text : List Char} (hwithin : word <:+: text) (h : hasSearchableChar u word = true) :
    hasSearchableChar u text = true := by
  obtain ⟨ch, hch, halnum⟩ := List.any_eq_true.1 h
  exact List.any_eq_true.2 ⟨ch, hwithin.subset hch, halnum⟩

theorem hasSearchTerms_spell (hmode : search.config.mode = .boolean) (hfilters : search.config.filtersTerms = false)
    {text : SearchText} (hspell : text.spell = search.query) :
    search.hasSearchTerms u toLowercase = true ↔
      ∃ term ∈ text.terms, term.led = false ∧ hasSearchableChar u term.text = true := by
  have hsearchable : ∀ word ∈ (unledWords u text.terms).map (trimMarks u), hasSearchableChar u word = true := by
    refine List.forall_mem_map.2 fun word hmem => ?_
    obtain ⟨term, -, -, hword⟩ := mem_unledWords.1 hmem
    exact trimMarks_searchable (mem_searchWords hword).2
  unfold FullTextSearchBuilder.hasSearchTerms
  rw [if_pos hmode, highlightTerms_spell hmode hfilters hspell, searchable_joined hsearchable, ne_eq, List.map_eq_nil_iff]
  constructor
  · intro hne
    obtain ⟨word, hword⟩ := List.exists_mem_of_ne_nil _ hne
    obtain ⟨term, hterm, hled, hword⟩ := mem_unledWords.1 hword
    exact ⟨term, hterm, hled, searchable_within (mem_searchWords hword).1 (mem_searchWords hword).2⟩
  · rintro ⟨term, hterm, hled, hterms⟩
    obtain ⟨word, hword⟩ := List.exists_mem_of_ne_nil _ (searchWords_ne_nil hterms)
    exact List.ne_nil_of_mem (mem_unledWords.2 ⟨term, hterm, hled, hword⟩)

theorem fts5BooleanQuery_ne_nil (input : List Char) : fts5BooleanQuery u input ≠ [] ↔
    ∃ segment ∈ splitSearchSegments input, segment.excluded = false ∧ hasSearchableChar u segment.text = true := by
  have hfold : ∀ (segments : List SearchSegment) (query : List Char), query ≠ [] →
      segments.foldl (fun query segment => query ++ " NOT ".toList ++ doubleQuoted segment.text) query ≠ [] := by
    intro segments
    induction segments with
    | nil => exact fun query hne => hne
    | cons segment segments ih =>
      exact fun query hne => ih _ (List.append_ne_nil_of_left_ne_nil (List.append_ne_nil_of_left_ne_nil hne _) _)
  have hincluded : (∃ segment ∈ splitSearchSegments input, segment.excluded = false ∧ hasSearchableChar u segment.text = true) ↔
      ((searchableSegments u input).filter fun segment => !segment.excluded) ≠ [] := by
    constructor
    · rintro ⟨segment, hmem, hincluded, hsearchable⟩
      exact List.ne_nil_of_mem (List.mem_filter.2 ⟨List.mem_filter.2 ⟨hmem, hsearchable⟩, by rw [hincluded]; rfl⟩)
    · intro hne
      obtain ⟨segment, hmem⟩ := List.exists_mem_of_ne_nil _ hne
      obtain ⟨hmem, hincluded⟩ := List.mem_filter.1 hmem
      obtain ⟨hmem, hsearchable⟩ := List.mem_filter.1 hmem
      exact ⟨segment, hmem, by simpa using hincluded, hsearchable⟩
  rw [hincluded]
  unfold fts5BooleanQuery
  rw [List.partition_eq_filter_filter]
  dsimp only
  split_ifs with hempty
  · exact iff_of_false (fun hne => hne rfl) fun hne => hne (List.isEmpty_iff.1 hempty)
  · exact iff_of_true (hfold _ _ (List.cons_ne_nil _ _)) fun hnil => hempty (List.isEmpty_iff.2 hnil)

theorem fts5BooleanQuery_spell (text : SearchText) : fts5BooleanQuery u text.spell ≠ [] ↔
    ∃ term ∈ text.terms, term.excluded = false ∧ hasSearchableChar u term.text = true := by
  rw [fts5BooleanQuery_ne_nil, exists_segment (P := fun text excluded => excluded = false ∧ hasSearchableChar u text = true)]
  exact exists_congr fun term => and_congr_right fun _ => and_iff_right_of_imp fun h => searchable_ne_nil h.2

/-- Whether a search is left out or answered alike: the backends that ask whether it holds a term and the one that
subtracts, and the words that are marked. -/
def FullTextSearchBuilder.ExcludesAlike (u : CharTables) (toLowercase : List Char → List Char) (search : FullTextSearchBuilder) :
    Prop :=
  (search.hasSearchTerms u toLowercase = true ↔ fts5BooleanQuery u search.query ≠ []) ∧
  ∀ word ∈ search.markedWords u toLowercase,
    ∃ segment ∈ splitSearchSegments search.query, segment.excluded = false ∧ word <:+: segment.text

theorem exclusions_alike_iff (hmode : search.config.mode = .boolean) (hfilters : search.config.filtersTerms = false) :
    (∃ text : SearchText, text.spell = search.query) ∧
    ∀ text : SearchText, text.spell = search.query → (search.ExcludesAlike u toLowercase ↔ text.ReadAlike u) := by
  refine ⟨exists_spell search.query, fun text hspell => ?_⟩
  have hterms : search.hasSearchTerms u toLowercase = true ↔ _ := hasSearchTerms_spell hmode hfilters hspell
  have hquery : fts5BooleanQuery u search.query ≠ [] ↔ _ := hspell ▸ fts5BooleanQuery_spell text
  have hmarked : ∀ word, word ∈ search.markedWords u toLowercase ↔ _ := fun word => mem_markedWords hmode hfilters hspell
  have hsegment : ∀ word, (∃ segment ∈ splitSearchSegments search.query, segment.excluded = false ∧ word <:+: segment.text) ↔ _ :=
    fun word => hspell ▸ exists_segment (P := fun text excluded => excluded = false ∧ word <:+: text)
  unfold FullTextSearchBuilder.ExcludesAlike
  rw [hterms, hquery]
  constructor
  · rintro ⟨hsearched, hwithin⟩
    constructor
    · intro term hterm hled _ word hword
      obtain ⟨other, hother, -, hincluded, hpart⟩ := (hsegment word).1 (hwithin word ((hmarked word).2 ⟨term, hterm, hled, hword⟩))
      exact ⟨other, hother, hincluded, hpart⟩
    · rintro ⟨term, hterm, _, hincluded, hsearchable⟩
      exact hsearched.2 ⟨term, hterm, hincluded, hsearchable⟩
  · rintro ⟨hrepeated, halone⟩
    refine ⟨⟨?_, ?_⟩, ?_⟩
    · rintro ⟨term, hterm, hled, hsearchable⟩
      cases hexcluded : term.excluded with
      | false => exact ⟨term, hterm, hexcluded, hsearchable⟩
      | true =>
        obtain ⟨word, hword⟩ := SearchText.word_of_searchable hterm hsearchable
        obtain ⟨other, hother, hincluded, hpart⟩ := hrepeated term hterm hled hexcluded word hword
        exact ⟨other, hother, hincluded, searchable_within hpart (SearchText.mem_words hterm hword).2⟩
    · rintro ⟨term, hterm, hincluded, hsearchable⟩
      cases hled : term.led with
      | false => exact ⟨term, hterm, hled, hsearchable⟩
      | true => exact halone ⟨term, hterm, hled, hincluded, hsearchable⟩
    · intro word hword
      obtain ⟨term, hterm, hled, hword⟩ := (hmarked word).1 hword
      obtain ⟨hpart, hsearchable⟩ := SearchText.mem_words hterm hword
      have hne : ∀ {text}, word <:+: text → text ≠ [] := fun hpart => searchable_ne_nil (searchable_within hpart hsearchable)
      cases hexcluded : term.excluded with
      | false => exact (hsegment word).2 ⟨term, hterm, hne hpart, hexcluded, hpart⟩
      | true =>
        obtain ⟨other, hother, hincluded, hpart⟩ := hrepeated term hterm hled hexcluded word hword
        exact (hsegment word).2 ⟨other, hother, hne hpart, hincluded, hpart⟩

/-- A word that is searched for and a phrase that is left out. -/
theorem exclusions_alike_minus :
    (⟨"+x -\"y z\"".toList, ⟨.boolean, none, none, []⟩⟩ : FullTextSearchBuilder).ExcludesAlike asciiTables (List.map Char.toLower) := by
  refine ((exclusions_alike_iff rfl rfl).2 ⟨[.word ['+', 'x'], .blank ' ', .phrase ['-'] ['y', ' ', 'z']],
    .word (List.cons_ne_nil _ _) (List.forall_mem_cons.2 ⟨⟨rfl, by decide⟩, List.forall_mem_singleton.2 ⟨rfl, by decide⟩⟩) trivial
      (.blank rfl (.phrase rfl (by decide) .nil))⟩ rfl).2 ?_
  unfold SearchText.ReadAlike
  decide

/-- Of the operators before a phrase the segments read the last, the tokens the first. -/
theorem operators_read_apart :
    ¬ (⟨"+-\"x\"".toList, ⟨.boolean, none, none, []⟩⟩ : FullTextSearchBuilder).ExcludesAlike asciiTables (List.map Char.toLower) := by
  unfold FullTextSearchBuilder.ExcludesAlike
  decide

end Readings

end

end TideOrm
