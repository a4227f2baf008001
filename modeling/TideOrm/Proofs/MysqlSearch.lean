import TideOrm.Sanity.Fulltext
import TideOrm.Spec.SearchQuery

/-! MySQL's boolean search text: a list of items, which is cut into the same segments again. -/

namespace TideOrm

open Lib

/-- A phrase, or one word, of the written search text. -/
inductive MysqlPiece where
  | phrase (operator : Option Char) (text : List Char)
  | term (operator : Option Char) (word : List Char) (starred : Bool)

namespace MysqlPiece

def text : MysqlPiece → List Char
  | phrase operator text => operator.toList ++ '"' :: (text ++ ['"'])
  | term operator word starred => operator.toList ++ word ++ (if starred then ['*'] else [])

def segment : MysqlPiece → SearchSegment
  | phrase operator text => ⟨text, true, operator⟩
  | term operator word starred => ⟨(term operator word starred).text, false, none⟩

def Valid (u : CharTables) : MysqlPiece → Prop
  | phrase operator text => (∀ ch ∈ operator, isBooleanOperator ch = true) ∧ hasSearchableChar u text = true ∧ '"' ∉ text ∧
      trim text = text
  | term operator word _ => (∀ ch ∈ operator, isBooleanOperator ch = true) ∧ IsMysqlWord u word

def joined (pieces : List MysqlPiece) : List Char := [' '].intercalate (pieces.map text)

theorem joined_cons {piece : MysqlPiece} {pieces : List MysqlPiece} (hne : pieces ≠ []) :
    joined (piece :: pieces) = piece.text ++ ' ' :: joined pieces := by
  obtain ⟨other, pieces, rfl⟩ := List.exists_cons_of_ne_nil hne
  rw [joined, List.map_cons, List.map_cons, List.intercalate_cons_cons, List.append_assoc]
  rfl

theorem joined_append {pieces pieces' : List MysqlPiece} (hne : pieces ≠ []) (hne' : pieces' ≠ []) :
    joined (pieces ++ pieces') = joined pieces ++ ' ' :: joined pieces' := by
  induction pieces with
  | nil => exact absurd rfl hne
  | cons piece pieces ih =>
    rcases eq_or_ne pieces [] with rfl | hpieces
    · have hone : joined [piece] = piece.text := List.intercalate_singleton
      rw [List.singleton_append, joined_cons hne', hone]
    · rw [List.cons_append, joined_cons (List.append_ne_nil_of_left_ne_nil hpieces _), ih hpieces, joined_cons hpieces, List.append_assoc,
        List.cons_append]

end MysqlPiece

section

variable {u : CharTables}

theorem separates_of_operator {ch : Char} (h : isBooleanOperator ch = true) : separatesWords ch = true := by
  have hcases : ch = '+' ∨ ch = '-' ∨ ch = '~' ∨ ch = '<' ∨ ch = '>' := by
    simpa [isBooleanOperator, or_assoc] using h
  rcases hcases with rfl | rfl | rfl | rfl | rfl <;> rfl

theorem not_separates {ch : Char} (h : separatesWords ch = false) : isWhitespace ch = false ∧ isBooleanOperator ch = false ∧
    ch ≠ '*' ∧ ch ≠ '"' := by
  refine ⟨(Bool.or_eq_false_iff.1 h).1, Bool.eq_false_iff.2 fun hoperator => ?_, ?_, ?_⟩
  · rw [separates_of_operator hoperator] at h
    cases h
  · rintro rfl
    cases h
  · rintro rfl
    cases h

/-- A word keeps its own operator and star apart when it is cut. -/
theorem words_of_word {operator : Option Char} {word : List Char} (hoperator : ∀ ch ∈ operator, isBooleanOperator ch = true)
    (hword : IsMysqlWord u word) (starred : Bool) :
    mysqlFulltextWords u (operator.toList ++ word ++ (if starred then ['*'] else [])) = word := by
  have hnil : hasSearchableChar u [] = false := rfl
  have hback : (word ++ (if starred then ['*'] else [])).splitOnP separatesWords = if starred then [word, []] else [word] := by
    cases starred with
    | true => exact List.splitOnP_append_cons_of_forall_mem hword.2 '*' rfl []
    | false =>
      rw [if_neg Bool.false_ne_true, if_neg Bool.false_ne_true, List.append_nil]
      exact List.splitOnP_eq_singleton hword.2
  have hkeep : ((word ++ (if starred then ['*'] else [])).splitOnP separatesWords).filter (hasSearchableChar u) = [word] := by
    rw [hback]
    cases starred <;> simp [hword.1, hnil]
  unfold mysqlFulltextWords
  cases operator with
  | none => rw [Option.toList_none, List.nil_append, hkeep, List.intercalate_singleton]
  | some ch =>
    rw [Option.toList_some, List.append_assoc, List.singleton_append]
    rw [show ch :: (word ++ (if starred then ['*'] else [])) = [] ++ ch :: (word ++ (if starred then ['*'] else [])) from rfl]
    rw [List.splitOnP_append_cons_of_forall_mem (fun _ h => (List.not_mem_nil h).elim) ch (separates_of_operator (hoperator ch rfl)),
      List.filter_cons_of_neg (by rw [hnil]; exact Bool.false_ne_true), hkeep, List.intercalate_singleton]

theorem unquoted_map {text : List Char} (h : '"' ∉ text) : (text.map fun ch => if ch = '"' then ' ' else ch) = text := by
  refine (List.map_congr_left fun ch hch => ?_).trans (List.map_id text)
  have hne : ch ≠ '"' := fun heq => h (heq ▸ hch)
  exact if_neg hne

namespace MysqlPiece

theorem mysqlSegment_segment {piece : MysqlPiece} (h : piece.Valid u) : mysqlSegment u piece.segment = some piece.text := by
  cases piece with
  | phrase operator text =>
    obtain ⟨-, hsearchable, hquote, htrim⟩ := h
    unfold mysqlSegment segment MysqlPiece.text
    dsimp only
    rw [if_pos rfl, unquoted_map hquote, if_pos hsearchable, htrim]
  | term operator word starred =>
    obtain ⟨hoperator, hword⟩ := h
    obtain ⟨first, rest, hfirst⟩ := List.exists_cons_of_ne_nil (searchable_ne_nil hword.1)
    have hempty : word.isEmpty = false := by rw [hfirst]; rfl
    have hhead : ((operator.toList ++ word ++ (if starred then ['*'] else [])).head?.filter isBooleanOperator).toList =
        operator.toList := by
      cases operator with
      | some ch => simp [hoperator ch rfl]
      | none =>
        have hplain : isBooleanOperator first = false := (not_separates (hword.2 first (hfirst ▸ List.mem_cons_self))).2.1
        rw [Option.toList_none, List.nil_append, hfirst, List.cons_append, List.head?_cons, Option.filter_some, hplain]
        rfl
    have hlast : ((operator.toList ++ word ++ (if starred then ['*'] else [])).getLast? = some '*') ↔ starred = true := by
      cases starred with
      | true => simp
      | false =>
        rw [if_neg Bool.false_ne_true, List.append_nil, List.getLast?_append_of_ne_nil _ (searchable_ne_nil hword.1)]
        exact iff_of_false (fun heq => (not_separates (hword.2 '*' (List.mem_of_getLast? heq))).2.2.1 rfl) Bool.false_ne_true
    unfold mysqlSegment segment MysqlPiece.text
    dsimp only
    rw [if_neg Bool.false_ne_true, words_of_word hoperator hword, hempty, if_neg Bool.false_ne_true, hhead]
    simp only [hlast]

theorem flushSegment_trimmed {text : List Char} (hne : text ≠ []) (htrim : trim text = text) (quoted : Bool) (operator : Option Char) :
    flushSegment text quoted operator = [⟨text, quoted, operator⟩] := by
  unfold flushSegment
  dsimp only
  rw [htrim, if_neg fun hempty => hne (List.isEmpty_iff.1 hempty)]

theorem segmentsFrom_blank (rest : List Char) : segmentsFrom [] false none (' ' :: rest) = segmentsFrom [] false none rest :=
  segmentsFrom_break rfl [] rest

/-- A piece before a blank or the end is the next segment. -/
theorem segmentsFrom_piece {piece : MysqlPiece} (h : piece.Valid u) {rest : List Char} (hrest : ∀ ch ∈ rest.head?, ch = ' ') :
    segmentsFrom [] false none (piece.text ++ rest) = piece.segment :: segmentsFrom [] false none rest := by
  have hplain : ∀ {operator : Option Char}, (∀ ch ∈ operator, isBooleanOperator ch = true) →
      ∀ ch ∈ operator.toList, isWhitespace ch = false ∧ ch ≠ '"' := fun hoperator ch hch =>
    operator_plain (hoperator ch (Option.mem_toList.1 hch))
  cases piece with
  | phrase operator text =>
    obtain ⟨hoperator, hsearchable, hquote, htrim⟩ := h
    have hphrase : phraseOperator operator.toList = operator ∧
        (if operator.isSome then [] else flushSegment operator.toList false none) = [] := by
      cases operator with
      | none => exact ⟨rfl, rfl⟩
      | some ch =>
        have hch := hoperator ch rfl
        have htrimmed : trim [ch] = [ch] := trim_eq_self (by simp [(hplain hoperator ch List.mem_cons_self).1])
        refine ⟨?_, rfl⟩
        unfold phraseOperator
        rw [Option.toList_some, htrimmed]
        simp [hch]
    unfold MysqlPiece.text segment
    rw [List.append_assoc, List.cons_append, List.append_assoc, List.singleton_append, segmentsFrom_run (hplain hoperator),
      List.nil_append, segmentsFrom, if_pos rfl, if_neg Bool.false_ne_true]
    dsimp only
    rw [hphrase.1, hphrase.2, List.nil_append, segmentsFrom_phrase hquote, List.nil_append,
      flushSegment_trimmed (searchable_ne_nil hsearchable) htrim]
    rfl
  | term operator word starred =>
    obtain ⟨hoperator, hword⟩ := h
    have hchars : ∀ ch ∈ (term operator word starred).text, isWhitespace ch = false ∧ ch ≠ '"' := by
      unfold MysqlPiece.text
      simp only [List.forall_mem_append]
      refine ⟨⟨hplain hoperator, fun ch hch => ?_⟩, ?_⟩
      · exact ⟨(not_separates (hword.2 ch hch)).1, (not_separates (hword.2 ch hch)).2.2.2⟩
      · cases starred with
        | true => exact List.forall_mem_singleton.2 ⟨rfl, by decide⟩
        | false => exact fun _ hmem => (List.not_mem_nil hmem).elim
    have hne : (term operator word starred).text ≠ [] :=
      List.append_ne_nil_of_left_ne_nil (List.append_ne_nil_of_right_ne_nil _ (searchable_ne_nil hword.1)) _
    have hflush : flushSegment (term operator word starred).text false none = [segment (.term operator word starred)] := by
      refine flushSegment_trimmed hne (trim_eq_self ?_) false none
      rw [List.any_eq_false]
      exact fun ch hch hspace => Bool.false_ne_true ((hchars ch hch).1.symm.trans hspace)
    rw [segmentsFrom_run hchars, List.nil_append]
    cases rest with
    | nil => exact hflush
    | cons ch rest =>
      obtain rfl := hrest ch rfl
      rw [segmentsFrom_blank, segmentsFrom_break rfl, hflush, List.singleton_append]

theorem splitSearchSegments_joined {pieces : List MysqlPiece} (h : ∀ piece ∈ pieces, piece.Valid u) :
    splitSearchSegments (joined pieces) = pieces.map segment := by
  unfold splitSearchSegments
  induction pieces with
  | nil => rfl
  | cons piece pieces ih =>
    have hpiece := h piece List.mem_cons_self
    have hrest := ih fun piece hmem => h piece (List.mem_cons_of_mem _ hmem)
    rcases eq_or_ne pieces [] with rfl | hne
    · have hone : joined [piece] = piece.text ++ [] := List.intercalate_singleton.trans (List.append_nil _).symm
      rw [hone, segmentsFrom_piece hpiece fun ch hch => by cases hch]
      rfl
    · rw [joined_cons hne, segmentsFrom_piece hpiece fun ch hch => by cases hch; rfl, segmentsFrom_blank, hrest, List.map_cons]

/-- Written pieces are sanitized to themselves. -/
theorem sanitize_joined {pieces : List MysqlPiece} (h : ∀ piece ∈ pieces, piece.Valid u) :
    sanitizeMysqlFulltextQuery u (joined pieces) true = joined pieces := by
  unfold sanitizeMysqlFulltextQuery
  rw [if_pos rfl, splitSearchSegments_joined h]
  congr 1
  induction pieces with
  | nil => rfl
  | cons piece pieces ih =>
    rw [List.map_cons, List.map_cons, List.filterMap_cons_some (mysqlSegment_segment (h piece List.mem_cons_self)),
      ih fun piece hmem => h piece (List.mem_cons_of_mem _ hmem)]

/-- The pieces that words are written in. -/
def ofWords (operator : Option Char) (starred : Bool) : List (List Char) → List MysqlPiece
  | [] => []
  | [word] => [term operator word starred]
  | word :: words => term operator word false :: ofWords none starred words

theorem ofWords_spec {operator : Option Char} (hoperator : ∀ ch ∈ operator, isBooleanOperator ch = true) (starred : Bool)
    {words : List (List Char)} (hne : words ≠ []) (hwords : ∀ word ∈ words, IsMysqlWord u word) :
    ofWords operator starred words ≠ [] ∧ (∀ piece ∈ ofWords operator starred words, piece.Valid u) ∧
      joined (ofWords operator starred words) = operator.toList ++ [' '].intercalate words ++ (if starred then ['*'] else []) := by
  induction words generalizing operator with
  | nil => exact absurd rfl hne
  | cons word words ih =>
    have hword := hwords word List.mem_cons_self
    cases words with
    | nil =>
      refine ⟨List.cons_ne_nil _ _, List.forall_mem_singleton.2 ⟨hoperator, hword⟩, ?_⟩
      rw [List.intercalate_singleton]
      exact List.intercalate_singleton
    | cons other words =>
      obtain ⟨hpieces, hvalid, hjoined⟩ := @ih none (fun _ h => by cases h) (List.cons_ne_nil _ _)
        fun word hmem => hwords word (List.mem_cons_of_mem _ hmem)
      rw [ofWords]
      · refine ⟨List.cons_ne_nil _ _, List.forall_mem_cons.2 ⟨⟨hoperator, hword⟩, hvalid⟩, ?_⟩
        rw [joined_cons hpieces, hjoined, MysqlPiece.text, if_neg Bool.false_ne_true, List.append_nil, List.intercalate_cons_cons]
        simp only [Option.toList_none, List.nil_append, List.append_assoc, List.cons_append]
      · exact List.cons_ne_nil _ _

/-- The words of a text are written as an item, in one or more pieces. -/
theorem item_of_words {text : List Char} (hempty : ¬(mysqlFulltextWords u text).isEmpty = true) (starred : Bool) :
    MysqlItem u ((text.head?.filter isBooleanOperator).toList ++ mysqlFulltextWords u text ++ (if starred then ['*'] else [])) ∧
      ∃ pieces, pieces ≠ [] ∧ (∀ piece ∈ pieces, piece.Valid u) ∧
        (text.head?.filter isBooleanOperator).toList ++ mysqlFulltextWords u text ++ (if starred then ['*'] else []) = joined pieces := by
  have hoperator : ∀ ch ∈ text.head?.filter isBooleanOperator, isBooleanOperator ch = true := fun ch hch => (Option.mem_filter_iff.1 hch).2
  have hwords : ∀ word ∈ (text.splitOnP separatesWords).filter (hasSearchableChar u), IsMysqlWord u word := fun word hword =>
    ⟨(List.mem_filter.1 hword).2, (mem_splitOnP (List.mem_filter.1 hword).1).2⟩
  have hne : (text.splitOnP separatesWords).filter (hasSearchableChar u) ≠ [] := by
    intro hnil
    rw [mysqlFulltextWords, hnil] at hempty
    exact hempty rfl
  obtain ⟨hpieces, hvalid, hjoined⟩ := ofWords_spec hoperator starred hne hwords
  exact ⟨.words starred hoperator hne hwords, _, hpieces, hvalid, hjoined.symm⟩

theorem item_of_segment {input item : List Char} {segment : SearchSegment} (hsegment : IsSegment input segment)
    (h : mysqlSegment u segment = some item) :
    MysqlItem u item ∧ ∃ pieces, pieces ≠ [] ∧ (∀ piece ∈ pieces, piece.Valid u) ∧ item = joined pieces := by
  unfold mysqlSegment at h
  dsimp only at h
  split_ifs at h with hquoted hsearchable hempty hstar
  · obtain rfl := Option.some.inj h
    rw [unquoted_map hsegment.unquoted] at hsearchable ⊢
    rw [hsegment.trimmed]
    refine ⟨.phrase hsegment.operator hsearchable hsegment.unquoted, [phrase segment.operator segment.text], List.cons_ne_nil _ _, ?_, ?_⟩
    · exact List.forall_mem_singleton.2 ⟨hsegment.operator, hsearchable, hsegment.unquoted, hsegment.trimmed⟩
    · exact List.intercalate_singleton.symm
  · obtain rfl := Option.some.inj h
    exact item_of_words hempty true
  · obtain rfl := Option.some.inj h
    exact item_of_words hempty false

/-- The items of a search text are its pieces, run together. -/
theorem exists_pieces {items : List (List Char)} (h : ∀ item ∈ items, ∃ pieces, pieces ≠ [] ∧ (∀ piece ∈ pieces, piece.Valid u) ∧
    item = joined pieces) : ∃ pieces, (∀ piece ∈ pieces, piece.Valid u) ∧ [' '].intercalate items = joined pieces := by
  rcases eq_or_ne items [] with rfl | hne
  · exact ⟨[], fun _ hmem => (List.not_mem_nil hmem).elim, rfl⟩
  · have hjoin : ∀ left right, (∃ pieces, pieces ≠ [] ∧ (∀ piece ∈ pieces, piece.Valid u) ∧ left = joined pieces) →
        (∃ pieces, pieces ≠ [] ∧ (∀ piece ∈ pieces, piece.Valid u) ∧ right = joined pieces) →
        ∃ pieces, pieces ≠ [] ∧ (∀ piece ∈ pieces, piece.Valid u) ∧ left ++ [' '] ++ right = joined pieces := by
      rintro left right ⟨pieces, hpieces, hvalid, rfl⟩ ⟨pieces', hpieces', hvalid', rfl⟩
      refine ⟨pieces ++ pieces', List.append_ne_nil_of_left_ne_nil hpieces _, List.forall_mem_append.2 ⟨hvalid, hvalid'⟩, ?_⟩
      rw [joined_append hpieces hpieces', List.append_assoc, List.singleton_append]
    obtain ⟨pieces, -, hvalid, heq⟩ := intercalate_induction hjoin hne h
    exact ⟨pieces, hvalid, heq⟩

end MysqlPiece

theorem words_of_words (text : List Char) : mysqlFulltextWords u (mysqlFulltextWords u text) = mysqlFulltextWords u text := by
  have hwords : ∀ word ∈ (text.splitOnP separatesWords).filter (hasSearchableChar u), hasSearchableChar u word = true ∧
      ∀ ch ∈ word, separatesWords ch = false := fun word hword =>
    ⟨(List.mem_filter.1 hword).2, (mem_splitOnP (List.mem_filter.1 hword).1).2⟩
  unfold mysqlFulltextWords
  generalize (text.splitOnP separatesWords).filter (hasSearchableChar u) = words at hwords ⊢
  rcases eq_or_ne words [] with rfl | hne
  · rfl
  · rw [splitOnP_intercalate rfl hne fun word hword => (hwords word hword).2, List.filter_eq_self.2 fun word hword => (hwords word hword).1]

end

/-- The search text MySQL is given: a list of items in boolean mode, and sanitized once and for all in both. -/
theorem mysql_search_parses (u : CharTables) (input : List Char) :
    (∃ items, sanitizeMysqlFulltextQuery u input true = [' '].intercalate items ∧ ∀ item ∈ items, MysqlItem u item) ∧
      ∀ boolean, sanitizeMysqlFulltextQuery u (sanitizeMysqlFulltextQuery u input boolean) boolean =
        sanitizeMysqlFulltextQuery u input boolean := by
  have hitems : ∀ item ∈ (splitSearchSegments input).filterMap (mysqlSegment u), MysqlItem u item ∧
      ∃ pieces, pieces ≠ [] ∧ (∀ piece ∈ pieces, piece.Valid u) ∧ item = MysqlPiece.joined pieces := by
    intro item hitem
    obtain ⟨segment, hsegment, hsome⟩ := List.mem_filterMap.1 hitem
    exact MysqlPiece.item_of_segment (splitSearchSegments_isSegment input segment hsegment) hsome
  refine ⟨⟨_, rfl, fun item hitem => (hitems item hitem).1⟩, fun boolean => ?_⟩
  cases boolean with
  | false => exact words_of_words input
  | true =>
    obtain ⟨pieces, hvalid, hjoined⟩ := MysqlPiece.exists_pieces fun item hitem => (hitems item hitem).2
    have hwritten : sanitizeMysqlFulltextQuery u input true = MysqlPiece.joined pieces := hjoined
    rw [hwritten, MysqlPiece.sanitize_joined hvalid]

end TideOrm
