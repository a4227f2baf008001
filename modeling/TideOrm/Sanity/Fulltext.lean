import TideOrm.Lib.Words
import TideOrm.Sanity.SqlLexer
import TideOrm.Spec.Fulltext

/-! What search text is cut into: segments, words and lexemes are runs of the input. -/

namespace TideOrm

open Lib

theorem trim_within (text : List Char) : trim text <:+: text := by
  obtain ⟨front, back, -, heq⟩ := trim_split text
  exact ⟨front, back, by rw [List.append_assoc]; exact heq.symm⟩

section Segments

structure IsSegment (input : List Char) (segment : SearchSegment) : Prop where
  run : segment.text <:+: input
  trimmed : trim segment.text = segment.text
  unquoted : '"' ∉ segment.text
  operator : ∀ ch ∈ segment.operator, isBooleanOperator ch = true

variable {input current : List Char} {operator : Option Char}

theorem flushSegment_isSegment (hrun : current <:+: input) (hquote : '"' ∉ current)
    (hoperator : ∀ ch ∈ operator, isBooleanOperator ch = true) (quoted : Bool) :
    ∀ segment ∈ flushSegment current quoted operator, IsSegment input segment := by
  unfold flushSegment
  dsimp only
  split_ifs
  · exact fun _ hmem => (List.not_mem_nil hmem).elim
  · rw [List.forall_mem_singleton]
    exact ⟨(trim_within current).trans hrun, trim_trim current, fun hmem => hquote ((trim_within current).subset hmem), hoperator⟩

theorem phraseOperator_isOperator (current : List Char) : ∀ ch ∈ phraseOperator current, isBooleanOperator ch = true := by
  intro ch hch
  unfold phraseOperator at hch
  dsimp only at hch
  split_ifs at hch with hpending
  · exact List.all_eq_true.1 ((Bool.and_eq_true _ _).mp hpending).2 ch (List.mem_of_getLast? hch)
  · cases hch

theorem segmentsFrom_isSegment (rest : List Char) (hrun : current ++ rest <:+: input) (hquote : '"' ∉ current)
    (hoperator : ∀ ch ∈ operator, isBooleanOperator ch = true) (inQuotes : Bool) :
    ∀ segment ∈ segmentsFrom current inQuotes operator rest, IsSegment input segment := by
  have hnone : ∀ ch ∈ (none : Option Char), isBooleanOperator ch = true := fun _ h => by cases h
  induction rest generalizing current operator inQuotes with
  | nil =>
    rw [List.append_nil] at hrun
    exact flushSegment_isSegment hrun hquote hoperator inQuotes
  | cons ch rest ih =>
    have hcurrent := (List.prefix_append current (ch :: rest)).isInfix.trans hrun
    have hrest : [] ++ rest <:+: input := ((List.suffix_cons ch rest).trans (List.suffix_append current _)).isInfix.trans hrun
    rw [segmentsFrom]
    split_ifs
    · exact List.forall_mem_append.2 ⟨flushSegment_isSegment hcurrent hquote hoperator true, ih hrest List.not_mem_nil hnone false⟩
    · refine List.forall_mem_append.2 ⟨?_, ih hrest List.not_mem_nil (phraseOperator_isOperator current) true⟩
      split_ifs
      · exact fun _ hmem => (List.not_mem_nil hmem).elim
      · exact flushSegment_isSegment hcurrent hquote hnone false
    · exact List.forall_mem_append.2 ⟨flushSegment_isSegment hcurrent hquote hnone false, ih hrest List.not_mem_nil hoperator false⟩
    · next hch _ =>
      refine ih ?_ (fun hmem => ?_) hoperator inQuotes
      · rwa [List.append_assoc, List.singleton_append]
      · rcases List.mem_append.1 hmem with hmem | hmem
        · exact hquote hmem
        · exact hch (List.mem_singleton.1 hmem).symm

theorem splitSearchSegments_isSegment (input : List Char) : ∀ segment ∈ splitSearchSegments input, IsSegment input segment :=
  segmentsFrom_isSegment input (List.infix_refl _) List.not_mem_nil (fun _ h => by cases h) false

theorem operator_plain {ch : Char} (h : isBooleanOperator ch = true) : isWhitespace ch = false ∧ ch ≠ '"' := by
  have hcases : ch = '+' ∨ ch = '-' ∨ ch = '~' ∨ ch = '<' ∨ ch = '>' := by
    simpa [isBooleanOperator, or_assoc] using h
  rcases hcases with rfl | rfl | rfl | rfl | rfl <;> exact ⟨rfl, by decide⟩

/-- A run of characters that neither divide segments nor open a phrase is gathered. -/
theorem segmentsFrom_run {text : List Char} (h : ∀ ch ∈ text, isWhitespace ch = false ∧ ch ≠ '"') (current rest : List Char) :
    segmentsFrom current false none (text ++ rest) = segmentsFrom (current ++ text) false none rest := by
  induction text generalizing current with
  | nil => rw [List.nil_append, List.append_nil]
  | cons ch text ih =>
    obtain ⟨hspace, hquote⟩ := h ch List.mem_cons_self
    rw [List.cons_append, segmentsFrom, if_neg hquote, hspace, Bool.false_and, if_neg Bool.false_ne_true,
      ih fun ch hch => h ch (List.mem_cons_of_mem _ hch), List.append_assoc, List.singleton_append]

theorem segmentsFrom_phrase {text : List Char} (h : '"' ∉ text) (current rest : List Char) (operator : Option Char) :
    segmentsFrom current true operator (text ++ '"' :: rest) =
      flushSegment (current ++ text) true operator ++ segmentsFrom [] false none rest := by
  induction text generalizing current with
  | nil => rw [List.nil_append, List.append_nil, segmentsFrom, if_pos rfl, if_pos rfl]
  | cons ch text ih =>
    have hch : ch ≠ '"' := fun heq => h (heq ▸ List.mem_cons_self)
    rw [List.cons_append, segmentsFrom, if_neg hch, Bool.not_true, Bool.and_false, if_neg Bool.false_ne_true,
      ih fun hmem => h (List.mem_cons_of_mem _ hmem), List.append_assoc, List.singleton_append]

theorem segmentsFrom_break {ch : Char} (h : isWhitespace ch = true) (current rest : List Char) :
    segmentsFrom current false none (ch :: rest) = flushSegment current false none ++ segmentsFrom [] false none rest := by
  have hquote : ch ≠ '"' := by
    rintro rfl
    cases h
  rw [segmentsFrom, if_neg hquote, h]
  rfl

end Segments

section Words

variable {u : CharTables}

theorem searchable_ne_nil {text : List Char} (h : hasSearchableChar u text = true) : text ≠ [] := by
  rintro rfl
  cases h

theorem mem_searchWords {input word : List Char} (h : word ∈ searchWords u input) :
    word <:+: input ∧ hasSearchableChar u word = true :=
  ⟨(mem_splitOnP (List.mem_filter.1 h).1).1, (List.mem_filter.1 h).2⟩

theorem mem_lexemesFrom {current rest lexeme : List Char} (hcurrent : ∀ ch ∈ current, isLexemeChar u ch = true)
    (h : lexeme ∈ lexemesFrom u current rest) : lexeme <:+: current ++ rest ∧ ∀ ch ∈ lexeme, isLexemeChar u ch = true := by
  induction rest generalizing current with
  | nil =>
    rw [lexemesFrom] at h
    split_ifs at h
    · cases h
    · rw [List.mem_singleton.1 h, List.append_nil]
      exact ⟨List.infix_refl _, hcurrent⟩
  | cons ch rest ih =>
    have hnil : ∀ ch ∈ ([] : List Char), isLexemeChar u ch = true := fun _ hmem => (List.not_mem_nil hmem).elim
    have hlater : rest <:+: current ++ ch :: rest := ((List.suffix_cons ch rest).trans (List.suffix_append current _)).isInfix
    rw [lexemesFrom] at h
    split_ifs at h with hch hempty
    · rw [← List.singleton_append, ← List.append_assoc]
      exact ih (List.forall_mem_append.2 ⟨hcurrent, List.forall_mem_singleton.2 hch⟩) h
    · rw [List.isEmpty_iff.1 hempty] at h
      obtain ⟨hwithin, hlexeme⟩ := ih hnil h
      exact ⟨hwithin.trans hlater, hlexeme⟩
    · rcases List.mem_cons.1 h with rfl | h
      · exact ⟨(List.prefix_append _ _).isInfix, hcurrent⟩
      · obtain ⟨hwithin, hlexeme⟩ := ih hnil h
        exact ⟨hwithin.trans hlater, hlexeme⟩

theorem mem_extractPostgresLexemes {text lexeme : List Char} (h : lexeme ∈ extractPostgresLexemes u text) :
    lexeme <:+: text ∧ (∀ ch ∈ lexeme, isLexemeChar u ch = true) ∧ hasSearchableChar u lexeme = true := by
  obtain ⟨hmem, hsearchable⟩ := List.mem_filter.1 h
  obtain ⟨hwithin, hlexeme⟩ := mem_lexemesFrom (fun _ hmem => (List.not_mem_nil hmem).elim) hmem
  exact ⟨hwithin, hlexeme, hsearchable⟩

end Words

end TideOrm
