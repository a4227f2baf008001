import TideOrm.Proofs.SqlSafety
import TideOrm.Sanity.Fulltext
import TideOrm.Spec.SearchQuery

/-! Search text stays text: what the builders write for PostgreSQL, and for FTS5 unless it quotes a NUL,
reads as an expression that holds the input in what it quotes only. -/

namespace TideOrm

open Lib

/-- What both languages have: blanks between tokens and expressions in parentheses. -/
structure Grouped {τ : Type} (language : SearchLanguage τ) (blank opens closes : τ) (level : ℕ) : Prop where
  stops : language.stops ' ' = true ∧ language.stops ')' = true
  writes : language.write blank = [' '] ∧ language.write opens = ['('] ∧ language.write closes = [')']
  content : language.content blank = none ∧ language.content opens = none ∧ language.content closes = none
  isBlank : language.isBlank blank = true ∧ language.isBlank opens = false ∧ language.isBlank closes = false
  next_blank : ∀ tail, language.lexer.next (' ' :: tail) = some (blank, tail)
  next_opens : ∀ tail, language.lexer.next ('(' :: tail) = some (opens, tail)
  next_closes : ∀ tail, language.lexer.next (')' :: tail) = some (closes, tail)
  group : ∀ {l query}, language.Query l query → language.Query level (opens :: (query ++ [closes]))

section Build

variable {τ : Type} (u : CharTables) (language : SearchLanguage τ) (own : List τ) (input : List Char)

structure Built (level : ℕ) (text : List Char) (tokens : List τ) : Prop where
  written : text = tokens.flatMap language.write
  reads : language.lexer.Reads language.stops text tokens
  query : language.Query level (tokens.filter fun token => !language.isBlank token)
  writes : ∀ token ∈ tokens, Writes u language own input token

/-- A text is written as an expression that binds at least as closely as `level`. -/
def Builds (level : ℕ) (text : List Char) : Prop := ∃ tokens l, l ≤ level ∧ Built u language own input l text tokens

variable {u language own input}

theorem Builds.mono {level level' : ℕ} {text : List Char} (h : Builds u language own input level text) (hle : level ≤ level') :
    Builds u language own input level' text := by
  obtain ⟨tokens, l, hl, hbuilt⟩ := h
  exact ⟨tokens, l, hl.trans hle, hbuilt⟩

theorem Builds.staysText {level : ℕ} {text : List Char} (h : Builds u language own input level text) :
    StaysText u language own input text := by
  obtain ⟨tokens, l, -, hbuilt⟩ := h
  exact .inr ⟨tokens, l, hbuilt.written, hbuilt.reads.tokens, hbuilt.query, hbuilt.writes⟩

theorem writes_own {token : τ} (hcontent : language.content token = none) (hown : token ∈ own) :
    Writes u language own input token := by
  unfold Writes
  rwa [hcontent]

theorem writes_taken {token : τ} {text : List Char} (hcontent : language.content token = some text) (htaken : Taken u input text) :
    Writes u language own input token := by
  unfold Writes
  rwa [hcontent]

variable {blank opens closes : τ} {grouped : ℕ} (hg : Grouped language blank opens closes grouped)

include hg

/-- A text that is read after a blank. -/
theorem Grouped.reads_blank {text : List Char} {read : List τ} (h : language.lexer.Reads language.stops text read) :
    language.lexer.Reads language.stops (' ' :: text) (blank :: read) := by
  show language.lexer.Reads language.stops ([' '] ++ text) (blank :: read)
  exact Lexer.Reads.after hg.next_blank h

theorem Grouped.stops_blank {text : List Char} : ∀ ch ∈ (' ' :: text).head?, language.stops ch = true := by
  intro ch hch
  cases hch
  exact hg.stops.1

/-- Two expressions with an operator between them. -/
theorem Grouped.builds_join {level l r : ℕ} {left right : List Char} {operator : τ} (hblank : blank ∈ own) (hoperator : operator ∈ own)
    (hcontent : language.content operator = none) (hisBlank : language.isBlank operator = false)
    (hreads : language.lexer.Reads language.stops (language.write operator) [operator])
    (hquery : ∀ {l' r' left right}, language.Query l' left → l' ≤ l → language.Query r' right → r' ≤ r →
      language.Query level (left ++ operator :: right))
    (hleft : Builds u language own input l left) (hright : Builds u language own input r right) :
    Builds u language own input level (left ++ (' ' :: (language.write operator ++ [' '])) ++ right) := by
  obtain ⟨tokens, l', hl, hleft⟩ := hleft
  obtain ⟨tokens', r', hr, hright⟩ := hright
  have hsep : left ++ (' ' :: (language.write operator ++ [' '])) ++ right =
      left ++ ' ' :: (language.write operator ++ ' ' :: right) := by
    rw [List.append_assoc, List.cons_append, List.append_assoc, List.singleton_append]
  refine ⟨tokens ++ blank :: ([operator] ++ blank :: tokens'), level, le_rfl, ?_, ?_, ?_, ?_⟩
  · rw [hsep, List.flatMap_append, List.flatMap_cons, List.flatMap_append, List.flatMap_singleton, List.flatMap_cons, hg.writes.1,
      ← hleft.written, ← hright.written]
    rfl
  · rw [hsep]
    exact hleft.reads.append (hg.reads_blank (hreads.append (hg.reads_blank hright.reads) hg.stops_blank)) hg.stops_blank
  · have hfilter : (tokens ++ blank :: ([operator] ++ blank :: tokens')).filter (fun token => !language.isBlank token) =
        tokens.filter (fun token => !language.isBlank token) ++ operator :: tokens'.filter fun token => !language.isBlank token := by
      simp [hg.isBlank.1, hisBlank]
    rw [hfilter]
    exact hquery hleft.query hl hright.query hr
  · have hwrites : Writes u language own input blank := writes_own hg.content.1 hblank
    refine List.forall_mem_append.2 ⟨hleft.writes, List.forall_mem_cons.2 ⟨hwrites, List.forall_mem_cons.2 ⟨?_, ?_⟩⟩⟩
    · exact writes_own hcontent hoperator
    · exact List.forall_mem_cons.2 ⟨hwrites, hright.writes⟩

theorem Grouped.builds_group {level : ℕ} {text : List Char} (hopens : opens ∈ own) (hcloses : closes ∈ own)
    (h : Builds u language own input level text) : Builds u language own input grouped ('(' :: (text ++ [')'])) := by
  obtain ⟨tokens, l, -, hbuilt⟩ := h
  refine ⟨opens :: (tokens ++ [closes]), grouped, le_rfl, ?_, ?_, ?_, ?_⟩
  · rw [List.flatMap_cons, List.flatMap_append, List.flatMap_singleton, hg.writes.2.1, hg.writes.2.2, ← hbuilt.written]
    rfl
  · have hclose : language.lexer.Reads language.stops [')'] [closes] := .single fun tail _ => hg.next_closes tail
    show language.lexer.Reads language.stops (['('] ++ (text ++ [')'])) (opens :: (tokens ++ [closes]))
    refine Lexer.Reads.after hg.next_opens (hbuilt.reads.append hclose fun ch hch => ?_)
    cases hch
    exact hg.stops.2
  · have hfilter : (opens :: (tokens ++ [closes])).filter (fun token => !language.isBlank token) =
        opens :: (tokens.filter (fun token => !language.isBlank token) ++ [closes]) := by
      simp [hg.isBlank.2.1, hg.isBlank.2.2]
    rw [hfilter]
    exact hg.group hbuilt.query
  · refine List.forall_mem_cons.2 ⟨writes_own hg.content.2.1 hopens, List.forall_mem_append.2 ⟨hbuilt.writes, ?_⟩⟩
    exact List.forall_mem_singleton.2 (writes_own hg.content.2.2 hcloses)

end Build

section Postgres

variable {u : CharTables} {own : List TsToken} {input : List Char}

theorem tsquery_grouped : Grouped tsquery .blank (.symbol '(') (.symbol ')') 0 where
  stops := ⟨rfl, rfl⟩
  writes := ⟨rfl, rfl, rfl⟩
  content := ⟨rfl, rfl, rfl⟩
  isBlank := ⟨rfl, rfl, rfl⟩
  next_blank _ := rfl
  next_opens _ := rfl
  next_closes _ := rfl
  group := TsQuery.group

theorem taken_run {text : List Char} (hrun : text <:+: input) (hsearchable : hasSearchableChar u text = true) : Taken u input text :=
  ⟨hsearchable, [text], List.forall_mem_singleton.2 hrun, List.intercalate_singleton.symm⟩

theorem tsquery_stops_ne {ch : Char} (h : tsquery.stops ch = true) : ch ≠ '\'' ∧ ch ≠ ':' := by
  constructor
  · rintro rfl
    cases h
  · rintro rfl
    cases h

theorem builds_lexeme {lexeme : List Char} (hlexeme : ∀ ch ∈ lexeme, isLexemeChar u ch = true) (htaken : Taken u input lexeme)
    (starred : Bool) : Builds u tsquery own input 0 (formatPostgresLexeme lexeme starred) := by
  have hwritten : formatPostgresLexeme lexeme starred = TsToken.write (.lexeme lexeme starred) := by
    unfold formatPostgresLexeme TsToken.write
    cases starred with
    | true => simp
    | false => rfl
  refine ⟨[.lexeme lexeme starred], 0, le_rfl, ?_, ?_, .lexeme lexeme starred, List.forall_mem_singleton.2 (writes_taken rfl htaken)⟩
  · rw [List.flatMap_singleton]
    exact hwritten
  · refine Lexer.Reads.single fun tail htail => ?_
    -- no lexeme holds the backslash that would escape its end
    have hescape : ∀ ch ∈ lexeme, (ch == '\\') = false := by
      intro ch hch
      rw [beq_eq_false_iff_ne]
      rintro rfl
      have halnum : u.isAlphanumeric '\\' = false := by
        rw [CharTables.isAlphanumeric, (u.ascii '\\' rfl).1, (u.ascii '\\' rfl).2]
        rfl
      have hfalse := hlexeme '\\' hch
      rw [isLexemeChar, halnum] at hfalse
      cases hfalse
    have hread (star : List Char) (hstar : (star ++ tail).head? ≠ some '\'') :
        TsToken.next ('\'' :: (doubled '\'' lexeme ++ '\'' :: (star ++ tail))) =
          if [':', '*'] <+: star ++ tail then some (.lexeme lexeme true, (star ++ tail).drop 2)
          else some (.lexeme lexeme false, star ++ tail) := by
      show (readDoubled '\'' (fun ch => ch == '\\') (doubled '\'' lexeme ++ '\'' :: (star ++ tail))).map _ = _
      rw [readDoubled_doubled hescape hstar, Option.map_some]
      exact apply_ite some _ _ _
    rw [hwritten]
    show TsToken.next (TsToken.write (.lexeme lexeme starred) ++ tail) = some (.lexeme lexeme starred, tail)
    unfold TsToken.write
    rw [List.cons_append, List.append_assoc, List.cons_append]
    cases starred with
    | true =>
      rw [if_pos rfl, hread [':', '*'] (by simp), if_pos (List.prefix_append _ _)]
      rfl
    | false =>
      rw [if_neg Bool.false_ne_true, hread [] fun h => (tsquery_stops_ne (htail _ h)).1 rfl, if_neg]
      · rfl
      · intro hprefix
        obtain ⟨rest, heq⟩ := hprefix
        exact (tsquery_stops_ne (htail ':' (by rw [← List.nil_append tail, ← heq]; rfl))).2 rfl

/-- An operator that joins texts. -/
theorem reads_symbol {ch : Char} (h : ['&', '|', '!', '(', ')'].contains ch = true) :
    ∀ tail, TsToken.next (ch :: tail) = some (.symbol ch, tail) := by
  have hcases : ch ∈ ['&', '|', '!', '(', ')'] := List.contains_iff_mem.1 h
  simp only [List.mem_cons, List.not_mem_nil, or_false] at hcases
  rcases hcases with rfl | rfl | rfl | rfl | rfl <;> exact fun _ => rfl

theorem reads_distance {text : List Char} (h : '>' ∉ text) : ∀ tail,
    TsToken.next ('<' :: (text ++ '>' :: tail)) = some (.distance text, tail) := by
  intro tail
  have hkeep : ∀ ch ∈ text, (ch != '>') = true := fun ch hch => bne_iff_ne.2 fun heq => h (heq ▸ hch)
  have hdrop : (text ++ '>' :: tail).dropWhile (fun ch => ch != '>') = '>' :: tail := by
    rw [List.dropWhile_append_of_pos hkeep]
    rfl
  have htake : (text ++ '>' :: tail).takeWhile (fun ch => ch != '>') = text := by
    rw [List.takeWhile_append_of_pos hkeep]
    simp
  rw [TsToken.next, if_neg (by decide), if_neg (by decide), if_pos rfl, hdrop, htake]

/-- An operator a builder writes between two expressions. -/
structure JoinsAt (own : List TsToken) (operator : TsToken) (level : ℕ) : Prop where
  own : operator ∈ own
  looseness : operator.looseness = some level
  next : ∀ tail, TsToken.next (operator.write ++ tail) = some (operator, tail)

theorem joinsAt_symbol {ch : Char} {level : ℕ} (hown : .symbol ch ∈ own) (h : (TsToken.symbol ch).looseness = some level) :
    JoinsAt own (.symbol ch) level := by
  refine ⟨hown, h, reads_symbol ?_⟩
  unfold TsToken.looseness at h
  dsimp only at h
  split_ifs at h with hand hor
  · rw [hand]
    rfl
  · rw [hor]
    rfl

theorem joinsAt_distance {text : List Char} (hown : .distance text ∈ own) (hclose : '>' ∉ text)
    (htext : text = ['-'] ∨ (text ≠ [] ∧ text.all Char.isDigit ∧ digitsValue text ≤ 16384)) : JoinsAt own (.distance text) 1 := by
  refine ⟨hown, if_pos htext, fun tail => ?_⟩
  unfold TsToken.write
  rw [List.cons_append, List.append_assoc, List.singleton_append]
  exact reads_distance hclose tail

section

variable (hblank : .blank ∈ own)

include hblank

theorem JoinsAt.builds_pair {operator : TsToken} {level l r : ℕ} (h : JoinsAt own operator level) {left right : List Char}
    (hleft : Builds u tsquery own input l left) (hl : l ≤ level) (hright : Builds u tsquery own input r right) (hr : r ≤ level) :
    Builds u tsquery own input level (left ++ (' ' :: (operator.write ++ [' '])) ++ right) := by
  have hshape : tsquery.content operator = none ∧ tsquery.isBlank operator = false := by
    have hlevel := h.looseness
    cases operator with
    | blank | lexeme => cases hlevel
    | distance | symbol => exact ⟨rfl, rfl⟩
  refine tsquery_grouped.builds_join hblank h.own hshape.1 hshape.2 (.single fun tail _ => h.next tail) ?_ hleft hright
  intro l' r' left right hleft hl' hright hr'
  exact .join h.looseness hleft (hl'.trans hl) hright (hr'.trans hr)

theorem JoinsAt.builds_intercalate {operator : TsToken} {level l : ℕ} (h : JoinsAt own operator level) (hl : l ≤ level)
    {texts : List (List Char)} (hne : texts ≠ []) (htexts : ∀ text ∈ texts, Builds u tsquery own input l text) :
    Builds u tsquery own input level ((' ' :: (operator.write ++ [' '])).intercalate texts) :=
  intercalate_induction (fun _ _ hleft hright => h.builds_pair hblank hleft le_rfl hright le_rfl) hne
    fun text htext => (htexts text htext).mono hl

variable (hopens : .symbol '(' ∈ own) (hcloses : .symbol ')' ∈ own)

include hopens hcloses

/-- Every phrase is a lexeme, or lexemes in parentheses. -/
theorem builds_phrases {starred : Bool} {joiner : Bool → List Char} (hjoiner : ∀ quoted, ∃ operator level,
      joiner quoted = ' ' :: (TsToken.write operator ++ [' ']) ∧ JoinsAt own operator level) :
    ∀ phrase ∈ (postgresTsqueryPhrases u input starred joiner).map Prod.fst, Builds u tsquery own input 0 phrase := by
  intro phrase hphrase
  obtain ⟨⟨phrase, excluded⟩, hmem, rfl⟩ := List.mem_map.1 hphrase
  obtain ⟨segment, hsegment, hsome⟩ := List.mem_filterMap.1 hmem
  have hrun := (splitSearchSegments_isSegment input segment hsegment).run
  have hlexemes : ∀ text ∈ (extractPostgresLexemes u segment.text).map fun lexeme => formatPostgresLexeme lexeme starred,
      Builds u tsquery own input 0 text := by
    rw [List.forall_mem_map]
    intro lexeme hlexeme
    obtain ⟨hwithin, hchars, hsearchable⟩ := mem_extractPostgresLexemes hlexeme
    exact builds_lexeme hchars (taken_run (hwithin.trans hrun) hsearchable) starred
  split at hsome
  · cases hsome
  · next lexeme heq =>
    cases hsome
    rw [heq] at hlexemes
    exact List.forall_mem_singleton.1 hlexemes
  · next hnil _ =>
    cases hsome
    obtain ⟨operator, level, hwritten, hjoins⟩ := hjoiner segment.quoted
    rw [hwritten]
    exact tsquery_grouped.builds_group hopens hcloses (hjoins.builds_intercalate hblank (Nat.zero_le level) hnil hlexemes)

end

theorem builds_not {text : List Char} (hown : .symbol '!' ∈ own) (h : Builds u tsquery own input 0 text) :
    Builds u tsquery own input 0 ('!' :: text) := by
  obtain ⟨tokens, l, hl, hbuilt⟩ := h
  obtain rfl := Nat.le_zero.1 hl
  refine ⟨.symbol '!' :: tokens, 0, le_rfl, ?_, ?_, .not hbuilt.query, ?_⟩
  · rw [List.flatMap_cons, ← hbuilt.written]
    rfl
  · show tsquery.lexer.Reads tsquery.stops (['!'] ++ text) (.symbol '!' :: tokens)
    exact Lexer.Reads.after (fun _ => rfl) hbuilt.reads
  · exact List.forall_mem_cons.2 ⟨writes_own rfl hown, hbuilt.writes⟩

/-- The tokens of the plain searches, which the others add to. -/
def tsqueryOwn : List TsToken := [.blank, .symbol '(', .symbol ')', .symbol '&', .distance ['-']]

variable (hown : tsqueryOwn ⊆ own)

include hown

theorem joins_phrase : ∃ operator level, " <-> ".toList = ' ' :: (TsToken.write operator ++ [' ']) ∧ JoinsAt own operator level :=
  ⟨.distance ['-'], 1, rfl, joinsAt_distance (hown (by decide)) (by decide) (.inl rfl)⟩

theorem joins_and : JoinsAt own (.symbol '&') 2 := joinsAt_symbol (hown (by decide)) rfl

theorem joins_quoted (quoted : Bool) : ∃ operator level, (if quoted then " <-> ".toList else " & ".toList) =
    ' ' :: (TsToken.write operator ++ [' ']) ∧ JoinsAt own operator level := by
  cases quoted with
  | true => exact joins_phrase hown
  | false => exact ⟨.symbol '&', 2, rfl, joins_and hown⟩

theorem staysText_and {texts : List (List Char)} (htexts : ∀ text ∈ texts, Builds u tsquery own input 0 text) :
    StaysText u tsquery own input ([' ', '&', ' '].intercalate texts) := by
  rcases eq_or_ne texts [] with rfl | hne
  · exact .inl rfl
  · exact ((joins_and hown).builds_intercalate (hown (by decide)) (Nat.zero_le 2) hne htexts).staysText

omit hown

/-- Two phrases at any of the distances up to the limit, either way round. -/
def proximityOwn (distance : ℕ) : List TsToken :=
  tsqueryOwn ++ .symbol '|' :: (List.range' 1 (min (max distance 1) postgresProximityLimit)).map fun apart =>
    .distance (Nat.toDigits 10 apart)

theorem proximityOwn_plain (distance : ℕ) : tsqueryOwn ⊆ proximityOwn distance := List.subset_append_left _ _

theorem builds_apart {distance apart : ℕ} (h : apart ∈ List.range' 1 (min (max distance 1) postgresProximityLimit))
    {left right : List Char} (hleft : Builds u tsquery (proximityOwn distance) input 0 left)
    (hright : Builds u tsquery (proximityOwn distance) input 0 right) :
    Builds u tsquery (proximityOwn distance) input 1 (left ++ ' ' :: '<' :: (Nat.toDigits 10 apart ++ ['>', ' ']) ++ right) := by
  have hown : TsToken.distance (Nat.toDigits 10 apart) ∈ proximityOwn distance :=
    List.mem_append_right _ (List.mem_cons_of_mem _ (List.mem_map_of_mem h))
  have hclose : '>' ∉ Nat.toDigits 10 apart := fun hmem => absurd (isDigit_toDigits apart '>' hmem) (by decide)
  have hapart : apart ≤ 16384 := by
    rw [List.mem_range'_1, postgresProximityLimit] at h
    omega
  have hjoins := joinsAt_distance hown hclose (.inr ⟨Nat.toDigits_ne_nil, List.all_eq_true.2 (isDigit_toDigits apart),
    (digitsValue_toDigits apart).symm ▸ hapart⟩)
  have hwritten : ' ' :: '<' :: (Nat.toDigits 10 apart ++ ['>', ' ']) =
      ' ' :: ((TsToken.distance (Nat.toDigits 10 apart)).write ++ [' ']) := by
    rw [TsToken.write, List.cons_append, List.append_assoc, List.singleton_append]
  rw [hwritten]
  exact hjoins.builds_pair (proximityOwn_plain distance (by decide)) hleft (Nat.zero_le 1) hright (Nat.zero_le 1)

theorem builds_within {distance : ℕ} {left right : List Char} (hleft : Builds u tsquery (proximityOwn distance) input 0 left)
    (hright : Builds u tsquery (proximityOwn distance) input 0 right) :
    Builds u tsquery (proximityOwn distance) input 0 (within distance left right) := by
  have hplain := proximityOwn_plain distance
  have hor : JoinsAt (proximityOwn distance) (.symbol '|') 3 :=
    joinsAt_symbol (List.mem_append_right _ List.mem_cons_self) rfl
  refine tsquery_grouped.builds_group (hplain (by decide)) (hplain (by decide)) (hor.builds_intercalate (hplain (by decide))
    (by decide : 1 ≤ 3) (fun hnil => ?_) fun text htext => ?_)
  · have hone : 1 ∈ List.range' 1 (min (max distance 1) postgresProximityLimit) := by
      rw [List.mem_range'_1, postgresProximityLimit]
      omega
    exact List.cons_ne_nil _ _ (List.flatMap_eq_nil_iff.1 hnil 1 hone)
  · obtain ⟨apart, hapart, hmem⟩ := List.mem_flatMap.1 htext
    rcases List.mem_cons.1 hmem with rfl | hmem
    · exact builds_apart hapart hleft hright
    · rw [List.mem_singleton.1 hmem]
      exact builds_apart hapart hright hleft

theorem literals_stay (input : List Char) (starred : Bool) :
    StaysText u tsquery tsqueryOwn input (sanitizePostgresTsqueryLiterals u input starred) := by
  have hown := List.Subset.refl tsqueryOwn
  exact staysText_and hown (builds_phrases (by decide) (by decide) (by decide) (joins_quoted hown))

theorem boolean_stays (input : List Char) :
    StaysText u tsquery (.symbol '!' :: tsqueryOwn) input (sanitizePostgresBooleanTsquery u input) := by
  have hown := List.subset_cons_self (TsToken.symbol '!') tsqueryOwn
  refine staysText_and hown ?_
  rw [List.forall_mem_map]
  intro (phrase, excluded) hphrase
  have hbuilds := builds_phrases (hown (by decide)) (hown (by decide)) (hown (by decide)) (joins_quoted hown) phrase
    (List.mem_map_of_mem hphrase)
  cases excluded with
  | true => exact builds_not List.mem_cons_self hbuilds
  | false => exact hbuilds

theorem proximity_stays (input : List Char) (distance : ℕ) :
    StaysText u tsquery (proximityOwn distance) input (sanitizePostgresProximityTsqueryLiterals u input distance) := by
  have hplain := proximityOwn_plain distance
  have hphrases : ∀ phrase ∈ (postgresTsqueryPhrases u input false fun _ => " <-> ".toList).map Prod.fst,
      Builds u tsquery (proximityOwn distance) input 0 phrase :=
    builds_phrases (hplain (by decide)) (hplain (by decide)) (hplain (by decide)) fun _ => joins_phrase hplain
  unfold sanitizePostgresProximityTsqueryLiterals
  dsimp only
  generalize (postgresTsqueryPhrases u input false fun _ => " <-> ".toList).map Prod.fst = phrases at hphrases ⊢
  rcases phrases with _ | ⟨first, _ | ⟨second, rest⟩⟩
  · exact .inl rfl
  · rw [if_pos (show [first].length < 2 from Nat.one_lt_two), List.flatten_singleton]
    exact (hphrases first List.mem_cons_self).staysText
  · rw [if_neg (by simp)]
    refine staysText_and hplain fun text htext => ?_
    rw [← List.map_uncurry_zip_eq_zipWith] at htext
    obtain ⟨⟨left, right⟩, hpair, rfl⟩ := List.mem_map.1 htext
    obtain ⟨hleft, hright⟩ := List.of_mem_zip hpair
    exact builds_within (hphrases left hleft) (hphrases right (List.mem_of_mem_tail hright))

end Postgres

section Fts5

variable {u : CharTables} {own : List Fts5Token} {input : List Char}

theorem fts5_grouped : Grouped fts5 .blank (.symbol '(') (.symbol ')') 2 where
  stops := ⟨rfl, rfl⟩
  writes := ⟨rfl, rfl, rfl⟩
  content := ⟨rfl, rfl, rfl⟩
  isBlank := ⟨rfl, rfl, rfl⟩
  next_blank _ := rfl
  next_opens _ := rfl
  next_closes _ := rfl
  group := Fts5Query.group

theorem reads_string {text : List Char} (hnul : '\x00' ∉ text) :
    fts5.lexer.Reads fts5.stops (doubleQuoted text) [.string text] := by
  refine Lexer.Reads.single fun tail htail => ?_
  have hquote : tail.head? ≠ some '"' := by
    intro hhead
    cases htail '"' hhead
  show Fts5Token.next (doubleQuoted text ++ tail) = some (.string text, tail)
  unfold doubleQuoted
  rw [List.cons_append, List.append_assoc, List.singleton_append]
  show ((readDoubled '"' (fun _ => false) (doubled '"' text ++ '"' :: tail)).filter _).map _ = _
  rw [readDoubled_doubled (fun _ _ => rfl) hquote, Option.filter_some, if_pos (by simpa using hnul), Option.map_some]

theorem reads_bareword {text : List Char} (hne : text ≠ []) (htext : ∀ ch ∈ text, ch.isAlphanum = true) :
    fts5.lexer.Reads fts5.stops text [.bareword text] := by
  refine Lexer.Reads.single fun tail htail => ?_
  obtain ⟨first, rest, rfl⟩ := List.exists_cons_of_ne_nil hne
  have hbareword : ∀ ch ∈ first :: rest, Fts5Token.isBarewordChar ch = true := by
    intro ch hch
    rw [Fts5Token.isBarewordChar, htext ch hch, Bool.or_true, Bool.true_or, Bool.true_or]
  have hfirst := htext first List.mem_cons_self
  have hspace : (first == ' ' || first == '\t' || first == '\n' || first == '\r') = false := by
    simp only [Bool.or_eq_false_iff, beq_eq_false_iff_ne]
    refine ⟨⟨⟨?_, ?_⟩, ?_⟩, ?_⟩ <;> rintro rfl <;> exact absurd hfirst (by decide)
  have hnul : first ≠ '\x00' := by
    rintro rfl
    exact absurd hfirst (by decide)
  have hquote : first ≠ '"' := by
    rintro rfl
    exact absurd hfirst (by decide)
  have hstop : ∀ {ch}, fts5.stops ch = true → Fts5Token.isBarewordChar ch = false := by
    intro ch hch
    have hcases : ch = ' ' ∨ ch = '(' ∨ ch = ')' ∨ ch = ',' ∨ ch = '*' := by
      simpa [fts5, or_assoc] using hch
    rcases hcases with rfl | rfl | rfl | rfl | rfl <;> rfl
  have htake : (rest ++ tail).takeWhile Fts5Token.isBarewordChar = rest ∧ (rest ++ tail).dropWhile Fts5Token.isBarewordChar = tail := by
    have hrest : ∀ ch ∈ rest, Fts5Token.isBarewordChar ch = true := fun ch hch => hbareword ch (List.mem_cons_of_mem _ hch)
    rw [List.takeWhile_append_of_pos hrest, List.dropWhile_append_of_pos hrest]
    cases tail with
    | nil => exact ⟨List.append_nil rest, rfl⟩
    | cons ch tail =>
      have hch := hstop (htail ch rfl)
      rw [List.takeWhile_cons_of_neg (by rw [hch]; exact Bool.false_ne_true), List.dropWhile_cons_of_neg (by rw [hch]; exact Bool.false_ne_true)]
      exact ⟨List.append_nil rest, rfl⟩
  show Fts5Token.next (first :: (rest ++ tail)) = some (.bareword (first :: rest), tail)
  rw [Fts5Token.next, hspace, if_neg Bool.false_ne_true, if_neg hnul, if_neg hquote,
    if_pos (hbareword first List.mem_cons_self), htake.1, htake.2]

theorem builds_string {text : List Char} (hnul : '\x00' ∉ text) (htaken : Taken u input text) :
    Builds u fts5 own input 0 (doubleQuoted text) :=
  ⟨[.string text], 0, le_rfl, (List.flatMap_singleton _ _).symm, reads_string hnul, .string text,
    List.forall_mem_singleton.2 (writes_taken rfl htaken)⟩

theorem builds_starred {text : List Char} (hown : .symbol '*' ∈ own) (hnul : '\x00' ∉ text) (htaken : Taken u input text) :
    Builds u fts5 own input 0 (doubleQuoted text ++ ['*']) := by
  refine ⟨[.string text, .symbol '*'], 0, le_rfl, rfl, ?_, .starred text, ?_⟩
  · have hstar : fts5.lexer.Reads fts5.stops ['*'] [.symbol '*'] := .single fun _ _ => rfl
    refine (reads_string hnul).append hstar fun ch hch => ?_
    cases hch
    rfl
  · exact List.forall_mem_cons.2 ⟨writes_taken rfl htaken, List.forall_mem_singleton.2 (writes_own rfl hown)⟩

/-- Operands side by side. -/
theorem builds_beside (hblank : .blank ∈ own) {left right : List Char} (hleft : Builds u fts5 own input 1 left)
    (hright : Builds u fts5 own input 1 right) : Builds u fts5 own input 1 (left ++ [' '] ++ right) := by
  obtain ⟨tokens, l, hl, hleft⟩ := hleft
  obtain ⟨tokens', r, hr, hright⟩ := hright
  refine ⟨tokens ++ .blank :: tokens', 1, le_rfl, ?_, ?_, ?_, ?_⟩
  · rw [List.flatMap_append, List.flatMap_cons, ← hleft.written, ← hright.written, List.append_assoc]
    rfl
  · rw [List.append_assoc, List.singleton_append]
    exact hleft.reads.append (fts5_grouped.reads_blank hright.reads) fts5_grouped.stops_blank
  · rw [List.filter_append, List.filter_cons_of_neg (by decide)]
    exact .beside hleft.query hl hright.query hr
  · exact List.forall_mem_append.2 ⟨hleft.writes, List.forall_mem_cons.2 ⟨writes_own rfl hblank, hright.writes⟩⟩

theorem staysText_beside (hblank : .blank ∈ own) {texts : List (List Char)} (htexts : ∀ text ∈ texts, Builds u fts5 own input 0 text) :
    StaysText u fts5 own input ([' '].intercalate texts) := by
  rcases eq_or_ne texts [] with rfl | hne
  · exact .inl rfl
  · exact (intercalate_induction (fun _ _ => builds_beside hblank) hne fun text htext => (htexts text htext).mono (Nat.zero_le 1)).staysText

theorem mem_searchableSegments {segment : SearchSegment} (h : segment ∈ searchableSegments u input) : Taken u input segment.text := by
  obtain ⟨hmem, hsearchable⟩ := List.mem_filter.1 h
  exact taken_run (splitSearchSegments_isSegment input segment hmem).run hsearchable

theorem taken_word {word : List Char} (h : word ∈ searchWords u input) : Taken u input word :=
  taken_run (mem_searchWords h).1 (mem_searchWords h).2

theorem escaped_stays (h : NoNul u input) : StaysText u fts5 [.blank] input (escapeFts5QueryLiteralTerms u input) :=
  staysText_beside List.mem_cons_self (List.forall_mem_map.2 fun segment hsegment =>
    builds_string (h.segments segment hsegment) (mem_searchableSegments hsegment))

theorem prefix_stays (h : NoNul u input) : StaysText u fts5 [.blank, .symbol '*'] input (fts5PrefixQuery u input) :=
  staysText_beside List.mem_cons_self (List.forall_mem_map.2 fun word hword =>
    builds_starred (by decide) (h.words word hword) (taken_word hword))

/-- Words joined by blanks hold nothing that neither a word nor a blank is. -/
theorem mem_words {ch : Char} {words : List (List Char)} (h : ch ∈ [' '].intercalate words) :
    ch = ' ' ∨ ∃ word ∈ words, ch ∈ word := by
  induction words with
  | nil => cases h
  | cons word words ih =>
    cases words with
    | nil => exact .inr ⟨word, List.mem_cons_self, by rwa [List.intercalate_singleton] at h⟩
    | cons other words =>
      rw [List.intercalate_cons_cons, List.mem_append, List.mem_append, List.mem_singleton] at h
      rcases h with (h | h) | h
      · exact .inr ⟨word, List.mem_cons_self, h⟩
      · exact .inl h
      · exact (ih h).imp_right fun ⟨word, hmem, hch⟩ => ⟨word, List.mem_cons_of_mem _ hmem, hch⟩

theorem phrase_stays (h : NoNul u input) : StaysText u fts5 [] input (fts5PhraseQuery u input) := by
  unfold fts5PhraseQuery
  dsimp only
  split_ifs with hempty
  · exact .inl rfl
  · have hnul : '\x00' ∉ [' '].intercalate (searchWords u input) := by
      intro hmem
      obtain hblank | ⟨word, hword, hnul⟩ := mem_words hmem
      · cases hblank
      · exact h.words word hword hnul
    refine (builds_string hnul ⟨?_, searchWords u input, fun word hword => (mem_searchWords hword).1, rfl⟩).staysText
    obtain ⟨word, words, heq⟩ := List.exists_cons_of_ne_nil fun hnil => hempty (List.isEmpty_iff.2 hnil)
    have hmem : word ∈ searchWords u input := heq ▸ List.mem_cons_self
    have hword := (mem_searchWords hmem).2
    rw [heq]
    cases words with
    | nil => rwa [List.intercalate_singleton]
    | cons other words =>
      rw [List.intercalate_cons_cons, hasSearchableChar, List.any_append, List.any_append, Bool.or_eq_true, Bool.or_eq_true]
      exact .inl (.inl hword)

def fts5BooleanOwn : List Fts5Token := [.blank, .symbol '(', .symbol ')', .bareword ['A', 'N', 'D'], .bareword ['N', 'O', 'T']]

theorem builds_operator (operator : List Char) {level l r : ℕ} (hown : .bareword operator ∈ fts5BooleanOwn)
    (hlevel : (Fts5Token.bareword operator).looseness = some level) {left right : List Char}
    (hleft : Builds u fts5 fts5BooleanOwn input l left) (hl : l ≤ level) (hright : Builds u fts5 fts5BooleanOwn input r right) (hr : r ≤ level) :
    Builds u fts5 fts5BooleanOwn input level (left ++ (' ' :: (operator ++ [' '])) ++ right) := by
  have hletters : operator ≠ [] ∧ ∀ ch ∈ operator, ch.isAlphanum = true := by
    have hcases : operator = ['A', 'N', 'D'] ∨ operator = ['N', 'O', 'T'] := by simpa [fts5BooleanOwn] using hown
    rcases hcases with rfl | rfl <;> exact ⟨by decide, List.all_eq_true.1 (by decide)⟩
  refine fts5_grouped.builds_join (by decide) hown rfl rfl (reads_bareword hletters.1 hletters.2) ?_ hleft hright
  intro l' r' left right hleft hl' hright hr'
  exact .join hlevel hleft (hl'.trans hl) hright (hr'.trans hr)

/-- What is left out is taken from the expression before it. -/
theorem builds_excluded (excluded : List SearchSegment)
    (hexcluded : ∀ segment ∈ excluded, Builds u fts5 fts5BooleanOwn input 0 (doubleQuoted segment.text)) {query : List Char}
    (hquery : Builds u fts5 fts5BooleanOwn input 2 query) :
    Builds u fts5 fts5BooleanOwn input 2
      (excluded.foldl (fun query segment => query ++ " NOT ".toList ++ doubleQuoted segment.text) query) := by
  induction excluded generalizing query with
  | nil => exact hquery
  | cons segment excluded ih =>
    refine ih (fun segment hmem => hexcluded segment (List.mem_cons_of_mem _ hmem)) ?_
    exact builds_operator ['N', 'O', 'T'] (by decide) rfl hquery le_rfl (hexcluded segment List.mem_cons_self) (Nat.zero_le 2)

theorem fts5Boolean_stays (h : NoNul u input) : StaysText u fts5 fts5BooleanOwn input (fts5BooleanQuery u input) := by
  unfold fts5BooleanQuery
  rw [List.partition_eq_filter_filter]
  dsimp only
  split_ifs with hempty
  · exact .inl rfl
  · have hsegments : ∀ p : SearchSegment → Bool, ∀ segment ∈ (searchableSegments u input).filter p,
        Builds u fts5 fts5BooleanOwn input 0 (doubleQuoted segment.text) := fun p segment hsegment =>
      builds_string (h.segments segment (List.mem_filter.1 hsegment).1) (mem_searchableSegments (List.mem_filter.1 hsegment).1)
    have hjoined : Builds u fts5 fts5BooleanOwn input 3 (" AND ".toList.intercalate
        (((searchableSegments u input).filter fun segment => !segment.excluded).map fun segment => doubleQuoted segment.text)) := by
      refine intercalate_induction (fun _ _ hleft hright => ?_) (fun hnil => hempty (List.isEmpty_iff.2 (List.map_eq_nil_iff.1 hnil))) ?_
      · exact builds_operator ['A', 'N', 'D'] (by decide) rfl hleft le_rfl hright le_rfl
      · exact List.forall_mem_map.2 fun segment hsegment => (hsegments _ segment hsegment).mono (Nat.zero_le 3)
    have hincluded := fts5_grouped.builds_group (by decide) (by decide) hjoined
    exact (builds_excluded _ (hsegments SearchSegment.excluded) hincluded).staysText

def nearOwn (distance : ℕ) : List Fts5Token :=
  [.blank, .bareword ['N', 'E', 'A', 'R'], .symbol '(', .symbol ',', .bareword (Nat.toDigits 10 distance), .symbol ')']

/-- Strings with blanks between them. -/
theorem exists_strings {texts : List (List Char)} (hne : texts ≠ [])
    (htexts : ∀ text ∈ texts, '\x00' ∉ text ∧ Taken u input text) :
    ∃ tokens, [' '].intercalate (texts.map doubleQuoted) = tokens.flatMap fts5.write ∧
      fts5.lexer.Reads fts5.stops ([' '].intercalate (texts.map doubleQuoted)) tokens ∧
      (tokens.filter fun token => !fts5.isBlank token) = texts.map .string ∧
      (.blank ∈ own → ∀ token ∈ tokens, Writes u fts5 own input token) := by
  induction texts with
  | nil => exact absurd rfl hne
  | cons text texts ih =>
    have htext : Writes u fts5 own input (.string text) := writes_taken rfl (htexts text List.mem_cons_self).2
    cases texts with
    | nil =>
      refine ⟨[.string text], ?_, ?_, rfl, fun _ => List.forall_mem_singleton.2 htext⟩
      · rw [List.map_singleton, List.intercalate_singleton, List.flatMap_singleton]
        rfl
      · rw [List.map_singleton, List.intercalate_singleton]
        exact reads_string (htexts text List.mem_cons_self).1
    | cons other texts =>
      obtain ⟨tokens, hwritten, hreads, hfilter, hwrites⟩ := ih (List.cons_ne_nil _ _) fun text hmem => htexts text (List.mem_cons_of_mem _ hmem)
      have hsplit : [' '].intercalate ((text :: other :: texts).map doubleQuoted) =
          doubleQuoted text ++ ' ' :: [' '].intercalate ((other :: texts).map doubleQuoted) := by
        rw [List.map_cons, List.map_cons, List.intercalate_cons_cons, List.append_assoc]
        rfl
      rw [hsplit]
      refine ⟨.string text :: .blank :: tokens, ?_, ?_, ?_, fun hblank => ?_⟩
      · rw [hwritten]
        rfl
      · exact (reads_string (htexts text List.mem_cons_self).1).append (fts5_grouped.reads_blank hreads) fts5_grouped.stops_blank
      · rw [List.filter_cons_of_pos rfl, List.filter_cons_of_neg (by decide), hfilter]
        rfl
      · exact List.forall_mem_cons.2 ⟨htext, List.forall_mem_cons.2 ⟨writes_own rfl hblank, hwrites hblank⟩⟩

theorem near_stays (h : NoNul u input) (distance : ℕ) :
    StaysText u fts5 (nearOwn distance) input (fts5NearQuery u input distance) := by
  have htaken : ∀ word ∈ searchWords u input, '\x00' ∉ word ∧ Taken u input word := fun word hword =>
    ⟨h.words word hword, taken_word hword⟩
  unfold fts5NearQuery
  generalize searchWords u input = words at htaken ⊢
  rcases words with _ | ⟨first, _ | ⟨second, words⟩⟩
  · exact .inl rfl
  · exact (builds_string (htaken first List.mem_cons_self).1 (htaken first List.mem_cons_self).2).staysText
  · obtain ⟨tokens, hwritten, hreads, hfilter, hwrites⟩ := exists_strings (List.cons_ne_nil _ _) htaken
    have hdigits := isDigit_toDigits distance
    have hreadDigits : fts5.lexer.Reads fts5.stops (Nat.toDigits 10 distance) [.bareword (Nat.toDigits 10 distance)] :=
      reads_bareword Nat.toDigits_ne_nil fun ch hch => by rw [Char.isAlphanum, hdigits ch hch, Bool.or_true]
    have hclose : fts5.lexer.Reads fts5.stops [')'] [.symbol ')'] := .single fun _ _ => rfl
    have hopen : ∀ tail, fts5.lexer.next (['('] ++ tail) = some (.symbol '(', tail) := fun _ => rfl
    have hcomma : ∀ tail, fts5.lexer.next ([','] ++ tail) = some (.symbol ',', tail) := fun _ => rfl
    have hnear : fts5.lexer.Reads fts5.stops ['N', 'E', 'A', 'R'] [.bareword ['N', 'E', 'A', 'R']] :=
      reads_bareword (List.cons_ne_nil _ _) (List.all_eq_true.1 (by decide))
    have hend := hreadDigits.append hclose fun ch hch => by
      cases hch
      rfl
    have harguments := hreads.append (Lexer.Reads.after hcomma (fts5_grouped.reads_blank hend)) fun ch hch => by
      cases hch
      rfl
    have hread := hnear.append (Lexer.Reads.after hopen harguments) fun ch hch => by
      cases hch
      rfl
    have htext : "NEAR(".toList ++ [' '].intercalate ((first :: second :: words).map doubleQuoted) ++ ", ".toList ++
        Nat.toDigits 10 distance ++ [')'] = ['N', 'E', 'A', 'R'] ++ (['('] ++
          ([' '].intercalate ((first :: second :: words).map doubleQuoted) ++ ([','] ++ ' ' :: (Nat.toDigits 10 distance ++ [')'])))) := by
      show ['N', 'E', 'A', 'R', '('] ++ _ ++ [',', ' '] ++ _ ++ [')'] = _
      simp only [List.append_assoc, List.cons_append, List.nil_append]
    refine Builds.staysText ⟨_, 0, le_rfl, ?_, htext ▸ hread, ?_, ?_⟩
    · refine htext.trans ?_
      rw [hwritten]
      simp [fts5, Fts5Token.write]
    · have hquery := Fts5Query.near (List.cons_ne_nil first (second :: words)) Nat.toDigits_ne_nil hdigits
      rw [← hfilter] at hquery
      simpa [fts5] using hquery
    · have hown : ∀ token ∈ nearOwn distance, fts5.content token = none → Writes u fts5 (nearOwn distance) input token :=
        fun token hmem hcontent => writes_own hcontent hmem
      simp only [List.forall_mem_append, List.forall_mem_cons]
      refine ⟨⟨hown _ ?_ rfl, fun _ hmem => (List.not_mem_nil hmem).elim⟩, hown _ ?_ rfl, hwrites ?_, hown _ ?_ rfl, hown _ ?_ rfl,
        ⟨hown _ ?_ rfl, fun _ hmem => (List.not_mem_nil hmem).elim⟩, hown _ ?_ rfl, fun _ hmem => (List.not_mem_nil hmem).elim⟩
      all_goals simp [nearOwn]

/-- FTS5 reads no token with a NUL in it. -/
theorem next_noNul {text rest : List Char} {token : Fts5Token} (h : fts5.lexer.next text = some (token, rest)) :
    '\x00' ∉ token.write := by
  replace h : Fts5Token.next text = some (token, rest) := h
  cases text with
  | nil => cases h
  | cons ch text =>
    rw [Fts5Token.next] at h
    split_ifs at h with hblank hnul hquote hbareword hsymbol
    · cases h
      decide
    · cases h
      decide
    · obtain ⟨⟨read, after⟩, hread, heq⟩ := Option.map_eq_some_iff.1 h
      cases heq
      have hcontent := (Option.filter_eq_some_iff.1 hread).2
      intro hmem
      rw [Fts5Token.write, List.mem_cons, List.mem_append, List.mem_singleton, doubled, List.mem_flatMap] at hmem
      rcases hmem with hmem | ⟨ch, hch, hmem⟩ | hmem
      · cases hmem
      · split_ifs at hmem
        · simp at hmem
        · obtain rfl := List.mem_singleton.1 hmem
          simp [hch] at hcontent
      · cases hmem
    · cases h
      intro hmem
      have hall : ∀ other ∈ ch :: text.takeWhile Fts5Token.isBarewordChar, Fts5Token.isBarewordChar other = true :=
        List.forall_mem_cons.2 ⟨hbareword, fun other hother => List.mem_takeWhile_imp hother⟩
      exact absurd (hall _ hmem) (by decide)
    · cases h
      intro hmem
      rw [← List.mem_singleton.1 hmem] at hsymbol
      exact absurd hsymbol (by decide)

theorem StaysText.noNul {output : List Char} (h : StaysText u fts5 own input output) : '\x00' ∉ output := by
  obtain rfl | ⟨tokens, -, hwritten, hread, -, -⟩ := h
  · exact List.not_mem_nil
  · have htokens := Lexer.tokens_forall next_noNul hread
    rw [hwritten, List.mem_flatMap]
    rintro ⟨token, hmem, hnul⟩
    exact htokens token hmem hnul

theorem mem_doubled {ch : Char} {text : List Char} (h : ch ∈ text) : ch ∈ doubled '"' text := by
  refine List.mem_flatMap.2 ⟨ch, h, ?_⟩
  split_ifs with hquote
  · rw [hquote]
    exact List.mem_cons_self
  · exact List.mem_cons_self

theorem mem_doubleQuoted {ch : Char} {text : List Char} (h : ch ∈ text) : ch ∈ doubleQuoted text :=
  List.mem_cons_of_mem _ (List.mem_append_left _ (mem_doubled h))

theorem mem_intercalate {ch : Char} {word : List Char} {words : List (List Char)} (hword : word ∈ words) (hch : ch ∈ word) :
    ch ∈ [' '].intercalate words := by
  induction words with
  | nil => cases hword
  | cons other words ih =>
    cases words with
    | nil =>
      rw [List.mem_singleton.1 hword] at hch
      rwa [List.intercalate_singleton]
    | cons next words =>
      rw [List.intercalate_cons_cons, List.mem_append]
      rcases List.mem_cons.1 hword with rfl | hword
      · exact .inl (List.mem_append_left _ hch)
      · exact .inr (ih hword)

/-- The literal terms quote every piece and the phrase every word, so neither holds a NUL. -/
theorem noNul_of_stays {own' : List Fts5Token}
    (hliteral : StaysText u fts5 own input (escapeFts5QueryLiteralTerms u input))
    (hphrase : StaysText u fts5 own' input (fts5PhraseQuery u input)) : NoNul u input where
  segments segment hsegment hnul :=
    hliteral.noNul (mem_intercalate (List.mem_map_of_mem hsegment) (mem_doubleQuoted hnul))
  words word hword hnul := by
    have hwords : (searchWords u input).isEmpty = false := by
      rw [List.isEmpty_eq_false_iff]
      exact List.ne_nil_of_mem hword
    refine hphrase.noNul ?_
    rw [fts5PhraseQuery, hwords]
    exact mem_doubleQuoted (mem_intercalate hword hnul)

end Fts5

/-- What the search builders write for PostgreSQL, and for FTS5 where they quote no NUL. -/
theorem search_text_stays_text (u : CharTables) (input : List Char) :
    (∀ starred distance, StaysText u tsquery tsqueryOwn input (sanitizePostgresTsqueryLiterals u input starred) ∧
      StaysText u tsquery (.symbol '!' :: tsqueryOwn) input (sanitizePostgresBooleanTsquery u input) ∧
      StaysText u tsquery (proximityOwn distance) input (sanitizePostgresProximityTsqueryLiterals u input distance)) ∧
    ((∀ distance, StaysText u fts5 [.blank] input (escapeFts5QueryLiteralTerms u input) ∧
      StaysText u fts5 fts5BooleanOwn input (fts5BooleanQuery u input) ∧
      StaysText u fts5 [] input (fts5PhraseQuery u input) ∧
      StaysText u fts5 [.blank, .symbol '*'] input (fts5PrefixQuery u input) ∧
      StaysText u fts5 (nearOwn distance) input (fts5NearQuery u input distance)) ↔ NoNul u input) := by
  refine ⟨fun starred distance => ⟨literals_stay input starred, boolean_stays input, proximity_stays input distance⟩,
    fun h => ?_, fun h distance => ?_⟩
  · obtain ⟨hliteral, -, hphrase, -⟩ := h 0
    exact noNul_of_stays hliteral hphrase
  · exact ⟨escaped_stays h, fts5Boolean_stays h, phrase_stays h, prefix_stays h, near_stays h distance⟩

/-- FTS5 finds the string of `a`, a NUL and `b` unterminated. -/
theorem literal_terms_quote_nul :
    ¬ ∀ (u : CharTables) (input : List Char), StaysText u fts5 [.blank] input (escapeFts5QueryLiteralTerms u input) := by
  intro h
  have hnone : '\x00' ∉ escapeFts5QueryLiteralTerms asciiTables "a\x00b".toList := (h asciiTables "a\x00b".toList).noNul
  exact hnone (by decide +kernel)

end TideOrm
