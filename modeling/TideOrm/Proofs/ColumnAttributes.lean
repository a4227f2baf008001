import TideOrm.Spec.ShowCreateTable
import TideOrm.Sanity.SqlLexer

/-! What `mysqlColumnAttributes` reads off a column's line. Its words are stepped over one by one;
the list of the type is one word as long as the parentheses in its values match. -/

namespace TideOrm

open Lib

section Groups

def isParen (ch : Char) : Bool := ch == '(' || ch == ')'

theorem openAfter_cons (depth : ℕ) (ch : Char) (text : List Char) :
    openAfter depth (ch :: text) =
      if ch = '(' then openAfter (depth + 1) text
      else if ch = ')' then if depth = 0 then none else openAfter (depth - 1) text
      else openAfter depth text := by
  simp only [openAfter, nesting, beq_iff_eq]

/-- Other characters do not count. -/
theorem openAfter_filter (depth : ℕ) (text : List Char) : openAfter depth (text.filter isParen) = openAfter depth text := by
  induction text generalizing depth with
  | nil => rfl
  | cons ch text ih =>
    rw [List.filter_cons, isParen]
    split_ifs with hparen
    · rw [openAfter_cons, openAfter_cons]
      split_ifs
      · exact ih (depth + 1)
      · rfl
      · exact ih (depth - 1)
      · exact ih depth
    · rw [Bool.or_eq_true, beq_iff_eq, beq_iff_eq, not_or] at hparen
      rw [openAfter_cons, if_neg hparen.1, if_neg hparen.2]
      exact ih depth

theorem content_filter (item : TypeItem) : item.text.filter isParen = item.content.filter isParen := by
  cases item with
  | number digits h =>
    rw [TypeItem.text, TypeItem.content, List.filter_nil, List.filter_eq_nil_iff]
    intro ch hch hparen
    rw [isParen, Bool.or_eq_true, beq_iff_eq, beq_iff_eq] at hparen
    rcases hparen with rfl | rfl
    · exact absurd (List.all_eq_true.1 h _ hch) (by decide)
    · exact absurd (List.all_eq_true.1 h _ hch) (by decide)
  | value text =>
    have hdoubled : (text.flatMap fun ch => if ch = '\'' then [ch, ch] else [ch]).filter isParen = text.filter isParen := by
      induction text with
      | nil => rfl
      | cons ch text ih =>
        rw [List.flatMap_cons, List.filter_append, ih, List.filter_cons]
        split_ifs with hquote hparen
        · subst hquote
          exact absurd hparen (by decide)
        · subst hquote
          rfl
        · rw [List.filter_cons, if_pos ‹_›]
          rfl
        · rw [List.filter_cons, if_neg ‹_›]
          rfl
    show ('\'' :: (_ ++ ['\''])).filter isParen = text.filter isParen
    rw [List.filter_cons, if_neg (by decide), List.filter_append, hdoubled]
    exact List.append_nil _

/-- The list opens and closes what its values do. -/
theorem openAfter_items (depth : ℕ) (items : List TypeItem) :
    openAfter depth ([','].intercalate (items.map TypeItem.text)) = openAfter depth (items.flatMap TypeItem.content) := by
  have hfilter : ([','].intercalate (items.map TypeItem.text)).filter isParen =
      (items.flatMap TypeItem.content).filter isParen := by
    induction items with
    | nil => rfl
    | cons item items ih =>
      rw [List.flatMap_cons, List.filter_append, ← ih, ← content_filter]
      cases items with
      | nil => simp [List.intercalate]
      | cons other items =>
        have hcomma : [','].filter isParen = [] := rfl
        rw [List.map_cons, List.map_cons, List.intercalate_cons_cons, List.filter_append, List.filter_append, hcomma,
          List.append_nil]
  rw [← openAfter_filter, hfilter, openAfter_filter]

theorem groupLen_open (depth : ℕ) (rest : List Char) : groupLen depth ('(' :: rest) = groupLen (depth + 1) rest + 1 := by
  rw [groupLen, if_pos rfl, if_neg (Nat.succ_ne_zero depth)]

theorem groupLen_close (depth : ℕ) (rest : List Char) :
    groupLen (depth + 1) (')' :: rest) = if depth = 0 then 1 else groupLen depth rest + 1 := by
  simp [groupLen]

theorem groupLen_other {ch : Char} (hopen : ch ≠ '(') (hclose : ch ≠ ')') (depth : ℕ) (rest : List Char) :
    groupLen (depth + 1) (ch :: rest) = groupLen (depth + 1) rest + 1 := by
  rw [groupLen, if_neg hopen, if_neg hclose, if_neg (Nat.succ_ne_zero depth)]

theorem groupLen_append {text : List Char} {depth depth' : ℕ} (h : openAfter depth text = some depth') (rest : List Char) :
    groupLen (depth + 1) (text ++ rest) = text.length + groupLen (depth' + 1) rest := by
  induction text generalizing depth with
  | nil =>
    cases h
    exact (Nat.zero_add _).symm
  | cons ch text ih =>
    rw [openAfter_cons] at h
    rw [List.cons_append, List.length_cons]
    split_ifs at h with hopen hclose hdepth
    · rw [hopen, groupLen_open, ih h]
      omega
    · obtain ⟨depth, rfl⟩ := Nat.exists_eq_succ_of_ne_zero hdepth
      rw [Nat.succ_sub_one] at h
      rw [hclose, groupLen_close, if_neg hdepth, ih h]
      omega
    · rw [groupLen_other hopen hclose, ih h]
      omega

/-- A text that closes more than it opens holds the end of the group. -/
theorem groupLen_le {text : List Char} {depth : ℕ} (h : openAfter depth text = none) (rest : List Char) :
    groupLen (depth + 1) (text ++ rest) ≤ text.length := by
  induction text generalizing depth with
  | nil => cases h
  | cons ch text ih =>
    rw [openAfter_cons] at h
    rw [List.cons_append, List.length_cons]
    split_ifs at h with hopen hclose hdepth
    · rw [hopen, groupLen_open]
      exact Nat.succ_le_succ (ih h)
    · rw [hclose, groupLen_close, if_pos hdepth]
      omega
    · obtain ⟨depth, rfl⟩ := Nat.exists_eq_succ_of_ne_zero hdepth
      rw [hclose, groupLen_close, if_neg hdepth]
      exact Nat.succ_le_succ (ih h)
    · rw [groupLen_other hopen hclose]
      exact Nat.succ_le_succ (ih h)

theorem groupLen_pos (depth : ℕ) {rest : List Char} (h : rest ≠ []) : 0 < groupLen depth rest := by
  obtain ⟨ch, rest, rfl⟩ := List.exists_cons_of_ne_nil h
  rw [groupLen]
  split_ifs <;> omega

/-- The counted group is the list exactly when the parentheses in its values match. -/
theorem groupLen_list_iff (items : List TypeItem) {rest : List Char} (hrest : rest ≠ []) :
    groupLen 0 ('(' :: [','].intercalate (items.map TypeItem.text) ++ ')' :: rest) =
        ([','].intercalate (items.map TypeItem.text)).length + 2 ↔
      openAfter 0 (items.flatMap TypeItem.content) = some 0 := by
  rw [← openAfter_items, List.cons_append, groupLen_open]
  generalize [','].intercalate (items.map TypeItem.text) = text
  cases hopen : openAfter 0 text with
  | none =>
    have := groupLen_le hopen (')' :: rest)
    constructor
    · intro h
      omega
    · intro h
      cases h
  | some depth =>
    have := groupLen_pos depth hrest
    rw [groupLen_append hopen, groupLen_close, Option.some.injEq]
    split_ifs with hdepth <;> omega

end Groups

section Words

/-- The walk ends with `kept` from here on, whatever fuel above the length it has. -/
def Gives (character : List (List Char)) (clauseWords : ℕ) (rest : List Char) (kept : KeptAttributes) : Prop :=
  ∀ fuel, rest.length < fuel → attributesFrom fuel character clauseWords rest = some kept

/-- What begins the text is read as one word. -/
structure IsWord (word rest : List Char) : Prop where
  nonempty : word ≠ []
  begins : ∀ ch ∈ word.head?, isWhitespace ch = false
  len : wordLen (word ++ rest) = word.length

theorem PlainWord.nonempty (word : PlainWord) : word.text ≠ [] := by
  intro h
  have hplain := word.plain
  rw [h] at hplain
  cases hplain

theorem PlainWord.not_space (word : PlainWord) : ∀ ch ∈ word.text, (!isWhitespace ch && ch != '(') = true := by
  have hplain := word.plain
  rw [isPlainWord, Bool.and_eq_true] at hplain
  exact List.all_eq_true.1 hplain.2

theorem PlainWord.begins (word : PlainWord) : ∀ ch ∈ word.text.head?, isWhitespace ch = false := by
  intro ch hch
  have h := word.not_space ch (List.mem_of_head? hch)
  rw [Bool.and_eq_true, Bool.not_eq_true'] at h
  exact h.1

theorem IsWord.of_plain (word : PlainWord) {rest : List Char} (h : ∀ ch ∈ rest.head?, isWhitespace ch ∨ ch = '(') :
    IsWord word.text rest := by
  refine ⟨word.nonempty, word.begins, ?_⟩
  have hrest : ∀ ch ∈ rest.head?, (!isWhitespace ch && ch != '(') = false := by
    intro ch hch
    rcases h ch hch with hspace | rfl
    · rw [hspace]
      rfl
    · exact Bool.and_false _
  have htake := takeWhile_ends word.not_space hrest
  have hplain := word.plain
  have hne := word.nonempty
  obtain ⟨first, text, htext⟩ := List.exists_cons_of_ne_nil hne
  have hopen := word.not_space first (by rw [htext]; exact List.mem_cons_self)
  rw [htext] at htake hplain ⊢
  rw [isPlainWord, Bool.and_eq_true, List.head?_cons, Option.any_some, isQuote] at hplain
  simp only [Bool.not_eq_true', Bool.or_eq_false_iff, beq_eq_false_iff_ne] at hplain
  rw [Bool.and_eq_true, bne_iff_ne] at hopen
  rw [List.cons_append, wordLen, if_neg (by tauto), if_neg hopen.2, ← List.cons_append, htake]

variable {character : List (List Char)} {clauseWords : ℕ} {word rest : List Char} {kept : KeptAttributes}

theorem Gives.space (h : Gives character clauseWords rest kept) : Gives character clauseWords (' ' :: rest) kept := by
  intro fuel hfuel
  obtain ⟨fuel, rfl⟩ : ∃ n, fuel = n + 1 := ⟨fuel - 1, by omega⟩
  rw [attributesFrom, List.dropWhile_cons_of_pos (by decide), ← attributesFrom]
  exact h (fuel + 1) (Nat.lt_of_succ_lt hfuel)

/-- One round of the walk. -/
theorem IsWord.gives (hword : IsWord word rest)
    (h : ∀ fuel, rest.length < fuel →
      (if 0 < clauseWords then attributesFrom fuel (character ++ [word]) (clauseWords - 1) rest
      else if eqIgnoreAsciiCase word "CHARACTER".toList then attributesFrom fuel (character ++ [word]) 2 rest
      else if eqIgnoreAsciiCase word "CHARSET".toList || eqIgnoreAsciiCase word "COLLATE".toList then
        attributesFrom fuel (character ++ [word]) 1 rest
      else if ATTRIBUTES.any (eqIgnoreAsciiCase word) then some ⟨[' '].intercalate character, word ++ rest⟩
      else attributesFrom fuel character 0 rest) = some kept) : Gives character clauseWords (word ++ rest) kept := by
  intro fuel hfuel
  have hpos := List.length_pos_of_ne_nil hword.nonempty
  rw [List.length_append] at hfuel
  obtain ⟨fuel, rfl⟩ : ∃ n, fuel = n + 1 := ⟨fuel - 1, by omega⟩
  rw [← h fuel (by omega)]
  obtain ⟨first, tail, rfl⟩ := List.exists_cons_of_ne_nil hword.nonempty
  have hfirst := hword.begins first rfl
  rw [attributesFrom, List.cons_append, List.dropWhile_cons_of_neg (by rw [hfirst]; exact Bool.false_ne_true),
    ← List.cons_append, if_neg (by simp), hword.len, List.take_left, List.drop_left]

theorem Gives.operand (hword : IsWord word rest) (h : Gives (character ++ [word]) clauseWords rest kept) :
    Gives character (clauseWords + 1) (word ++ rest) kept :=
  hword.gives fun fuel hfuel => by
    rw [if_pos (Nat.succ_pos _), Nat.add_sub_cancel]
    exact h fuel hfuel

theorem Gives.characterSet (hword : IsWord word rest) (hkeyword : eqIgnoreAsciiCase word "CHARACTER".toList = true)
    (h : Gives (character ++ [word]) 2 rest kept) : Gives character 0 (word ++ rest) kept :=
  hword.gives fun fuel hfuel => by
    rw [if_neg (Nat.lt_irrefl 0), if_pos hkeyword]
    exact h fuel hfuel

theorem Gives.collate (hword : IsWord word rest) (hcharacter : eqIgnoreAsciiCase word "CHARACTER".toList = false)
    (hkeyword : eqIgnoreAsciiCase word "COLLATE".toList = true) (h : Gives (character ++ [word]) 1 rest kept) :
    Gives character 0 (word ++ rest) kept :=
  hword.gives fun fuel hfuel => by
    rw [if_neg (Nat.lt_irrefl 0), hcharacter, hkeyword, Bool.or_true]
    exact h fuel hfuel

theorem Gives.skip (hword : IsWord word rest) (hkeyword : isKeyword word = false) (h : Gives character 0 rest kept) :
    Gives character 0 (word ++ rest) kept :=
  hword.gives fun fuel hfuel => by
    rw [isKeyword, Bool.or_eq_false_iff, Bool.or_assoc, Bool.or_eq_false_iff] at hkeyword
    obtain ⟨⟨hcharacter, hcollate⟩, hattributes⟩ := hkeyword
    rw [hcharacter, hcollate, hattributes]
    exact h fuel hfuel

/-- A word that begins the attributes begins no clause. -/
theorem not_clause_of_attribute (h : ATTRIBUTES.any (eqIgnoreAsciiCase word) = true) :
    eqIgnoreAsciiCase word "CHARACTER".toList = false ∧
      (eqIgnoreAsciiCase word "CHARSET".toList || eqIgnoreAsciiCase word "COLLATE".toList) = false := by
  obtain ⟨keyword, hkeyword, heq⟩ := List.any_eq_true.1 h
  rw [eqIgnoreAsciiCase, beq_iff_eq] at heq
  have hnone : ∀ keyword ∈ ATTRIBUTES, eqIgnoreAsciiCase keyword "CHARACTER".toList = false ∧
      (eqIgnoreAsciiCase keyword "CHARSET".toList || eqIgnoreAsciiCase keyword "COLLATE".toList) = false := by
    decide
  have h := hnone keyword hkeyword
  simp only [eqIgnoreAsciiCase] at h ⊢
  rwa [heq]

theorem gives_first (hword : IsWord word rest) (h : ATTRIBUTES.any (eqIgnoreAsciiCase word) = true) :
    Gives character 0 (word ++ rest) ⟨[' '].intercalate character, word ++ rest⟩ :=
  hword.gives fun _ _ => by
    obtain ⟨hcharacter, hclause⟩ := not_clause_of_attribute h
    rw [hcharacter, hclause, h]
    rfl

end Words

section Line

theorem PlainWord.before_space (word : PlainWord) (rest : List Char) : IsWord word.text (' ' :: rest) :=
  .of_plain word fun _ hch => .inl (by rw [← Option.some.inj hch]; rfl)

def characterWord : PlainWord := ⟨"CHARACTER".toList, by decide +kernel⟩

def setWord : PlainWord := ⟨"SET".toList, by decide +kernel⟩

def collateWord : PlainWord := ⟨"COLLATE".toList, by decide +kernel⟩

theorem gives_clause (clause : CharacterClause) {character : List (List Char)} {rest : List Char} {kept : KeptAttributes}
    (h : Gives (character ++ clause.words) 0 (' ' :: rest) kept) :
    Gives character 0 (clause.words.flatMap (fun word => ' ' :: word) ++ ' ' :: rest) kept := by
  cases clause with
  | characterSet name =>
    rw [CharacterClause.words] at h ⊢
    simp only [List.flatMap_cons, List.flatMap_nil, List.append_nil, List.cons_append, List.append_assoc]
    refine .space (.characterSet (characterWord.before_space _) (by decide) ?_)
    refine .space (.operand (setWord.before_space _) ?_)
    refine .space (.operand (name.before_space _) ?_)
    rw [List.append_assoc, List.append_assoc]
    exact h
  | collate name =>
    rw [CharacterClause.words] at h ⊢
    simp only [List.flatMap_cons, List.flatMap_nil, List.append_nil, List.cons_append, List.append_assoc]
    refine .space (.collate (collateWord.before_space _) (by decide) (by decide) ?_)
    refine .space (.operand (name.before_space _) ?_)
    rw [List.append_assoc]
    exact h

/-- The clauses are kept word by word, and the attributes end the walk. -/
theorem gives_clauses (line : ColumnLine) (clauses : List CharacterClause) (character : List (List Char)) :
    Gives character 0 ((clauses.flatMap CharacterClause.words).flatMap (fun word => ' ' :: word) ++ ' ' :: line.attributes)
      ⟨[' '].intercalate (character ++ clauses.flatMap CharacterClause.words), line.attributes⟩ := by
  induction clauses generalizing character with
  | nil =>
    rw [List.flatMap_nil, List.append_nil]
    refine .space (gives_first (.of_plain line.first fun ch hch => ?_) line.first_mem)
    have happart := (Option.all_eq_true _ _).1 line.more_apart ch hch
    rwa [Bool.or_eq_true, beq_iff_eq] at happart
  | cons clause clauses ih =>
    rw [List.flatMap_cons, List.flatMap_append, List.append_assoc, ← List.append_assoc character]
    obtain ⟨rest, hrest⟩ : ∃ rest, (clauses.flatMap CharacterClause.words).flatMap (fun word => ' ' :: word) ++
        ' ' :: line.attributes = ' ' :: rest := by
      cases clauses.flatMap CharacterClause.words with
      | nil => exact ⟨_, rfl⟩
      | cons word words => exact ⟨_, rfl⟩
    have hclauses := ih (character ++ clause.words)
    rw [hrest] at hclauses ⊢
    exact gives_clause clause hclauses

/-- The list is one word exactly when the parentheses in its values match. -/
theorem wordLen_list_iff (items : List TypeItem) {rest : List Char} (hrest : rest ≠ []) :
    wordLen ('(' :: [','].intercalate (items.map TypeItem.text) ++ [')'] ++ rest) =
        ('(' :: [','].intercalate (items.map TypeItem.text) ++ [')']).length ↔
      openAfter 0 (items.flatMap TypeItem.content) = some 0 := by
  have hparen : ¬('(' = '\'' ∨ '(' = '"' ∨ '(' = '`') := by decide
  rw [← groupLen_list_iff items hrest, List.append_assoc, List.cons_append, wordLen, if_neg hparen, if_pos rfl,
    List.singleton_append, List.length_append, List.length_cons, List.length_singleton]
  rfl

/-- What follows the column's name. -/
theorem gives_line (line : ColumnLine) (h : line.Balanced) :
    Gives [] 0 (line.typeName.text ++ (line.list ++
      ((line.clauses.flatMap CharacterClause.words).flatMap (fun word => ' ' :: word) ++ ' ' :: line.attributes)))
      line.declared := by
  have hclauses := gives_clauses line line.clauses []
  obtain ⟨rest, hrest⟩ : ∃ rest, (line.clauses.flatMap CharacterClause.words).flatMap (fun word => ' ' :: word) ++
      ' ' :: line.attributes = ' ' :: rest := by
    cases line.clauses.flatMap CharacterClause.words with
    | nil => exact ⟨_, rfl⟩
    | cons word words => exact ⟨_, rfl⟩
  rw [hrest] at hclauses ⊢
  rw [ColumnLine.Balanced] at h
  rw [ColumnLine.list]
  cases hitems : line.items with
  | none => exact .skip (line.typeName.before_space _) line.typeName_plain hclauses
  | some items =>
    rw [hitems] at h
    have hgroup : IsWord ('(' :: [','].intercalate (items.map TypeItem.text) ++ [')']) (' ' :: rest) :=
      ⟨List.cons_ne_nil _ _, fun ch hch => by rw [← Option.some.inj hch]; rfl,
        (wordLen_list_iff items (List.cons_ne_nil _ _)).2 h⟩
    refine .skip (.of_plain line.typeName fun ch hch => .inr (Option.some.inj hch).symm) line.typeName_plain ?_
    exact .skip hgroup rfl hclauses

theorem stripHead_append (head rest : List Char) : stripHead head (head ++ rest) = some rest := by
  rw [stripHead, List.take_left, List.drop_left, eqIgnoreAsciiCase, beq_self_eq_true, if_pos rfl]

/-- What follows the name on the line. -/
def ColumnLine.rest (line : ColumnLine) : List Char :=
  line.typeName.text ++ (line.list ++
    ((line.clauses.flatMap CharacterClause.words).flatMap (fun word => ' ' :: word) ++ ' ' :: line.attributes))

theorem ColumnLine.text_eq (line : ColumnLine) : line.text = quoteIdent .mySql line.name ++ ' ' :: line.rest := by
  rw [ColumnLine.text, ColumnLine.rest]
  simp only [List.append_assoc, List.cons_append]

theorem ColumnLine.rest_ends (line : ColumnLine) : ∀ ch ∈ line.rest.getLast?, isWhitespace ch = false ∧ ch ≠ ',' := by
  have hattributes : line.attributes ≠ [] := by
    rw [ColumnLine.attributes]
    exact List.append_ne_nil_of_left_ne_nil line.first.nonempty _
  have hlast : line.rest.getLast? = line.attributes.getLast? := by
    have hsplit : ∃ front, line.rest = front ++ line.attributes := by
      refine ⟨line.typeName.text ++ (line.list ++
        ((line.clauses.flatMap CharacterClause.words).flatMap (fun word => ' ' :: word) ++ [' '])), ?_⟩
      simp [ColumnLine.rest]
    obtain ⟨front, hfront⟩ := hsplit
    rw [hfront, List.getLast?_append_of_ne_nil _ hattributes]
  intro ch hch
  rw [hlast] at hch
  have hends := (Option.all_eq_true _ _).1 line.ends ch hch
  rwa [Bool.and_eq_true, Bool.not_eq_true', bne_iff_ne] at hends

variable (line : ColumnLine) (comma : Bool)

/-- The line is trimmed to its text, with its comma. -/
theorem trim_line : trim (line.text ++ if comma then [','] else []) = line.text ++ if comma then [','] else [] := by
  refine trim_of_ends (fun ch hch => ?_) fun ch hch => ?_
  · rw [line.text_eq] at hch
    rw [← Option.some.inj hch]
    rfl
  · cases comma with
    | false =>
      rw [line.text_eq, if_neg Bool.false_ne_true, List.append_nil, ← List.singleton_append, ← List.append_assoc,
        List.getLast?_append_of_ne_nil] at hch
      · exact (line.rest_ends ch hch).1
      · exact List.append_ne_nil_of_left_ne_nil line.typeName.nonempty _
    | true =>
      rw [if_pos rfl, List.getLast?_concat] at hch
      rw [← Option.some.inj hch]
      rfl

theorem trim_rest : trim (' ' :: line.rest ++ if comma then [','] else []) = line.rest ++ if comma then [','] else [] := by
  rw [List.cons_append, ← List.singleton_append, trim_indent (by simp [isWhitespace])]
  refine trim_of_ends (fun ch hch => ?_) fun ch hch => ?_
  · rw [ColumnLine.rest, List.append_assoc, List.head?_append_of_ne_nil _ line.typeName.nonempty] at hch
    exact line.typeName.begins ch hch
  · cases comma with
    | false =>
      rw [if_neg Bool.false_ne_true, List.append_nil] at hch
      exact (line.rest_ends ch hch).1
    | true =>
      rw [if_pos rfl, List.getLast?_concat] at hch
      rw [← Option.some.inj hch]
      rfl

theorem rdrop_comma : (line.rest ++ if comma then [','] else []).rdropWhile (· == ',') = line.rest := by
  have hrest : line.rest.rdropWhile (· == ',') = line.rest := by
    rw [List.rdropWhile_eq_self_iff]
    intro hne hcomma
    exact (line.rest_ends _ (List.getLast?_eq_getLast_of_ne_nil hne)).2 (beq_iff_eq.1 hcomma)
  cases comma with
  | false => rw [if_neg Bool.false_ne_true, List.append_nil, hrest]
  | true => rw [if_pos rfl, List.rdropWhile_concat_pos (· == ',') _ _ (beq_self_eq_true ','), hrest]

end Line

/-- Whether a line is read as the column's. -/
def declares (name line : List Char) : Bool :=
  ((stripHead (quoteIdent .mySql name) (trim line)).filter fun rest => rest.head? == some ' ').isSome

/-- The list of the type is stepped over as one word exactly when the parentheses in its values
match, and then the clauses and the attributes of the column's line are kept exactly. -/
theorem mysqlColumnAttributes_line (createTable indent : List Char) (line : ColumnLine) (comma : Bool)
    (before after : List (List Char)) (hindent : ∀ ch ∈ indent, isWhitespace ch = true)
    (hlines : lines createTable = before ++ (indent ++ line.text ++ if comma then [','] else []) :: after)
    (hbefore : ∀ other ∈ before, declares line.name other = false) :
    (line.items.isSome = true → ∀ rest, wordLen (line.list ++ ' ' :: rest) = line.list.length ↔ line.Balanced) ∧
      (line.Balanced → mysqlColumnAttributes createTable line.name = some line.declared) := by
  refine ⟨fun hitems rest => ?_, fun h => ?_⟩
  · obtain ⟨items, hitems⟩ := Option.isSome_iff_exists.1 hitems
    rw [ColumnLine.list, ColumnLine.Balanced, hitems]
    exact wordLen_list_iff items (List.cons_ne_nil _ _)
  have hfound : stripHead (quoteIdent .mySql line.name) (line.text ++ if comma then [','] else []) =
      some (' ' :: line.rest ++ if comma then [','] else []) := by
    rw [line.text_eq, List.append_assoc, stripHead_append]
  have hother : (before.map trim).findSome? (fun other =>
      (stripHead (quoteIdent .mySql line.name) other).filter fun rest => rest.head? == some ' ') = none := by
    rw [List.findSome?_eq_none_iff]
    intro other hmem
    obtain ⟨untrimmed, huntrimmed, rfl⟩ := List.mem_map.1 hmem
    exact Option.not_isSome_iff_eq_none.1 (by rw [Bool.not_eq_true]; exact hbefore untrimmed huntrimmed)
  rw [mysqlColumnAttributes, hlines, List.map_append, List.findSome?_append, hother, Option.none_or, List.map_cons,
    List.append_assoc, trim_indent hindent, trim_line, List.findSome?_cons, hfound]
  show attributesFrom (((trim (' ' :: line.rest ++ if comma then [','] else [])).rdropWhile (· == ',')).length + 1) [] 0
    ((trim (' ' :: line.rest ++ if comma then [','] else [])).rdropWhile (· == ',')) = some line.declared
  rw [trim_rest, rdrop_comma]
  exact gives_line line h _ (Nat.lt_succ_self _)

/-- A column of one of these values, required. -/
def requiredEnum (values : List (List Char)) : ColumnLine where
  name := ['c']
  typeName := ⟨"enum".toList, by decide +kernel⟩
  typeName_plain := by decide
  items := some (values.map .value)
  clauses := [.collate ⟨"latin1_bin".toList, by decide +kernel⟩]
  first := ⟨"NOT".toList, by decide +kernel⟩
  first_mem := by decide
  more := " NULL".toList
  more_apart := by decide
  ends := by decide

/-- Values with quotes, a pair of parentheses and words of the attributes. -/
theorem mysqlColumnAttributes_line_enum :
    lines "CREATE TABLE `t` (\n  `c` enum('it''s','a (NOT) b') COLLATE latin1_bin NOT NULL\n)".toList =
        ["CREATE TABLE `t` (".toList] ++
          ("  ".toList ++ (requiredEnum ["it's".toList, "a (NOT) b".toList]).text ++ if false then [','] else []) :: [[')']] ∧
      declares ['c'] "CREATE TABLE `t` (".toList = false ∧
      mysqlColumnAttributes "CREATE TABLE `t` (\n  `c` enum('it''s','a (NOT) b') COLLATE latin1_bin NOT NULL\n)".toList ['c'] =
        some ⟨"COLLATE latin1_bin".toList, "NOT NULL".toList⟩ := by
  have hlines : lines "CREATE TABLE `t` (\n  `c` enum('it''s','a (NOT) b') COLLATE latin1_bin NOT NULL\n)".toList =
      ["CREATE TABLE `t` (".toList] ++
        ("  ".toList ++ (requiredEnum ["it's".toList, "a (NOT) b".toList]).text ++ if false then [','] else []) :: [[')']] := by
    -- a text as its characters: the kernel would decode it from bytes at every use
    repeat rw [String.toList_ofList]
    decide +kernel
  have hbefore : declares ['c'] "CREATE TABLE `t` (".toList = false := by decide +kernel
  refine ⟨hlines, hbefore, ?_⟩
  have h := (mysqlColumnAttributes_line _ _ (requiredEnum ["it's".toList, "a (NOT) b".toList]) false
    ["CREATE TABLE `t` (".toList] [[')']] (List.all_eq_true.1 (by decide)) hlines (by
      intro other hother
      rw [List.mem_singleton.1 hother]
      exact hbefore)).2 (by decide +kernel)
  rw [show (requiredEnum ["it's".toList, "a (NOT) b".toList]).name = ['c'] from rfl] at h
  rw [h]
  repeat rw [String.toList_ofList]
  decide +kernel

/-- The rest of a value whose parenthesis ends the group early is taken for the attributes. -/
theorem mysqlColumnAttributes_in_value :
    (requiredEnum ["a) NOT b".toList]).text = "`c` enum('a) NOT b') COLLATE latin1_bin NOT NULL".toList ∧
      mysqlColumnAttributes ("CREATE TABLE `t` (\n  ".toList ++ (requiredEnum ["a) NOT b".toList]).text ++ "\n)".toList) ['c'] =
        some ⟨[], "NOT b') COLLATE latin1_bin NOT NULL".toList⟩ ∧
      (requiredEnum ["a) NOT b".toList]).declared = ⟨"COLLATE latin1_bin".toList, "NOT NULL".toList⟩ := by
  repeat rw [String.toList_ofList]
  decide +kernel

/-- A group that ends early may leave words that mean nothing, and the result be right. -/
example : ¬(requiredEnum ["a)".toList, ['b']]).Balanced ∧
    mysqlColumnAttributes (requiredEnum ["a)".toList, ['b']]).text ['c'] = some (requiredEnum ["a)".toList, ['b']]).declared := by
  decide +kernel

end TideOrm
