import TideOrm.Sanity.TableTags
import TideOrm.Proofs.SqlSafety

/-! The collector restores its stack of `FROM` lists after every parenthesis, so a comma is
the comma of a list exactly where the text's tree has one. -/

namespace TideOrm

section Keywords

variable {u : CharTables} {head : Ident} {tail : List Dotted}

theorem Ident.lexeme_text_ne_nil (h : WordStart u head.lexeme) : head.lexeme.2 ≠ [] := by
  cases head with
  | bare text =>
    obtain ⟨first, body, htext, -⟩ := h rfl
    simp only [lexeme] at htext ⊢
    rw [htext]
    exact List.cons_ne_nil _ _
  | quoted quote name => exact List.cons_ne_nil _ _

theorem dottedText_nil (head : Kind × List Char) : dottedText head [] = head.2 := by
  simp [dottedText, textOf]

theorem dot_mem_dottedText (head : Kind × List Char) (h : tail ≠ []) : '.' ∈ dottedText head tail := by
  obtain ⟨d, tail, rfl⟩ := List.exists_cons_of_ne_nil h
  simp [dottedText, textOf, Dotted.lexemes]

/-- A name is a keyword when it is one bare word. -/
theorem anyKeyword_name {words : List (List Char)} (hwords : letters words = true) :
    anyKeyword words (dottedText head.lexeme tail) = (tail.isEmpty && head.isWord words) := by
  cases tail with
  | nil =>
    rw [dottedText_nil]
    cases head with
    | bare text => rfl
    | quoted quote name =>
      refine anyKeyword_of_mem hwords List.mem_cons_self ?_
      cases quote <;> decide
  | cons d tail => exact anyKeyword_of_mem hwords (dot_mem_dottedText _ (List.cons_ne_nil _ _)) (by decide)

theorem dottedText_ne (h : WordStart u head.lexeme) {ch : Char} (hch : isAscii ch = true) (halpha : ch.isAlpha = false)
    (hunder : ch ≠ '_') : dottedText head.lexeme tail ≠ [ch] := by
  cases tail with
  | nil =>
    rw [dottedText_nil]
    exact Ident.lexeme_text_ne h hch halpha hunder
  | cons d tail =>
    intro heq
    have hlen := congrArg List.length heq
    have hhead := List.length_pos_of_ne_nil (Ident.lexeme_text_ne_nil h)
    simp only [dottedText, textOf_cons, List.flatMap_cons, textOf_append, Dotted.lexemes, List.length_append,
      List.length_cons, List.length_nil] at hlen
    omega

end Keywords

/-- The lists being read lie at most as deep as the collector is. -/
def Collector.Bounded (s : Collector) : Prop := ∀ list ∈ s.lists, list ≤ s.depth

/-- What reading a balanced text leaves as it was. -/
structure Collector.Frame (s s' : Collector) : Prop where
  depth : s'.depth = s.depth
  outer : s'.lists.filter (fun list => decide (list < s.depth)) = s.lists.filter fun list => decide (list < s.depth)
  bounded : s.Bounded → s'.Bounded
  grows : s.tables ⊆ s'.tables

section Steps

variable {u : CharTables} {s : Collector} {word : List Char}

theorem Collector.Frame.refl (s : Collector) : s.Frame s := ⟨rfl, rfl, id, List.Subset.refl _⟩

theorem Collector.Frame.trans {s s' s'' : Collector} (h : s.Frame s') (h' : s'.Frame s'') : s.Frame s'' := by
  refine ⟨h'.depth.trans h.depth, ?_, fun hb => h'.bounded (h.bounded hb), List.Subset.trans h.grows h'.grows⟩
  have houter := h'.outer
  rw [h.depth] at houter
  exact houter.trans h.outer

theorem pushTableTag_subset (tables : List (List Char)) (table : List Char) : tables ⊆ pushTableTag u tables table := by
  unfold pushTableTag
  split
  · exact List.Subset.refl _
  · split_ifs
    · exact List.Subset.refl _
    · exact List.subset_append_left _ _

theorem mem_pushTableTag {table name : List Char} (h : normalizeTableName u table = some name)
    (tables : List (List Char)) : name ∈ pushTableTag u tables table := by
  simp only [pushTableTag, h]
  split_ifs with hmem
  · exact hmem
  · exact List.mem_append_right _ List.mem_cons_self

/-- The words that are no mark of the text's structure. -/
def NoMark (word : List Char) : Prop := word ≠ ['('] ∧ word ≠ [')'] ∧ word ≠ [',']

theorem read_from (hmark : NoMark word) (h : anyKeyword ["from".toList] word = true) :
    s.read u word = { s with lists := s.lists ++ [s.depth], expectTable := true } := by
  have hfrom : eqIgnoreAsciiCase word "from".toList = true := by simpa [anyKeyword] using h
  rw [Collector.read, if_neg hmark.1, if_neg hmark.2.1, if_neg hmark.2.2, if_pos hfrom]

theorem read_join (hmark : NoMark word) (h : anyKeyword ["join".toList] word = true) :
    s.read u word = { s with expectTable := true } := by
  have hfrom : anyKeyword ["from".toList] word = false := anyKeyword_disjoint (by decide) h
  have hfrom' : eqIgnoreAsciiCase word "from".toList = false := by simpa [anyKeyword] using hfrom
  have hjoin : eqIgnoreAsciiCase word "join".toList = true := by simpa [anyKeyword] using h
  rw [Collector.read, if_neg hmark.1, if_neg hmark.2.1, if_neg hmark.2.2, if_neg (Bool.eq_false_iff.1 hfrom'), if_pos hjoin]

/-- The lists after a word that is neither `FROM` nor `JOIN`. -/
def Collector.afterWord (s : Collector) (word : List Char) : List ℕ :=
  if s.lists.getLast? = some s.depth ∧ anyKeyword LIST_END word then s.lists.dropLast else s.lists

theorem read_other (hmark : NoMark word) (hfrom : anyKeyword ["from".toList] word = false)
    (hjoin : anyKeyword ["join".toList] word = false) :
    s.read u word = { s with
      lists := s.afterWord word
      expectTable := s.expectTable && anyKeyword BEFORE_A_TABLE word
      tables := if s.expectTable && !anyKeyword BEFORE_A_TABLE word && !anyKeyword NOT_A_TABLE word then
        pushTableTag u s.tables word else s.tables } := by
  have hfrom' : eqIgnoreAsciiCase word "from".toList = false := by simpa [anyKeyword] using hfrom
  have hjoin' : eqIgnoreAsciiCase word "join".toList = false := by simpa [anyKeyword] using hjoin
  rw [Collector.read, if_neg hmark.1, if_neg hmark.2.1, if_neg hmark.2.2, if_neg (Bool.eq_false_iff.1 hfrom'),
    if_neg (Bool.eq_false_iff.1 hjoin')]
  cases s.expectTable with
  | false => simp [Collector.afterWord]
  | true =>
    cases anyKeyword BEFORE_A_TABLE word with
    | true => simp [Collector.afterWord]
    | false => cases anyKeyword NOT_A_TABLE word <;> simp [Collector.afterWord]

theorem read_comma : s.read u [','] = { s with expectTable := s.lists.getLast? == some s.depth } := by
  simp [Collector.read]

theorem frame_comma : s.Frame (s.read u [',']) := by
  rw [read_comma]
  exact ⟨rfl, rfl, id, List.Subset.refl _⟩

theorem afterWord_outer : (s.afterWord word).filter (fun list => decide (list < s.depth)) =
    s.lists.filter fun list => decide (list < s.depth) := by
  unfold Collector.afterWord
  split_ifs with h
  · obtain ⟨hlast, -⟩ := h
    obtain ⟨init, hinit⟩ := List.getLast?_eq_some_iff.1 hlast
    rw [hinit, List.dropLast_concat]
    simp
  · rfl

theorem afterWord_subset : s.afterWord word ⊆ s.lists := by
  unfold Collector.afterWord
  split_ifs
  · exact List.dropLast_subset _
  · exact List.Subset.refl _

/-- A word changes no list of an outer level. -/
theorem frame_word (hmark : NoMark word) : s.Frame (s.read u word) := by
  by_cases hfrom : anyKeyword ["from".toList] word = true
  · rw [read_from hmark hfrom]
    refine ⟨rfl, by simp, fun hb list hlist => ?_, List.Subset.refl _⟩
    rcases List.mem_append.1 hlist with hlist | hlist
    · exact hb list hlist
    · exact (List.mem_singleton.1 hlist).le
  by_cases hjoin : anyKeyword ["join".toList] word = true
  · rw [read_join hmark hjoin]
    exact ⟨rfl, rfl, id, List.Subset.refl _⟩
  rw [read_other hmark (by simpa using hfrom) (by simpa using hjoin)]
  refine ⟨rfl, afterWord_outer, fun hb list hlist => hb list (afterWord_subset hlist), ?_⟩
  dsimp only
  split_ifs
  · exact pushTableTag_subset _ _
  · exact List.Subset.refl _

theorem read_open : s.read u ['('] =
    { s with depth := s.depth + 1, lists := if s.expectTable then s.lists ++ [s.depth + 1] else s.lists } := by
  simp [Collector.read]

theorem read_close : s.read u [')'] =
    { s with depth := s.depth - 1, lists := s.lists.filter fun list => list ≤ s.depth - 1 } := by
  simp [Collector.read]

theorem bounded_open (h : s.Bounded) : (s.read u ['(']).Bounded := by
  rw [read_open]
  intro list hlist
  dsimp only at hlist ⊢
  split_ifs at hlist
  · rcases List.mem_append.1 hlist with hlist | hlist
    · exact (h list hlist).trans (Nat.le_succ _)
    · exact (List.mem_singleton.1 hlist).le
  · exact (h list hlist).trans (Nat.le_succ _)

/-- A parenthesis that is closed again leaves the stack as it was. -/
theorem close_group {s' : Collector} (hb : s.Bounded) (h : (s.read u ['(']).Frame s') :
    (s'.read u [')']).depth = s.depth ∧ (s'.read u [')']).lists = s.lists ∧ (s'.read u [')']).tables = s'.tables := by
  have hdepth : s'.depth = s.depth + 1 := by rw [h.depth, read_open]
  have hbelow : ∀ lists : List ℕ, (lists.filter fun list => decide (list ≤ s.depth)) =
      lists.filter fun list => decide (list < s.depth + 1) := by
    intro lists
    simp only [Nat.lt_succ_iff]
  have hkeep : (s.lists.filter fun list => decide (list < s.depth + 1)) = s.lists :=
    List.filter_eq_self.2 fun list hlist => decide_eq_true (Nat.lt_succ_of_le (hb list hlist))
  have houter := h.outer
  rw [read_open] at houter
  rw [read_close, hdepth, Nat.add_sub_cancel]
  refine ⟨rfl, ?_, rfl⟩
  dsimp only at houter ⊢
  rw [hbelow, houter]
  split_ifs
  · rw [List.filter_append, hkeep]
    simp
  · exact hkeep

theorem frame_group {s' : Collector} (hb : s.Bounded) (h : (s.read u ['(']).Frame s') : s.Frame (s'.read u [')']) := by
  obtain ⟨hdepth, hlists, htables⟩ := close_group hb h
  refine ⟨hdepth, by rw [hlists], fun hb list hlist => ?_, ?_⟩
  · rw [hlists] at hlist
    rw [hdepth]
    exact hb list hlist
  · rw [htables]
    have hgrows := h.grows
    rwa [read_open] at hgrows

end Steps

/-- Every name in the text is spelled so that the collector can read it. -/
def SqlTree.Legible (u : CharTables) : SqlTree → Prop
  | done => True
  | gap _ rest => rest.Legible u
  | name _ head tail rest =>
    WordStart u head.lexeme ∧
      (∀ seen name, tableName seen head tail = some name →
        normalizeTableName u (dottedText head.lexeme tail) = some name) ∧ rest.Legible u
  | mark _ _ rest => rest.Legible u
  | parameter _ rest => rest.Legible u
  | literal _ rest => rest.Legible u
  | comma rest => rest.Legible u
  | parens inner rest => inner.Legible u ∧ rest.Legible u
  | array _ _ rest => rest.Legible u

section Runs

variable {u : CharTables}

theorem SqlTree.legible (t : SqlTree) : ∀ {tail : List (Kind × List Char)} {before text : List Char},
    readFrom (lexToken u false) 0 before text = t.codeLexemes ++ tail → t.Legible u := by
  induction t with
  | done =>
    intro tail before text _
    exact True.intro
  | gap space rest ih | mark ch plain rest ih | parameter digits rest ih | literal content rest ih | comma rest ih =>
    intro tail before text h
    obtain ⟨after, -, -, hrest⟩ := readFrom_eq_cons lexToken_positive h
    exact ih hrest
  | name use head dots rest ih =>
    intro tail before text h
    have hsplit : readFrom (lexToken u false) 0 before text =
        (head.lexeme :: dots.flatMap Dotted.lexemes) ++ (rest.codeLexemes ++ tail) := by
      rw [h, codeLexemes]
      simp
    obtain ⟨after, rfl, hrest⟩ := readFrom_eq_append lexToken_positive hsplit
    refine ⟨wordStart_of_read hsplit _ List.mem_cons_self, fun seen name hname => ?_, ih hrest⟩
    exact normalize_name hname hsplit
  | parens inner rest ihInner ihRest =>
    intro tail before text h
    have hopen : readFrom (lexToken u false) 0 before text =
        (.symbol, ['(']) :: (inner.codeLexemes ++ (.symbol, [')']) :: (rest.codeLexemes ++ tail)) := by
      rw [h, codeLexemes]
      simp
    obtain ⟨middle, -, -, hinner⟩ := readFrom_eq_cons lexToken_positive hopen
    obtain ⟨after, -, hclose⟩ := readFrom_eq_append lexToken_positive hinner
    obtain ⟨last, -, -, hrest⟩ := readFrom_eq_cons lexToken_positive hclose
    exact ⟨ihInner hinner, ihRest hrest⟩
  | array inner dots rest _ ihRest =>
    intro tail before text h
    have hsplit : readFrom (lexToken u false) 0 before text =
        ((.identifier, '[' :: (textOf inner.lexemes ++ [']'])) :: dots.flatMap Dotted.lexemes) ++
          (rest.codeLexemes ++ tail) := by
      rw [h, codeLexemes]
      simp
    obtain ⟨after, -, hrest⟩ := readFrom_eq_append lexToken_positive hsplit
    exact ihRest hrest

theorem noMark_name {head : Ident} {tail : List Dotted} (h : WordStart u head.lexeme) :
    NoMark (dottedText head.lexeme tail) :=
  ⟨dottedText_ne h (by decide) (by decide) (by decide), dottedText_ne h (by decide) (by decide) (by decide),
    dottedText_ne h (by decide) (by decide) (by decide)⟩

theorem noMark_mark {ch : Char} (h : plainMark ch = true) : NoMark [ch] := by
  refine ⟨?_, ?_, ?_⟩ <;> intro heq <;> rw [List.singleton_inj] at heq <;> exact absurd heq (plainMark_ne h (by decide))

theorem noMark_long {first : Char} {rest : List Char} (h : first ≠ '(' ∧ first ≠ ')' ∧ first ≠ ',') :
    NoMark (first :: rest) := by
  refine ⟨?_, ?_, ?_⟩ <;> intro heq
  · exact h.1 (List.cons.inj heq).1
  · exact h.2.1 (List.cons.inj heq).1
  · exact h.2.2 (List.cons.inj heq).1

/-- A word that names nothing keeps the list being read. -/
theorem read_inert {s : Collector} {word : List Char} (hmark : NoMark word) (hfrom : anyKeyword ["from".toList] word = false)
    (hjoin : anyKeyword ["join".toList] word = false) (hend : anyKeyword LIST_END word = false) :
    (s.read u word).lists = s.lists := by
  rw [read_other hmark hfrom hjoin]
  simp [Collector.afterWord, hend]

theorem noMark_array {body : List Char} {tail : List Dotted} : NoMark (dottedText (.identifier, '[' :: body) tail) :=
  noMark_long (by decide)

/-- Reading a tree leaves the outer levels as they were. -/
theorem frame_run (t : SqlTree) : ∀ {s : Collector}, t.Legible u → s.Bounded →
    s.Frame (t.words.foldl (Collector.read u) s) := by
  induction t with
  | done =>
    intro s _ _
    exact Collector.Frame.refl s
  | gap space rest ih | literal content rest ih =>
    intro s hlegible hb
    exact ih hlegible hb
  | name use head tail rest ih =>
    intro s hlegible hb
    have hword : s.Frame (s.read u (dottedText head.lexeme tail)) := frame_word (noMark_name hlegible.1)
    exact hword.trans (ih hlegible.2.2 (hword.bounded hb))
  | mark ch plain rest ih =>
    intro s hlegible hb
    have hword : s.Frame (s.read u [ch]) := frame_word (noMark_mark plain)
    exact hword.trans (ih hlegible (hword.bounded hb))
  | parameter digits rest ih =>
    intro s hlegible hb
    have hword : s.Frame (s.read u ('$' :: digits)) := frame_word (noMark_long (by decide))
    exact hword.trans (ih hlegible (hword.bounded hb))
  | comma rest ih =>
    intro s hlegible hb
    exact frame_comma.trans (ih hlegible (frame_comma.bounded hb))
  | parens inner rest ihInner ihRest =>
    intro s hlegible hb
    rw [SqlTree.words, List.foldl_cons, List.foldl_append, List.foldl_cons]
    have hinner : (s.read u ['(']).Frame (inner.words.foldl (Collector.read u) (s.read u ['('])) :=
      ihInner hlegible.1 (bounded_open hb)
    have hgroup := frame_group hb hinner
    exact hgroup.trans (ihRest hlegible.2 (hgroup.bounded hb))
  | array inner tail rest _ ihRest =>
    intro s hlegible hb
    have hword : s.Frame (s.read u (dottedText (.identifier, '[' :: (textOf inner.lexemes ++ [']'])) tail)) :=
      frame_word noMark_array
    exact hword.trans (ihRest hlegible (hword.bounded hb))

/-- What the flags of `listed` say of the collector. -/
structure Collector.Reads (s : Collector) (first list : Bool) : Prop where
  bounded : s.Bounded
  first : first = true → s.expectTable = true
  list : list = true → s.lists.getLast? = some s.depth

/-- A list goes on after a word that the collector does not take for its end. -/
theorem reads_word {s : Collector} {word : List Char} {first list list' : Bool} (h : s.Reads first list) (hmark : NoMark word)
    (hend : list' = true → list = true ∧ anyKeyword LIST_END word = false) : (s.read u word).Reads false list' := by
  have hframe := frame_word (u := u) (s := s) hmark
  refine ⟨hframe.bounded h.bounded, fun hfirst => absurd hfirst Bool.false_ne_true, fun hlist => ?_⟩
  obtain ⟨hlist, hend⟩ := hend hlist
  rw [hframe.depth]
  by_cases hfrom : anyKeyword ["from".toList] word = true
  · rw [read_from hmark hfrom]
    exact List.getLast?_concat
  by_cases hjoin : anyKeyword ["join".toList] word = true
  · rw [read_join hmark hjoin]
    exact h.list hlist
  · rw [read_inert hmark (by simpa using hfrom) (by simpa using hjoin) hend]
    exact h.list hlist

/-- `ONLY` and `LATERAL` stand before a table. -/
theorem reads_before {s : Collector} {word : List Char} {first list : Bool} (h : s.Reads first list) (hmark : NoMark word)
    (hbefore : anyKeyword BEFORE_A_TABLE word = true) : (s.read u word).Reads first list := by
  have hend : anyKeyword LIST_END word = false := anyKeyword_disjoint (by decide) hbefore
  have hfrom : anyKeyword ["from".toList] word = false := anyKeyword_disjoint (by decide) hbefore
  have hjoin : anyKeyword ["join".toList] word = false := anyKeyword_disjoint (by decide) hbefore
  have hword := reads_word (u := u) h hmark fun hlist => ⟨hlist, hend⟩
  refine ⟨hword.bounded, fun hfirst => ?_, hword.list⟩
  rw [read_other hmark hfrom hjoin, hbefore, h.first hfirst]
  rfl

/-- No table that the collector gets to see is named by a word it passes over. -/
theorem name_not_reserved {head : Ident} {tail : List Dotted} {name : List Char} {words : List (List Char)}
    (hname : tableName true head tail = some name)
    (hsub : (words.all fun other => anyKeyword (["select".toList, "from".toList, "join".toList] ++
      (NOT_A_TABLE ++ BEFORE_A_TABLE)) other) = true) : (tail.isEmpty && head.isWord words) = false := by
  cases tail with
  | cons d tail => rfl
  | nil =>
    cases head with
    | quoted quote text => rfl
    | bare text =>
      simp only [tableName, List.getLast?_nil, Bool.true_and, Option.ite_none_left_eq_some, Bool.or_eq_true,
        Bool.not_eq_true, not_or] at hname
      have hnone : anyKeyword (["select".toList, "from".toList, "join".toList] ++ (NOT_A_TABLE ++ BEFORE_A_TABLE))
          text = false := by
        rw [anyKeyword, List.any_append, Bool.or_eq_false_iff]
        exact hname.1
      exact anyKeyword_subset hsub hnone

/-- A table is recorded where one is expected. -/
theorem read_table {s : Collector} {head : Ident} {tail : List Dotted} {name : List Char} (hexpect : s.expectTable = true)
    (hstart : WordStart u head.lexeme) (hname : tableName true head tail = some name)
    (hnormal : normalizeTableName u (dottedText head.lexeme tail) = some name) :
    name ∈ (s.read u (dottedText head.lexeme tail)).tables := by
  have hreserved : ∀ {words : List (List Char)}, letters words = true →
      (words.all fun other => anyKeyword (["select".toList, "from".toList, "join".toList] ++
        (NOT_A_TABLE ++ BEFORE_A_TABLE)) other) = true →
      anyKeyword words (dottedText head.lexeme tail) = false := by
    intro words hletters hsub
    rw [anyKeyword_name hletters]
    exact name_not_reserved hname hsub
  rw [read_other (noMark_name hstart) (hreserved (by decide) (by decide)) (hreserved (by decide) (by decide)), hexpect,
    hreserved (show letters NOT_A_TABLE = true by decide) (by decide),
    hreserved (show letters BEFORE_A_TABLE = true by decide) (by decide)]
  exact mem_pushTableTag hnormal _

/-- The tables of the list being read are recorded. -/
theorem run_listed (t : SqlTree) : ∀ {s : Collector} {first list : Bool}, t.Legible u → s.Reads first list →
    ∀ name ∈ t.listed true first list, name ∈ (t.words.foldl (Collector.read u) s).tables := by
  induction t with
  | done =>
    intro s first list _ _ name hname
    cases hname
  | gap space rest ih =>
    intro s first list hlegible hs
    exact ih hlegible hs
  | literal content rest ih =>
    intro s first list hlegible hs
    exact ih hlegible ⟨hs.bounded, fun h => absurd h Bool.false_ne_true, hs.list⟩
  | name use head tail rest ih =>
    intro s first list hlegible hs name hname
    obtain ⟨hstart, hnormal, hrest⟩ := hlegible
    have hmark : NoMark (dottedText head.lexeme tail) := noMark_name hstart
    rw [SqlTree.listed] at hname
    dsimp only at hname
    split_ifs at hname with hclause hbefore hfirst
    · cases hname
    · have hkeyword : anyKeyword BEFORE_A_TABLE (dottedText head.lexeme tail) = true := by
        rw [Bool.and_eq_true, Bool.and_eq_true, and_assoc] at hbefore
        rw [anyKeyword_name (by decide), Bool.and_eq_true]
        exact hbefore.2
      exact ih hrest (reads_before hs hmark hkeyword) name hname
    all_goals
      have hword : (s.read u (dottedText head.lexeme tail)).Reads false
          (list && !(true && tail.isEmpty && head.isWord LIST_END)) := by
        refine reads_word hs hmark fun hlist => ?_
        rw [Bool.and_eq_true, Bool.not_eq_true', Bool.true_and] at hlist
        rw [anyKeyword_name (by decide)]
        exact hlist
    · rcases List.mem_append.1 hname with hname | hname
      · rw [Option.mem_toList] at hname
        rw [Bool.and_eq_true] at hfirst
        have hrecorded := read_table (hs.first hfirst.1) hstart hname (hnormal true name hname)
        exact (frame_run rest hrest hword.bounded).grows hrecorded
      · exact ih hrest hword name hname
    · rw [List.nil_append] at hname
      exact ih hrest hword name hname
  | mark ch plain rest ih =>
    intro s first list hlegible hs
    exact ih hlegible (reads_word hs (noMark_mark plain) fun hlist => ⟨hlist, anyKeyword_single (by decide) ch⟩)
  | parameter digits rest ih =>
    intro s first list hlegible hs
    have hkeep : anyKeyword LIST_END ('$' :: digits) = false :=
      anyKeyword_of_mem (by decide) List.mem_cons_self (by decide)
    exact ih hlegible (reads_word hs (noMark_long (by decide)) fun hlist => ⟨hlist, hkeep⟩)
  | comma rest ih =>
    intro s first list hlegible hs name hname
    cases list with
    | false => cases hname
    | true =>
      refine ih hlegible ⟨frame_comma.bounded hs.bounded, fun _ => ?_, fun _ => ?_⟩ name hname
      · rw [read_comma]
        simp [hs.list rfl]
      · rw [read_comma]
        exact hs.list rfl
  | parens inner rest ihInner ihRest =>
    intro s first list hlegible hs name hname
    rw [SqlTree.words, List.foldl_cons, List.foldl_append, List.foldl_cons]
    have hopen : (s.read u ['(']).Bounded := bounded_open hs.bounded
    have hinner := frame_run inner hlegible.1 hopen
    obtain ⟨hdepth, hlists, htables⟩ := close_group hs.bounded hinner
    have hgroup := frame_group hs.bounded hinner
    have hafter : ((inner.words.foldl (Collector.read u) (s.read u ['('])).read u [')']).Reads false list :=
      ⟨hgroup.bounded hs.bounded, fun h => absurd h Bool.false_ne_true, fun h => by rw [hlists, hdepth, hs.list h]⟩
    rw [SqlTree.listed] at hname
    rcases List.mem_append.1 hname with hname | hname
    · split_ifs at hname with hfirst
      · rw [Bool.and_eq_true] at hfirst
        -- the parenthesis opened a list of its own
        have hlist : (s.read u ['(']).Reads true true := by
          refine ⟨hopen, fun _ => ?_, fun _ => ?_⟩
          · rw [read_open]
            exact hs.first hfirst.1
          · rw [read_open, hs.first hfirst.1]
            exact List.getLast?_concat
        refine (frame_run rest hlegible.2 hafter.bounded).grows ?_
        rw [htables]
        exact ihInner hlegible.1 hlist name hname
      · cases hname
    · exact ihRest hlegible.2 hafter name hname
  | array inner tail rest _ ihRest =>
    intro s first list hlegible hs
    have hkeep : anyKeyword LIST_END (dottedText (.identifier, '[' :: (textOf inner.lexemes ++ [']'])) tail) = false :=
      anyKeyword_of_mem (by decide) List.mem_cons_self (by decide)
    exact ihRest hlegible (reads_word hs noMark_array fun hlist => ⟨hlist, hkeep⟩)

/-- Every table that stands outside the array constructors is recorded. -/
theorem run_tables (t : SqlTree) : ∀ {s : Collector}, t.Legible u → s.Bounded →
    ∀ name ∈ t.tables true, name ∈ (t.words.foldl (Collector.read u) s).tables := by
  induction t with
  | done =>
    intro s _ _ name hname
    cases hname
  | gap space rest ih | literal content rest ih =>
    intro s hlegible hb
    exact ih hlegible hb
  | name use head tail rest ih =>
    intro s hlegible hb name hname
    obtain ⟨hstart, -, hrest⟩ := hlegible
    have hmark : NoMark (dottedText head.lexeme tail) := noMark_name hstart
    have hframe := frame_word (u := u) (s := s) hmark
    rw [SqlTree.tables] at hname
    rcases List.mem_append.1 hname with hname | hname
    · split_ifs at hname with hfrom hjoin
      · have hkeyword : anyKeyword ["from".toList] (dottedText head.lexeme tail) = true := by
          rw [anyKeyword_name (by decide)]
          exact hfrom
        refine run_listed rest hrest ⟨hframe.bounded hb, fun _ => ?_, fun _ => ?_⟩ name hname
        · rw [read_from hmark hkeyword]
        · rw [read_from hmark hkeyword]
          exact List.getLast?_concat
      · have hkeyword : anyKeyword ["join".toList] (dottedText head.lexeme tail) = true := by
          rw [anyKeyword_name (by decide)]
          exact hjoin
        refine run_listed rest hrest ⟨hframe.bounded hb, fun _ => ?_, fun h => absurd h Bool.false_ne_true⟩ name hname
        rw [read_join hmark hkeyword]
      · cases hname
    · exact ih hrest (hframe.bounded hb) name hname
  | mark ch plain rest ih =>
    intro s hlegible hb
    exact ih hlegible ((frame_word (noMark_mark plain)).bounded hb)
  | parameter digits rest ih =>
    intro s hlegible hb
    exact ih hlegible ((frame_word (noMark_long (by decide))).bounded hb)
  | comma rest ih =>
    intro s hlegible hb
    exact ih hlegible (frame_comma.bounded hb)
  | parens inner rest ihInner ihRest =>
    intro s hlegible hb name hname
    rw [SqlTree.words, List.foldl_cons, List.foldl_append, List.foldl_cons]
    have hopen : (s.read u ['(']).Bounded := bounded_open hb
    have hinner := frame_run inner hlegible.1 hopen
    have hafter := (frame_group hb hinner).bounded hb
    rcases List.mem_append.1 hname with hname | hname
    · refine (frame_run rest hlegible.2 hafter).grows ?_
      rw [(close_group hb hinner).2.2]
      exact ihInner hlegible.1 hopen name hname
    · exact ihRest hlegible.2 hafter name hname
  | array inner tail rest _ ihRest =>
    intro s hlegible hb
    exact ihRest hlegible ((frame_word noMark_array).bounded hb)

end Runs

/-- A word and the blank after it. -/
def spaced (use : Use) (word : String) (rest : SqlTree) : SqlTree :=
  .name use (.bare word.toList) [] (.gap ⟨false, [' ']⟩ rest)

def bareWord (word : String) (rest : SqlTree) : SqlTree := .name .plain (.bare word.toList) [] rest

/-- `SELECT ARRAY[1] FROM public."users" u, (posts JOIN tags ON x) WHERE y` -/
def joinedTables : SqlTree :=
  spaced .plain "SELECT" (bareWord "ARRAY" (.array (.mark '1' (by decide) .done) [] (.gap ⟨false, [' ']⟩ (spaced .plain "FROM"
    (.name .plain (.bare "public".toList) [⟨[], [], .ident (.quoted .double "users".toList)⟩] (.gap ⟨false, [' ']⟩
      (bareWord "u" (.comma (.gap ⟨false, [' ']⟩ (.parens
        (spaced .plain "posts" (spaced .plain "JOIN" (spaced .plain "tags" (spaced .plain "ON" (bareWord "x" .done)))))
        (.gap ⟨false, [' ']⟩ (spaced .clause "WHERE" (bareWord "y" .done)))))))))))))

/-- `SELECT ARRAY[(SELECT id FROM posts)] FROM users` -/
def tableInArray : SqlTree :=
  spaced .plain "SELECT" (bareWord "ARRAY" (.array
    (.parens (spaced .plain "SELECT" (spaced .plain "id" (spaced .plain "FROM" (bareWord "posts" .done)))) .done) []
    (.gap ⟨false, [' ']⟩ (spaced .plain "FROM" (bareWord "users" .done)))))

/-- `SELECT 1 FROM users AS offset, posts` -/
def aliasEndsList : SqlTree :=
  spaced .plain "SELECT" (.mark '1' (by decide) (.gap ⟨false, [' ']⟩ (spaced .plain "FROM" (spaced .plain "users"
    (spaced .plain "AS" (bareWord "offset" (.comma (.gap ⟨false, [' ']⟩ (bareWord "posts" .done)))))))))

/-- Nested brackets end in a doubled one, which ends no quoted identifier. -/
example : collectTablesFromSql asciiTables "SELECT ARRAY[[1],[2]] FROM posts".toList [] = [] := by decide

/-- The word `unnest` is taken for the function. -/
example : collectTablesFromSql asciiTables "SELECT 1 FROM unnest".toList [] = [] := by decide

/-- A name in brackets is recorded where these quote names. -/
example : collectTablesFromSql asciiTables "SELECT 1 FROM [users]".toList [] = ["users".toList] := by decide

end TideOrm
