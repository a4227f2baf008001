import TideOrm.Sanity.SqlTree

/-! The words the collector reads are those of the text's tree, and the slice of a dotted
name reads like the name itself. -/

namespace TideOrm

section Keywords

/-- Words of letters. -/
def letters (words : List (List Char)) : Bool :=
  words.all fun word => word.all fun ch => ch.toLower.isAlpha

theorem anyKeyword_of_mem {words : List (List Char)} {word : List Char} {ch : Char} (hwords : letters words = true)
    (hmem : ch ∈ word) (hch : ch.toLower.isAlpha = false) : anyKeyword words word = false := by
  rw [anyKeyword, List.any_eq_false]
  intro other hother heq
  rw [eqIgnoreAsciiCase, beq_iff_eq] at heq
  have hlower : ch.toLower ∈ other.map Char.toLower := by
    rw [← heq]
    exact List.mem_map_of_mem hmem
  obtain ⟨ch', hch', hsame⟩ := List.mem_map.1 hlower
  have hletter := List.all_eq_true.1 (List.all_eq_true.1 hwords other hother) ch' hch'
  rw [hsame, hch] at hletter
  cases hletter

theorem anyKeyword_single {words : List (List Char)} (hwords : (words.all fun word => 2 ≤ word.length) = true) (ch : Char) :
    anyKeyword words [ch] = false := by
  rw [anyKeyword, List.any_eq_false]
  intro other hother heq
  rw [eqIgnoreAsciiCase, beq_iff_eq] at heq
  have hlen := congrArg List.length heq
  have htwo := List.all_eq_true.1 hwords other hother
  simp only [List.length_map, List.length_singleton, decide_eq_true_eq] at hlen htwo
  omega

/-- Whether a word is one of `words` depends on its letters but not their case. -/
theorem anyKeyword_congr {word other : List Char} (h : eqIgnoreAsciiCase word other = true) (words : List (List Char)) :
    anyKeyword words word = anyKeyword words other := by
  rw [eqIgnoreAsciiCase, beq_iff_eq] at h
  simp only [anyKeyword, eqIgnoreAsciiCase, h]

/-- A word of one list is none of a list without it. -/
theorem anyKeyword_disjoint {a b : List (List Char)} {word : List Char}
    (hdisjoint : (a.all fun other => !anyKeyword b other) = true) (h : anyKeyword a word = true) :
    anyKeyword b word = false := by
  rw [anyKeyword, List.any_eq_true] at h
  obtain ⟨other, hother, heq⟩ := h
  rw [anyKeyword_congr heq b]
  simpa using List.all_eq_true.1 hdisjoint other hother

/-- A word none of a list is none of a part of it. -/
theorem anyKeyword_subset {a b : List (List Char)} {word : List Char}
    (hsub : (a.all fun other => anyKeyword b other) = true) (h : anyKeyword b word = false) :
    anyKeyword a word = false := by
  rw [anyKeyword, List.any_eq_false]
  intro other hother heq
  rw [anyKeyword_congr heq b, List.all_eq_true.1 hsub other hother] at h
  cases h

end Keywords

section Bytes

theorem utf8Len_append (a b : List Char) : utf8Len (a ++ b) = utf8Len a + utf8Len b := by
  simp [utf8Len]

theorem utf8Len_cons (ch : Char) (text : List Char) : utf8Len (ch :: text) = ch.utf8Size + utf8Len text := by
  simp [utf8Len]

theorem dropBytes_append : ∀ a b : List Char, dropBytes (utf8Len a) (a ++ b) = b := by
  intro a b
  induction a with
  | nil =>
    rw [show utf8Len [] = 0 from rfl, dropBytes]
    rfl
  | cons ch a ih =>
    have hpos := Char.utf8Size_pos ch
    rw [utf8Len_cons, List.cons_append]
    obtain ⟨n, hn⟩ : ∃ n, ch.utf8Size + utf8Len a = n + 1 := ⟨ch.utf8Size + utf8Len a - 1, by omega⟩
    rw [hn, dropBytes, ← hn, Nat.add_sub_cancel_left, ih]

theorem takeBytes_append : ∀ a b : List Char, takeBytes (utf8Len a) (a ++ b) = a := by
  intro a b
  induction a with
  | nil =>
    rw [show utf8Len [] = 0 from rfl, takeBytes]
  | cons ch a ih =>
    have hpos := Char.utf8Size_pos ch
    rw [utf8Len_cons, List.cons_append]
    obtain ⟨n, hn⟩ : ∃ n, ch.utf8Size + utf8Len a = n + 1 := ⟨ch.utf8Size + utf8Len a - 1, by omega⟩
    rw [hn, takeBytes, ← hn, Nat.add_sub_cancel_left, ih]

theorem sliceBytes_append (a b c : List Char) :
    sliceBytes (a ++ (b ++ c)) (utf8Len a) (utf8Len a + utf8Len b) = b := by
  rw [sliceBytes, dropBytes_append, Nat.add_sub_cancel_left, takeBytes_append]

end Bytes

/-- Tokens at their places in a text, from the byte `start` on. -/
def placed : ℕ → List (Kind × List Char) → List Token
  | _, [] => []
  | start, token :: rest => ⟨token.2, start, token.1⟩ :: placed (start + utf8Len token.2) rest

section Placed

theorem mem_placed {run : List (Kind × List Char)} {token : Token} : ∀ {start : ℕ}, token ∈ placed start run →
    (token.kind, token.text) ∈ run := by
  induction run with
  | nil =>
    intro start h
    cases h
  | cons first run ih =>
    intro start h
    rcases List.mem_cons.1 h with rfl | h
    · exact List.mem_cons_self
    · exact List.mem_cons_of_mem _ (ih h)

variable (u : CharTables) (sqlite : Bool)

theorem scanFrom_drop : ∀ (rest : List Char) (skip : ℕ) (before : List Char) (offset : ℕ),
    scanFrom u sqlite skip before offset rest =
      scanFrom u sqlite 0 ((rest.take skip).reverse ++ before) (offset + utf8Len (rest.take skip)) (rest.drop skip) := by
  intro rest
  induction rest with
  | nil =>
    intro skip before offset
    cases skip <;> rfl
  | cons ch rest ih =>
    intro skip before offset
    cases skip with
    | zero => rfl
    | succ skip =>
      rw [List.take_succ_cons, List.drop_succ_cons, List.reverse_cons, List.append_assoc, utf8Len_cons, ← Nat.add_assoc]
      exact ih skip (ch :: before) _

/-- The scan finds the tokens of the text and their places. -/
theorem scanFrom_placed (k : ℕ) : ∀ (sql before : List Char) (offset : ℕ), sql.length ≤ k →
    scanFrom u sqlite 0 before offset sql = placed offset (readFrom (lexToken u sqlite) 0 before sql) := by
  induction k with
  | zero =>
    intro sql before offset hlen
    rw [List.length_eq_zero_iff.1 (Nat.le_zero.1 hlen)]
    rfl
  | succ k ih =>
    intro sql before offset hlen
    cases sql with
    | nil => rfl
    | cons first rest =>
      obtain ⟨n, hn⟩ := lexToken_succ u sqlite before first rest
      have hrest : (rest.drop n).length ≤ k := by
        simp only [List.length_cons] at hlen
        rw [List.length_drop]
        omega
      rw [scanFrom_cons, readFrom, placed, hn, Nat.add_sub_cancel, scanFrom_drop, readFrom_skip, ih _ _ _ hrest]
      simp only [List.take_succ_cons, utf8Len_cons, Nat.add_assoc]

theorem tokens_placed (sql : List Char) :
    tokens u sql = placed 0 (readFrom (lexToken u false) 0 [] sql) :=
  scanFrom_placed u false sql.length sql [] 0 (Nat.le_refl _)

end Placed

/-- The tokens that the collector's words are cut from. -/
def visible (tokens : List Token) : List Token :=
  tokens.filter fun token => token.kind != .space && token.kind != .comment && token.kind != .literal

section Words

theorem sqlTokens_eq (u : CharTables) (sql : List Char) :
    sqlTokens u sql = sqlTokensFrom sql 0 (visible (tokens u sql)) := by
  rw [sqlTokens, significant, List.filter_filter, visible]
  congr 2
  funext token
  exact Bool.and_comm ..

theorem visible_cons {token : Kind × List Char} (start : ℕ) (rest : List (Kind × List Char))
    (h : token.1 ≠ .space ∧ token.1 ≠ .comment ∧ token.1 ≠ .literal) :
    visible (placed start (token :: rest)) =
      ⟨token.2, start, token.1⟩ :: visible (placed (start + utf8Len token.2) rest) := by
  rw [placed, visible, List.filter_cons_of_pos]
  · rfl
  · simp [h]

theorem visible_hidden {token : Kind × List Char} (start : ℕ) (rest : List (Kind × List Char))
    (h : token.1 = .space ∨ token.1 = .comment ∨ token.1 = .literal) :
    visible (placed start (token :: rest)) = visible (placed (start + utf8Len token.2) rest) := by
  rw [placed, visible, List.filter_cons_of_neg]
  · rfl
  · rcases h with h | h | h <;> simp [h]

theorem visible_gaps (gaps : List Gap) : ∀ (start : ℕ) (rest : List (Kind × List Char)),
    visible (placed start (gaps.map Gap.lexeme ++ rest)) =
      visible (placed (start + utf8Len (textOf (gaps.map Gap.lexeme))) rest) := by
  induction gaps with
  | nil =>
    intro start rest
    rfl
  | cons g gaps ih =>
    intro start rest
    have hkind : g.lexeme.1 = .space ∨ g.lexeme.1 = .comment ∨ g.lexeme.1 = .literal := by
      rcases g.lexeme_kind with h | h
      · exact Or.inl h
      · exact Or.inr (Or.inl h)
    rw [List.map_cons, List.cons_append, visible_hidden _ _ hkind, ih, textOf_cons, utf8Len_append, Nat.add_assoc]

/-- No dot comes next. -/
def NoDot (rest : List (Kind × List Char)) : Prop :=
  ∀ start, ∀ token ∈ (visible (placed start rest)).head?, token.text ≠ ['.']

theorem Part.lexeme_kind (p : Part) : p.lexeme.1 ≠ .space ∧ p.lexeme.1 ≠ .comment ∧ p.lexeme.1 ≠ .literal := by
  cases p with
  | ident name => rcases name.lexeme_kind with h | h <;> simp [lexeme, h]
  | other ch plain => simp [lexeme]

/-- A dot and the part after it, at their places. -/
theorem visible_dotted (d : Dotted) (start : ℕ) (rest : List (Kind × List Char)) :
    ∃ dot part, visible (placed start (d.lexemes ++ rest)) =
        dot :: part :: visible (placed (start + utf8Len (textOf d.lexemes)) rest) ∧
      dot.text = ['.'] ∧ part.stop = start + utf8Len (textOf d.lexemes) ∧
      part = ⟨d.part.lexeme.2, part.start, d.part.lexeme.1⟩ := by
  have hdot : (Kind.symbol ≠ .space ∧ Kind.symbol ≠ .comment ∧ Kind.symbol ≠ .literal) := by decide
  rw [Dotted.lexemes, List.append_assoc, visible_gaps, List.cons_append, visible_cons _ _ hdot, List.append_assoc,
    visible_gaps, List.singleton_append, visible_cons _ _ d.part.lexeme_kind]
  have hend : start + utf8Len (textOf (d.before.map Gap.lexeme)) + utf8Len ['.'] +
        utf8Len (textOf (d.after.map Gap.lexeme)) + utf8Len d.part.lexeme.2 =
      start + utf8Len (textOf (d.before.map Gap.lexeme ++ (.symbol, ['.']) :: (d.after.map Gap.lexeme ++ [d.part.lexeme]))) := by
    simp only [textOf_append, textOf_cons, utf8Len_append, show textOf [] = [] from rfl, show utf8Len [] = 0 from rfl]
    omega
  rw [← hend]
  exact ⟨_, _, rfl, rfl, rfl, rfl⟩

/-- The parts of a name are all taken, and nothing after them. -/
theorem dottedEnd_placed (tail : List Dotted) : ∀ (start : ℕ) (rest : List (Kind × List Char)), NoDot rest →
    dottedEnd (visible (placed start (tail.flatMap Dotted.lexemes ++ rest))) start =
      (2 * tail.length, start + utf8Len (textOf (tail.flatMap Dotted.lexemes))) := by
  induction tail with
  | nil =>
    intro start rest hrest
    rw [List.flatMap_nil, List.nil_append]
    cases hvisible : visible (placed start rest) with
    | nil => rfl
    | cons first more =>
      have hfirst : first.text ≠ ['.'] := hrest start first (by rw [hvisible]; rfl)
      cases more with
      | nil => simp [dottedEnd, hfirst, textOf, utf8Len]
      | cons second more => simp [dottedEnd, hfirst, textOf, utf8Len]
  | cons d tail ih =>
    intro start rest hrest
    rw [List.flatMap_cons, List.append_assoc]
    obtain ⟨dot, part, hvisible, hdot, hstop, -⟩ := visible_dotted d start (tail.flatMap Dotted.lexemes ++ rest)
    rw [hvisible, dottedEnd, if_pos hdot, hstop, ih _ rest hrest, textOf_append, utf8Len_append, List.length_cons]
    simp only [Prod.mk.injEq]
    omega

theorem visible_tail (tail : List Dotted) : ∀ (start : ℕ) (rest : List (Kind × List Char)),
    (visible (placed start (tail.flatMap Dotted.lexemes ++ rest))).drop (2 * tail.length) =
      visible (placed (start + utf8Len (textOf (tail.flatMap Dotted.lexemes))) rest) := by
  induction tail with
  | nil =>
    intro start rest
    rfl
  | cons d tail ih =>
    intro start rest
    rw [List.flatMap_cons, List.append_assoc]
    obtain ⟨dot, part, hvisible, -⟩ := visible_dotted d start (tail.flatMap Dotted.lexemes ++ rest)
    rw [hvisible, List.length_cons, show 2 * (tail.length + 1) = 2 * tail.length + 1 + 1 by omega,
      List.drop_succ_cons, List.drop_succ_cons, ih, textOf_append, utf8Len_append, Nat.add_assoc]

theorem sqlTokensFrom_drop (sql : List Char) : ∀ (tokens : List Token) (skip : ℕ),
    sqlTokensFrom sql skip tokens = sqlTokensFrom sql 0 (tokens.drop skip) := by
  intro tokens
  induction tokens with
  | nil =>
    intro skip
    cases skip <;> rfl
  | cons token tokens ih =>
    intro skip
    cases skip with
    | zero => rfl
    | succ skip =>
      rw [List.drop_succ_cons]
      exact ih skip

end Words

/-- The text of a dotted name, whose first part is `head`. -/
def dottedText (head : Kind × List Char) (tail : List Dotted) : List Char :=
  textOf (head :: tail.flatMap Dotted.lexemes)

namespace SqlTree

/-- The words the collector reads. -/
def words : SqlTree → List (List Char)
  | done => []
  | gap _ rest => rest.words
  | name _ head tail rest => dottedText head.lexeme tail :: rest.words
  | mark ch _ rest => [ch] :: rest.words
  | parameter digits rest => ('$' :: digits) :: rest.words
  | literal _ rest => rest.words
  | comma rest => [','] :: rest.words
  | parens inner rest => ['('] :: (inner.words ++ [')'] :: rest.words)
  | array inner tail rest => dottedText (.identifier, '[' :: (textOf inner.lexemes ++ [']'])) tail :: rest.words

end SqlTree

section TreeWords

theorem noDot_cons {token : Kind × List Char} {rest : List (Kind × List Char)}
    (h : token.1 ≠ .space ∧ token.1 ≠ .comment ∧ token.1 ≠ .literal) (htext : token.2 ≠ ['.']) :
    NoDot (token :: rest) := by
  intro start other hother
  rw [visible_cons _ _ h] at hother
  obtain rfl := Option.some.inj hother
  exact htext

theorem noDot_hidden {token : Kind × List Char} {rest : List (Kind × List Char)}
    (h : token.1 = .space ∨ token.1 = .comment ∨ token.1 = .literal) (hrest : NoDot rest) : NoDot (token :: rest) := by
  intro start other hother
  rw [visible_hidden _ _ h] at hother
  exact hrest _ other hother

variable {u : CharTables}

/-- A word begins with a letter or an underscore. -/
def WordStart (u : CharTables) (token : Kind × List Char) : Prop :=
  token.1 = .word → ∃ first body, token.2 = first :: body ∧ (first = '_' ∨ u.isAlphabetic first = true)

theorem Takes.wordStart {before after : List Char} {token : Kind × List Char}
    (h : Takes (lexToken u false) before token after) : WordStart u token := by
  intro hword
  obtain ⟨first, body, n, htext, hlex, -⟩ := h.found
  refine ⟨first, body, htext, ?_⟩
  have hkind : (lexToken u false before first (body ++ after)).1 = .word := by rw [hlex, hword]
  by_contra hstart
  simp only [lexToken, Bool.false_eq_true, false_and, if_false, if_neg hstart] at hkind
  split_ifs at hkind
  all_goals cases hdollar : dollarLen u (first :: (body ++ after)) <;> rw [hdollar] at hkind <;> cases hkind

theorem wordStart_of_read : ∀ {run tail : List (Kind × List Char)} {before text : List Char},
    readFrom (lexToken u false) 0 before text = run ++ tail → ∀ token ∈ run, WordStart u token := by
  intro run
  induction run with
  | nil =>
    intro tail before text _ token hmem
    cases hmem
  | cons first run ih =>
    intro tail before text h token hmem
    obtain ⟨after, -, htakes, hrest⟩ := readFrom_eq_cons lexToken_positive h
    rcases List.mem_cons.1 hmem with rfl | hmem
    · exact htakes.wordStart
    · exact ih hrest token hmem

theorem WordStart.ne {text : List Char} (h : WordStart u (.word, text)) {ch : Char}
    (hch : isAscii ch = true) (halpha : ch.isAlpha = false) (hunder : ch ≠ '_') : text ≠ [ch] := by
  rintro rfl
  obtain ⟨first, body, htext, hfirst⟩ := h rfl
  obtain ⟨rfl, -⟩ := List.cons.inj htext
  rw [(u.ascii ch hch).1, halpha] at hfirst
  exact hfirst.elim hunder Bool.false_ne_true

theorem Ident.lexeme_text_ne {head : Ident} (h : WordStart u head.lexeme) {ch : Char}
    (hch : isAscii ch = true) (halpha : ch.isAlpha = false) (hunder : ch ≠ '_') : head.lexeme.2 ≠ [ch] := by
  cases head with
  | bare text => exact h.ne hch halpha hunder
  | quoted quote name => simp [lexeme]

theorem Ident.visible_kind (i : Ident) :
    i.lexeme.1 ≠ .space ∧ i.lexeme.1 ≠ .comment ∧ i.lexeme.1 ≠ .literal := by
  rcases i.lexeme_kind with h | h <;> simp [h]

theorem Gap.hidden_kind (g : Gap) : g.lexeme.1 = .space ∨ g.lexeme.1 = .comment ∨ g.lexeme.1 = .literal := by
  rcases g.lexeme_kind with h | h <;> simp [h]

theorem noDot_of_dotNext (t : SqlTree) {post : List (Kind × List Char)} (hpost : NoDot post)
    (hword : ∀ token ∈ t.codeLexemes, WordStart u token) (h : t.dotNext = false) : NoDot (t.codeLexemes ++ post) := by
  induction t with
  | done => exact hpost
  | gap space rest ih =>
    exact noDot_hidden space.hidden_kind (ih (fun token hmem => hword token (List.mem_cons_of_mem _ hmem)) h)
  | name use head tail rest _ =>
    have hhead : head.lexeme.2 ≠ ['.'] :=
      Ident.lexeme_text_ne (hword _ List.mem_cons_self) (by decide) (by decide) (by decide)
    exact noDot_cons head.visible_kind hhead
  | mark ch plain rest _ =>
    have hch : ch ≠ '.' := by simpa [SqlTree.dotNext] using h
    exact noDot_cons (by simp) (by simpa using hch)
  | parameter digits rest _ => exact noDot_cons (by simp) (by simp)
  | literal text rest ih =>
    have hrest := ih (fun token hmem => hword token (List.mem_cons_of_mem _ hmem)) h
    exact noDot_hidden (Or.inr (Or.inr rfl)) hrest
  | comma rest _ => exact noDot_cons (by decide) (by decide)
  | parens inner rest _ _ => exact noDot_cons (by decide) (by decide)
  | array inner tail rest _ _ => exact noDot_cons (by simp) (by simp)

/-- The words cut from the tokens of `t`, which stand after `pre` and before `post`. -/
def Cut (code post : List (Kind × List Char)) (words : List (List Char)) : Prop :=
  ∀ pre : List Char, sqlTokensFrom (pre ++ (textOf code ++ textOf post)) 0 (visible (placed (utf8Len pre) (code ++ post))) =
    words ++ sqlTokensFrom (pre ++ (textOf code ++ textOf post)) 0
      (visible (placed (utf8Len pre + utf8Len (textOf code)) post))

theorem Cut.append {a b post : List (Kind × List Char)} {words words' : List (List Char)}
    (h : Cut a (b ++ post) words) (h' : Cut b post words') : Cut (a ++ b) post (words ++ words') := by
  intro pre
  have hfirst := h pre
  have hsecond := h' (pre ++ textOf a)
  simp only [textOf_append, utf8Len_append, List.append_assoc, Nat.add_assoc] at hfirst hsecond ⊢
  rw [hfirst, hsecond]

theorem cut_nil (post : List (Kind × List Char)) : Cut [] post [] := fun _ => rfl

theorem cut_hidden {token : Kind × List Char} {post : List (Kind × List Char)}
    (h : token.1 = .space ∨ token.1 = .comment ∨ token.1 = .literal) : Cut [token] post [] := by
  intro pre
  rw [List.singleton_append, visible_hidden _ _ h, textOf_cons, show textOf [] = [] from rfl, List.append_nil]
  rfl

/-- A token that is no name is a word. -/
theorem cut_mark {token : Kind × List Char} {post : List (Kind × List Char)}
    (h : token.1 = .symbol ∨ token.1 = .parameter) : Cut [token] post [token.2] := by
  intro pre
  have hvisible : token.1 ≠ .space ∧ token.1 ≠ .comment ∧ token.1 ≠ .literal := by
    rcases h with h | h <;> simp [h]
  have hname : namePart token.1 = false := by
    rcases h with h | h <;> simp [h, namePart]
  rw [List.singleton_append, visible_cons _ _ hvisible, sqlTokensFrom, textOf_cons, show textOf [] = [] from rfl,
    List.append_nil]
  simp only [hname, Bool.false_eq_true, if_false]
  rw [Token.stop, sliceBytes_append]
  rfl

/-- A name with all its dotted parts is one word. -/
theorem cut_name {head : Kind × List Char} {tail : List Dotted} {post : List (Kind × List Char)}
    (h : head.1 = .word ∨ head.1 = .identifier) (hpost : NoDot post) :
    Cut (head :: tail.flatMap Dotted.lexemes) post [dottedText head tail] := by
  intro pre
  have hvisible : head.1 ≠ .space ∧ head.1 ≠ .comment ∧ head.1 ≠ .literal := by
    rcases h with h | h <;> simp [h]
  have hname : namePart head.1 = true := by
    rcases h with h | h <;> simp [h, namePart]
  rw [List.cons_append, visible_cons _ _ hvisible, sqlTokensFrom]
  simp only [hname, if_true]
  rw [Token.stop, dottedEnd_placed tail _ post hpost, sqlTokensFrom_drop, visible_tail, Nat.add_assoc, ← utf8Len_append,
    ← textOf_cons, sliceBytes_append]
  rfl

theorem SqlTree.cut (t : SqlTree) : ∀ {post : List (Kind × List Char)}, NoDot post →
    (∀ token ∈ t.codeLexemes, WordStart u token) → t.settled = true → Cut t.codeLexemes post t.words := by
  induction t with
  | done =>
    intro post _ _ _
    exact cut_nil post
  | gap space rest ih =>
    intro post hpost hword h
    have hrest := ih hpost (fun token hmem => hword token (List.mem_cons_of_mem _ hmem)) h
    exact (cut_hidden space.hidden_kind).append hrest
  | name use head tail rest ih =>
    intro post hpost hword h
    rw [settled, Bool.and_eq_true, Bool.not_eq_true'] at h
    have hwords : ∀ token ∈ rest.codeLexemes, WordStart u token := fun token hmem =>
      hword token (List.mem_cons_of_mem _ (List.mem_append_right _ hmem))
    have hname : Cut (head.lexeme :: tail.flatMap Dotted.lexemes) (rest.codeLexemes ++ post) [dottedText head.lexeme tail] :=
      cut_name head.lexeme_kind (noDot_of_dotNext rest hpost hwords h.1)
    have := hname.append (ih hpost hwords h.2)
    simpa [codeLexemes, words] using this
  | mark ch plain rest ih =>
    intro post hpost hword h
    have hrest := ih hpost (fun token hmem => hword token (List.mem_cons_of_mem _ hmem)) h
    exact (cut_mark (Or.inl rfl)).append hrest
  | parameter digits rest ih =>
    intro post hpost hword h
    have hrest := ih hpost (fun token hmem => hword token (List.mem_cons_of_mem _ hmem)) h
    exact (cut_mark (Or.inr rfl)).append hrest
  | literal text rest ih =>
    intro post hpost hword h
    have hrest := ih hpost (fun token hmem => hword token (List.mem_cons_of_mem _ hmem)) h
    exact (cut_hidden (Or.inr (Or.inr rfl))).append hrest
  | comma rest ih =>
    intro post hpost hword h
    have hrest := ih hpost (fun token hmem => hword token (List.mem_cons_of_mem _ hmem)) h
    exact (cut_mark (Or.inl rfl)).append hrest
  | parens inner rest ihInner ihRest =>
    intro post hpost hword h
    rw [settled, Bool.and_eq_true] at h
    have hinner : ∀ token ∈ inner.codeLexemes, WordStart u token := fun token hmem =>
      hword token (List.mem_cons_of_mem _ (List.mem_append_left _ hmem))
    have hrest : ∀ token ∈ rest.codeLexemes, WordStart u token := fun token hmem =>
      hword token (List.mem_cons_of_mem _ (List.mem_append_right _ (List.mem_cons_of_mem _ hmem)))
    have hclose : Cut ([(.symbol, [')'])] ++ rest.codeLexemes) post ([[')']] ++ rest.words) :=
      (cut_mark (Or.inl rfl)).append (ihRest hpost hrest h.2)
    have hnext : NoDot ([(.symbol, [')'])] ++ rest.codeLexemes ++ post) := noDot_cons (by simp) (by simp)
    have hopen : Cut [(.symbol, ['('])] (inner.codeLexemes ++ ([(.symbol, [')'])] ++ rest.codeLexemes) ++ post) [['(']] :=
      cut_mark (Or.inl rfl)
    have := hopen.append ((ihInner hnext hinner h.1).append hclose)
    simpa [codeLexemes, words] using this
  | array inner tail rest _ ihRest =>
    intro post hpost hword h
    rw [settled, Bool.and_eq_true, Bool.and_eq_true, Bool.not_eq_true'] at h
    have hwords : ∀ token ∈ rest.codeLexemes, WordStart u token := fun token hmem =>
      hword token (List.mem_cons_of_mem _ (List.mem_append_right _ hmem))
    have hname : Cut ((.identifier, '[' :: (textOf inner.lexemes ++ [']'])) :: tail.flatMap Dotted.lexemes)
        (rest.codeLexemes ++ post) [dottedText (.identifier, '[' :: (textOf inner.lexemes ++ [']'])) tail] :=
      cut_name (Or.inr rfl) (noDot_of_dotNext rest hpost hwords h.1.2)
    have := hname.append (ihRest hpost hwords h.2)
    simpa [codeLexemes, words] using this

/-- Without array constructors the lexer finds the tokens of the tree. -/
theorem SqlTree.codeLexemes_eq (t : SqlTree) (h : (.symbol, ['[']) ∉ t.lexemes) : t.codeLexemes = t.lexemes := by
  induction t with
  | done => rfl
  | gap space rest ih | mark ch plain rest ih | parameter digits rest ih | literal content rest ih | comma rest ih =>
    rw [lexemes, List.mem_cons, not_or] at h
    rw [lexemes, codeLexemes, ih h.2]
  | name use head tail rest ih =>
    rw [lexemes, List.mem_cons, List.mem_append, not_or, not_or] at h
    rw [lexemes, codeLexemes, ih h.2.2]
  | parens inner rest ihInner ihRest =>
    rw [lexemes, List.mem_cons, List.mem_append, List.mem_cons, not_or, not_or, not_or] at h
    rw [lexemes, codeLexemes, ihInner h.2.1, ihRest h.2.2.2]
  | array inner tail rest _ _ => exact absurd List.mem_cons_self h

/-- To the lexer a bracket opens a quoted name. -/
theorem lexToken_bracket : ∀ {run : List (Kind × List Char)} {before text : List Char},
    readFrom (lexToken u false) 0 before text = run → (.symbol, ['[']) ∉ run := by
  intro run
  induction run with
  | nil => exact fun _ => List.not_mem_nil
  | cons token run ih =>
    intro before text h hmem
    obtain ⟨after, -, htakes, hrest⟩ := readFrom_eq_cons lexToken_positive h
    rcases List.mem_cons.1 hmem with rfl | hmem
    · obtain ⟨first, body, n, htext, hlex, -⟩ := htakes.found
      obtain rfl : '[' = first := (List.cons.inj htext).1
      rw [(lexToken_quote u false before (by decide) _).1, if_neg (by decide)] at hlex
      cases (Prod.mk.inj hlex).1
    · exact ih hrest hmem

theorem read_code {arrays : Bool} {sql : List Char} {t : SqlTree} (hread : reading u arrays sql = t.lexemes)
    (hflat : t.flatArrays = true) : readFrom (lexToken u false) 0 [] sql = t.codeLexemes := by
  cases arrays with
  | false => rw [t.codeLexemes_eq (lexToken_bracket hread), ← hread, reading, if_neg Bool.false_ne_true]
  | true =>
    have hwhole : readFrom (sqlToken u) 0 [] sql = t.lexemes ++ [] := by
      rw [List.append_nil]
      exact hread
    obtain ⟨after, -, hafter, hcode⟩ := (t.codeRead hflat (by simp) hwhole).read
    have hend : after = [] := by
      rw [← textOf_readFrom sqlToken_positive _ after, hafter]
      rfl
    rwa [hend, show readFrom (lexToken u false) 0 _ [] = [] from rfl, List.append_nil] at hcode

/-- The collector reads the words of the tree that the text is read as. -/
theorem sqlTokens_words {arrays : Bool} {sql : List Char} {t : SqlTree} (hread : reading u arrays sql = t.lexemes)
    (hflat : t.flatArrays = true) (hsettled : t.settled = true) : sqlTokens u sql = t.words := by
  have hcode := read_code hread hflat
  have htext : textOf t.codeLexemes = sql := by rw [← hcode, textOf_readFrom lexToken_positive _ sql]
  have hwords : ∀ token ∈ t.codeLexemes, WordStart u token :=
    wordStart_of_read (by rw [hcode, List.append_nil])
  have hnone : NoDot [] := fun _ _ h => by cases h
  have hcut := t.cut hnone hwords hsettled []
  rw [htext, List.append_nil, show textOf [] = [] from rfl, List.append_nil, List.nil_append] at hcut
  rw [sqlTokens_eq, tokens_placed, hcode]
  exact hcut.trans (List.append_nil _)

end TreeWords

section Slice

theorem takeWhile_cut {p : Char → Bool} {text mid after : List Char}
    (h : ((text ++ (mid ++ after)).takeWhile p).length = text.length) :
    ((text ++ mid).takeWhile p).length = text.length := by
  have hprefix : (text ++ (mid ++ after)).takeWhile p = text :=
    (List.prefix_of_prefix_length_le (List.takeWhile_prefix p) (List.prefix_append _ _) h.le).eq_of_length h
  have hall : ∀ ch ∈ text, p ch = true := by
    rw [← hprefix]
    exact fun ch hch => List.mem_takeWhile_imp hch
  rw [List.takeWhile_append_of_pos hall] at hprefix ⊢
  have hstop : (mid ++ after).takeWhile p = [] := by simpa using hprefix
  cases mid with
  | nil => simp
  | cons ch mid =>
    have hch : p ch = false := by
      cases hp : p ch with
      | false => rfl
      | true => simp [hp] at hstop
    simp [hch]

theorem blockCommentFrom_open (nested : Bool) : ∀ (rest : List Char) (taken : Bool) (depth pos : ℕ),
    blockCommentClosed nested taken depth rest = false →
    blockCommentFrom nested taken depth pos rest = pos + rest.length := by
  intro rest
  induction rest with
  | nil =>
    intro taken depth pos _
    cases taken <;> rfl
  | cons ch rest ih =>
    intro taken depth pos h
    have step : ∀ taken' depth', blockCommentClosed nested taken' depth' rest = false →
        blockCommentFrom nested taken' depth' (pos + 1) rest = pos + (ch :: rest).length := by
      intro taken' depth' h'
      rw [ih taken' depth' (pos + 1) h', List.length_cons]
      omega
    cases taken with
    | true => exact step false depth h
    | false =>
      simp only [blockCommentClosed, blockCommentFrom] at h ⊢
      split_ifs at h ⊢ with h1 h2 h3
      · exact step _ _ h
      · exact step _ _ h
      · exact step _ _ h

variable {u : CharTables} {before before' body mid after : List Char} {first : Char}

theorem head_append_left (h : body ≠ []) (x y : List Char) : (body ++ x).head? = (body ++ y).head? := by
  obtain ⟨ch, rest, rfl⟩ := List.exists_cons_of_ne_nil h
  rfl

theorem startsComment_cut (h : ¬startsComment first (body ++ (mid ++ after))) : ¬startsComment first (body ++ mid) := by
  intro hstart
  apply h
  rw [← List.append_assoc]
  cases htext : body ++ mid with
  | nil =>
    rw [htext] at hstart
    rcases hstart with ⟨-, hhead⟩ | ⟨-, hhead⟩ <;> cases hhead
  | cons ch rest =>
    rw [htext] at hstart
    exact hstart

theorem quotedRun_cut {close : Char} {mode : EscapeMode} (hmode : mode ≠ .rejectAmbiguous)
    (h : (quotedRun close mode (first :: (body ++ (mid ++ after)))).1 = body.length + 1) :
    (quotedRun close mode (first :: (body ++ mid))).1 = body.length + 1 := by
  by_cases hclosed : (quotedRun close mode (first :: (body ++ (mid ++ after)))).2 = .closed
  · obtain ⟨body', after', htext, hlen, hnext, hall⟩ := quotedRun_span hclosed
    have hbody : body = body' := List.append_inj_left htext (by omega)
    subst hbody
    have hafter : mid ++ after = after' := List.append_cancel_left htext
    have hmid : mid.head? ≠ some close := by
      cases mid with
      | nil => simp
      | cons ch rest => rw [← hafter] at hnext; exact hnext
    rw [hall mid hmid]
  · -- an open run takes the whole text, so nothing is cut off
    have hwhole : (quotedRun close mode (first :: (body ++ (mid ++ after)))).1 =
        (first :: (body ++ (mid ++ after))).length := quotedEnd_open hmode _ _ _ hclosed
    rw [h] at hwhole
    simp only [List.length_cons, List.length_append] at hwhole
    have hmid : mid = [] := List.length_eq_zero_iff.1 (by omega)
    have hafter : after = [] := List.length_eq_zero_iff.1 (by omega)
    rw [hmid, hafter] at h
    rwa [hmid]

theorem blockComment_cut {nested : Bool} {depth pos : ℕ}
    (h : blockCommentFrom nested false depth pos (body ++ (mid ++ after)) = pos + body.length) :
    blockCommentFrom nested false depth pos (body ++ mid) = pos + body.length := by
  cases hclosed : blockCommentClosed nested false depth (body ++ (mid ++ after)) with
  | true =>
    obtain ⟨body', after', htext, -, hlen, hall⟩ := blockComment_span hclosed
    have hbody : body = body' := List.append_inj_left htext (by rw [hlen] at h; omega)
    subst hbody
    exact (hall mid).1
  | false =>
    have hwhole := blockCommentFrom_open nested _ _ _ pos hclosed
    rw [h] at hwhole
    simp only [List.length_append] at hwhole
    have hmid : mid = [] := List.length_eq_zero_iff.1 (by omega)
    have hafter : after = [] := List.length_eq_zero_iff.1 (by omega)
    rw [hmid, hafter] at h
    rwa [hmid]

/-- Where a token that is no literal ends does not depend on what stands before it, nor on
text that is cut off after it. -/
theorem lexToken_cut {kind : Kind} (h : lexToken u false before first (body ++ (mid ++ after)) = (kind, body.length + 1))
    (hliteral : first ≠ '\'') (hdollar : first ≠ '$') :
    lexToken u false before' first (body ++ mid) = (kind, body.length + 1) := by
  by_cases hspace : spaceChar false first = true
  · obtain ⟨hkind, hlen⟩ : Kind.space = kind ∧ ((first :: (body ++ (mid ++ after))).takeWhile (spaceChar false)).length =
        body.length + 1 := by
      simpa only [lexToken, if_pos hspace, Prod.mk.injEq] using h
    have hcut : ((first :: (body ++ mid)).takeWhile (spaceChar false)).length = body.length + 1 :=
      @takeWhile_cut (spaceChar false) (first :: body) mid after hlen
    simpa only [lexToken, if_pos hspace, Prod.mk.injEq] using And.intro hkind hcut
  rw [Bool.not_eq_true] at hspace
  by_cases hcomment : startsComment first (body ++ (mid ++ after))
  · -- a comment is longer than the mark it starts with
    have hbody : ∀ ch, (body ++ (mid ++ after)).head? = some ch → body ≠ [] → (body ++ mid).head? = some ch := by
      intro ch hhead hne
      rw [head_append_left hne mid (mid ++ after), hhead]
    rcases hcomment with ⟨rfl, hhead⟩ | ⟨rfl, hhead⟩
    · rw [(lexToken_line u false before hhead).1, Prod.mk.injEq] at h
      obtain ⟨rfl, hlen⟩ := h
      have hne : body ≠ [] := by
        rintro rfl
        obtain ⟨rest, hrest⟩ : ∃ rest, mid ++ after = '-' :: rest := by
          cases htext : mid ++ after with
          | nil => rw [List.nil_append, htext] at hhead; cases hhead
          | cons ch rest =>
            rw [List.nil_append, htext] at hhead
            exact ⟨rest, by rw [Option.some.inj hhead]⟩
        simp [hrest] at hlen
      have hcut := @takeWhile_cut (fun ch => ch != '\n') ('-' :: body) mid after hlen
      rw [(lexToken_line u false before' (hbody _ hhead hne)).1]
      exact Prod.ext rfl hcut
    · rw [(lexToken_block u false before hhead).1, Prod.mk.injEq] at h
      obtain ⟨rfl, hlen⟩ := h
      have hle := blockCommentFrom_le true ((body ++ (mid ++ after)).drop 1) false 1 2
      have hne : body ≠ [] := by
        rintro rfl
        simp only [Bool.not_false, List.length_nil] at hlen
        omega
      obtain ⟨star, body, rfl⟩ := List.exists_cons_of_ne_nil hne
      rw [(lexToken_block u false before' (hbody _ hhead hne)).1]
      simp only [List.cons_append, List.drop_succ_cons, List.drop_zero, List.length_cons] at hlen ⊢
      rw [blockComment_cut (hlen.trans (by omega))]
      exact Prod.ext rfl (by simp; omega)
  by_cases hquote : first = '\'' ∨ first = '"' ∨ first = '`' ∨ first = '['
  · rw [(lexToken_quote u false before hquote _).1, if_neg hliteral, Prod.mk.injEq, quoteRun,
      show (first == '\'') = false from beq_eq_false_iff_ne.2 hliteral, Bool.and_false, Bool.false_and,
      if_neg Bool.false_ne_true] at h
    obtain ⟨rfl, hlen⟩ := h
    rw [(lexToken_quote u false before' hquote _).1, if_neg hliteral, quoteRun,
      show (first == '\'') = false from beq_eq_false_iff_ne.2 hliteral, Bool.and_false, Bool.false_and,
      if_neg Bool.false_ne_true, quotedRun_cut (by decide) hlen]
  have hparameter : ¬(false = true ∧ (first = '$' ∨ first = ':' ∨ first = '@' ∨ first = '#')) := by simp
  rw [(lexToken_plain u false before hspace hcomment hquote hparameter hdollar).1] at h
  rw [(lexToken_plain u false before' hspace (startsComment_cut hcomment) hquote hparameter hdollar).1]
  split_ifs at h ⊢
  · rw [Prod.mk.injEq] at h
    exact Prod.ext h.1 (@takeWhile_cut (identifierChar u) (first :: body) mid after h.2)
  · exact h

theorem Takes.cut {token : Kind × List Char} (h : Takes (lexToken u false) before token (mid ++ after))
    (hliteral : token.1 ≠ .literal) (hparameter : token.1 ≠ .parameter) (hdollar : token ≠ (.symbol, ['$'])) :
    Takes (lexToken u false) before' token mid := by
  obtain ⟨first, body, n, htext, hlex, hlen⟩ := h.found
  have hfirst : first ≠ '$' := by
    rintro rfl
    rw [(lexToken_dollar u before _).1] at hlex
    cases hstring : dollarLen u ('$' :: (body ++ (mid ++ after))) with
    | some len =>
      rw [hstring] at hlex
      exact hliteral (Prod.mk.inj hlex).1.symm
    | none =>
      rw [hstring] at hlex
      simp only [Prod.mk.injEq] at hlex
      obtain ⟨hkind, hn⟩ := hlex
      split_ifs at hkind with hdigits
      · exact hparameter hkind.symm
      · have hbody : body = [] := List.length_eq_zero_iff.1 (by omega)
        exact hdollar (Prod.ext hkind.symm (by rw [htext, hbody]))
  have hquote : first ≠ '\'' := by
    rintro rfl
    have hkind := (lexToken_quote u false before (show ('\'' : Char) = '\'' ∨ _ from Or.inl rfl) (body ++ (mid ++ after))).1
    rw [hlex, if_pos rfl] at hkind
    exact hliteral (Prod.mk.inj hkind).1
  rcases hlen with rfl | ⟨hlt, hnil⟩
  · exact ⟨first, body, body.length, htext, lexToken_cut hlex hquote hfirst, Or.inl rfl⟩
  · obtain ⟨rfl, rfl⟩ := List.append_eq_nil_iff.1 hnil
    refine ⟨first, body, n, htext, ?_, Or.inr ⟨hlt, rfl⟩⟩
    have hsame : lexToken u false before' first (body ++ []) = lexToken u false before first (body ++ ([] ++ [])) := by
      simp only [lexToken, beq_eq_false_iff_ne.2 hquote, Bool.and_false, Bool.false_and, List.append_nil]
    rw [hsame, hlex]

/-- A run of tokens cut out of a text is read as it was there. -/
theorem read_cut : ∀ {run : List (Kind × List Char)} {tail : List (Kind × List Char)} {before before' after : List Char},
    (∀ token ∈ run, token.1 ≠ .literal ∧ token.1 ≠ .parameter ∧ token ≠ (.symbol, ['$'])) →
    readFrom (lexToken u false) 0 before (textOf run ++ after) = run ++ tail →
    readFrom (lexToken u false) 0 before' (textOf run) = run := by
  intro run
  induction run with
  | nil =>
    intro tail before before' after _ _
    rfl
  | cons token run ih =>
    intro tail before before' after hrun h
    obtain ⟨middle, htext, htakes, hmiddle⟩ := readFrom_eq_cons lexToken_positive h
    rw [textOf_cons, List.append_assoc] at htext
    obtain rfl := List.append_cancel_left htext
    obtain ⟨hliteral, hparameter, hdollar⟩ := hrun token List.mem_cons_self
    have hcut : Takes (lexToken u false) before' token (textOf run) := htakes.cut hliteral hparameter hdollar
    rw [textOf_cons, hcut.read, ih (fun other hmem => hrun other (List.mem_cons_of_mem _ hmem)) hmiddle]

end Slice

section Normalize

variable {u : CharTables}

theorem undouble_double (close : Char) : ∀ name : List Char,
    undouble close (name.flatMap fun ch => if ch = close then [ch, ch] else [ch]) = name := by
  intro name
  induction name with
  | nil => rfl
  | cons ch name ih =>
    by_cases hch : ch = close
    · subst hch
      rw [List.flatMap_cons, if_pos rfl]
      simp [undouble, ih]
    · rw [List.flatMap_cons, if_neg hch, List.singleton_append]
      cases hrest : name.flatMap fun ch => if ch = close then [ch, ch] else [ch] with
      | nil =>
        rw [hrest] at ih
        rw [← ih]
        rfl
      | cons next rest =>
        rw [hrest] at ih
        rw [undouble, if_neg (fun h => hch h.1), ih]

theorem unquoted_quoted (quote : Quote) (body : List Char) (start : ℕ) :
    Token.unquoted ⟨quote.opening :: (body ++ [quote.closing]), start, .identifier⟩ =
      some (undouble quote.closing body) := by
  have hclosing : (if quote.opening = '[' then ']' else quote.opening) = quote.closing := by cases quote <;> decide
  have hlast : (quote.opening :: (body ++ [quote.closing])).getLast? = some quote.closing := by
    rw [← List.cons_append, List.getLast?_concat]
  simp [Token.unquoted, hclosing, hlast]

/-- A name's token spells the name. -/
theorem Ident.unquoted_lexeme (i : Ident) (start : ℕ) :
    Token.unquoted ⟨i.lexeme.2, start, i.lexeme.1⟩ = some (match i with | bare text => text | quoted _ name => name) := by
  cases i with
  | bare text => simp [Token.unquoted, lexeme]
  | quoted quote name =>
    exact (unquoted_quoted quote _ start).trans (congrArg some (undouble_double quote.closing name))

theorem Ident.named (i : Ident) {name : List Char} (h : i.name? = some name) (start : ℕ) :
    Token.unquoted ⟨i.lexeme.2, start, i.lexeme.1⟩ = some name ∧ name ≠ [] := by
  rw [i.unquoted_lexeme start]
  cases i with
  | bare text =>
    simp only [name?, Option.ite_none_left_eq_some, Option.some.injEq] at h
    obtain ⟨hne, rfl⟩ := h
    exact ⟨rfl, hne⟩
  | quoted quote text =>
    simp only [name?, Option.ite_none_left_eq_some, Option.some.injEq] at h
    obtain ⟨hne, rfl⟩ := h
    exact ⟨rfl, hne⟩

theorem lastPart_placed : ∀ (tail : List Dotted) (head : Ident) (start place : ℕ),
    (tail.all fun d => d.part.ident?.isSome) = true →
    ∃ start', lastPart ⟨head.lexeme.2, start, head.lexeme.1⟩ (visible (placed place (tail.flatMap Dotted.lexemes))) =
      some ⟨((tail.getLast?.bind fun d => d.part.ident?).getD head).lexeme.2, start',
        ((tail.getLast?.bind fun d => d.part.ident?).getD head).lexeme.1⟩ := by
  intro tail
  induction tail with
  | nil =>
    intro head start place _
    have hname : namePart head.lexeme.1 = true := by
      rcases head.lexeme_kind with h | h <;> simp [h, namePart]
    refine ⟨start, ?_⟩
    rw [List.flatMap_nil, placed, visible, List.filter_nil, lastPart, if_pos hname]
    rfl
  | cons d tail ih =>
    intro head start place hall
    rw [List.all_cons, Bool.and_eq_true] at hall
    obtain ⟨name, hpart⟩ := Option.isSome_iff_exists.1 hall.1
    have hlexeme : d.part.lexeme = name.lexeme := by
      cases hd : d.part with
      | ident other =>
        rw [hd] at hpart
        rw [← Option.some.inj hpart]
        rfl
      | other ch plain =>
        rw [hd] at hpart
        cases hpart
    have hname : namePart head.lexeme.1 = true := by
      rcases head.lexeme_kind with h | h <;> simp [h, namePart]
    obtain ⟨dot, part, hvisible, hdot, -, htoken⟩ := visible_dotted d place (tail.flatMap Dotted.lexemes)
    rw [hlexeme] at htoken
    obtain ⟨start', hlast⟩ := ih name part.start (place + utf8Len (textOf d.lexemes)) hall.2
    refine ⟨start', ?_⟩
    rw [List.flatMap_cons, hvisible, lastPart, if_pos ⟨hname, hdot⟩, htoken, hlast]
    have hlast' : ((d :: tail).getLast?.bind fun d => d.part.ident?).getD head =
        (tail.getLast?.bind fun d => d.part.ident?).getD name := by
      cases tail with
      | nil => simp [hpart]
      | cons next tail =>
        rw [List.getLast?_cons_cons]
        rw [List.all_eq_true] at hall
        obtain ⟨other, hother⟩ := Option.isSome_iff_exists.1
          (hall.2 ((next :: tail).getLast (List.cons_ne_nil _ _)) (List.getLast_mem _))
        rw [List.getLast?_eq_some_getLast (List.cons_ne_nil next tail), Option.bind_some, hother]
        rfl
    rw [hlast']

/-- The base name of a table is its last part. -/
theorem tableName_last {seen : Bool} {head : Ident} {tail : List Dotted} {name : List Char}
    (h : tableName seen head tail = some name) :
    (tail.all fun d => d.part.ident?.isSome) = true ∧
      ((tail.getLast?.bind fun d => d.part.ident?).getD head).name? = some name := by
  unfold tableName at h
  cases hlast : tail.getLast? with
  | none =>
    rw [hlast] at h
    obtain rfl := List.getLast?_eq_none_iff.1 hlast
    simp only [Option.ite_none_left_eq_some] at h
    exact ⟨rfl, h.2⟩
  | some d =>
    rw [hlast] at h
    simp only [Option.ite_none_right_eq_some] at h
    obtain ⟨hall, hname⟩ := h
    obtain ⟨ident, hident, hname⟩ := Option.bind_eq_some_iff.1 hname
    refine ⟨hall, ?_⟩
    rw [Option.bind_some, hident]
    exact hname

/-- The slice of a table's dotted name is normalized to its base name. -/
theorem normalize_name {seen : Bool} {head : Ident} {tail : List Dotted} {name before after : List Char}
    {rest : List (Kind × List Char)} (h : tableName seen head tail = some name)
    (hread : readFrom (lexToken u false) 0 before (dottedText head.lexeme tail ++ after) =
      head.lexeme :: tail.flatMap Dotted.lexemes ++ rest) :
    normalizeTableName u (dottedText head.lexeme tail) = some name := by
  obtain ⟨hall, hname⟩ := tableName_last h
  have hrun : ∀ token ∈ head.lexeme :: tail.flatMap Dotted.lexemes,
      token.1 ≠ .literal ∧ token.1 ≠ .parameter ∧ token ≠ (.symbol, ['$']) := by
    have hident : ∀ i : Ident, i.lexeme.1 ≠ .literal ∧ i.lexeme.1 ≠ .parameter ∧ i.lexeme ≠ (.symbol, ['$']) := by
      intro i
      rcases i.lexeme_kind with hkind | hkind <;> exact ⟨by simp [hkind], by simp [hkind], i.lexeme_ne '$'⟩
    have hgap : ∀ g : Gap, g.lexeme.1 ≠ .literal ∧ g.lexeme.1 ≠ .parameter ∧ g.lexeme ≠ (.symbol, ['$']) := by
      intro g
      rcases g.lexeme_kind with hkind | hkind <;> exact ⟨by simp [hkind], by simp [hkind], g.lexeme_ne '$'⟩
    intro token hmem
    rcases List.mem_cons.1 hmem with rfl | hmem
    · exact hident head
    · obtain ⟨d, hd, htoken⟩ := List.mem_flatMap.1 hmem
      simp only [Dotted.lexemes, List.mem_append, List.mem_map, List.mem_cons, List.not_mem_nil, or_false] at htoken
      rcases htoken with ⟨g, -, rfl⟩ | rfl | ⟨g, -, rfl⟩ | rfl
      · exact hgap g
      · decide
      · exact hgap g
      · have hpart := List.all_eq_true.1 hall d hd
        cases hkind : d.part with
        | ident i => exact hident i
        | other ch plain => simp [hkind, Part.ident?] at hpart
  have hcut : readFrom (lexToken u false) 0 [] (dottedText head.lexeme tail) = head.lexeme :: tail.flatMap Dotted.lexemes :=
    read_cut hrun hread
  have hsame : significant u (dottedText head.lexeme tail) =
      visible (placed 0 (head.lexeme :: tail.flatMap Dotted.lexemes)) := by
    rw [significant, tokens_placed, hcut, visible]
    refine List.filter_congr fun token htoken => ?_
    simp [(hrun _ (mem_placed htoken)).1]
  obtain ⟨start, hlast⟩ := lastPart_placed tail head 0 (0 + utf8Len head.lexeme.2) hall
  obtain ⟨hunquoted, hne⟩ := Ident.named _ hname start
  rw [normalizeTableName, hsame, visible_cons _ _ head.visible_kind]
  simp only [hlast, Option.bind_some, hunquoted, if_neg hne]

end Normalize

end TideOrm
