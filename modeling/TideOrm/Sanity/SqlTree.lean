import TideOrm.Spec.SqlTree
import TideOrm.Sanity.SqlText

/-! A text read with its brackets as symbols and read by the lexer: the same tokens, but for
the array constructors, and the words that the collector cuts from them. -/

namespace TideOrm

theorem textOf_cons (token : Kind × List Char) (run : List (Kind × List Char)) :
    textOf (token :: run) = token.2 ++ textOf run := List.flatMap_cons

theorem textOf_append (a b : List (Kind × List Char)) : textOf (a ++ b) = textOf a ++ textOf b := List.flatMap_append

section Read

variable (lex : List Char → Char → List Char → Kind × ℕ)

theorem readFrom_skip : ∀ (rest : List Char) (skip : ℕ) (before : List Char),
    readFrom lex skip before rest = readFrom lex 0 ((rest.take skip).reverse ++ before) (rest.drop skip) := by
  intro rest
  induction rest with
  | nil =>
    intro skip before
    cases skip <;> rfl
  | cons ch rest ih =>
    intro skip before
    cases skip with
    | zero => rfl
    | succ skip =>
      rw [List.take_succ_cons, List.drop_succ_cons, List.reverse_cons, List.append_assoc]
      exact ih skip (ch :: before)

/-- The token `lex` finds before `after`; a length beyond the text's end counts as its end. -/
structure Takes (before : List Char) (token : Kind × List Char) (after : List Char) : Prop where
  found : ∃ first body n, token.2 = first :: body ∧ lex before first (body ++ after) = (token.1, n + 1) ∧
    (n = body.length ∨ (body.length < n ∧ after = []))

variable {lex}

theorem Takes.read {before after : List Char} {token : Kind × List Char} (h : Takes lex before token after) :
    readFrom lex 0 before (token.2 ++ after) = token :: readFrom lex 0 (token.2.reverse ++ before) after := by
  obtain ⟨first, body, n, htext, hlex, hlen⟩ := h.found
  have htake : (body ++ after).take n = body ∧ (body ++ after).drop n = after := by
    rcases hlen with rfl | ⟨hlt, rfl⟩
    · exact ⟨List.take_left, List.drop_left⟩
    · rw [List.append_nil]
      exact ⟨List.take_of_length_le hlt.le, List.drop_eq_nil_of_le hlt.le⟩
  rw [htext, List.cons_append, readFrom, hlex]
  simp only [List.take_succ_cons, Nat.add_sub_cancel]
  rw [readFrom_skip, htake.1, htake.2]
  congr 1
  · exact Prod.ext rfl htext.symm
  · simp

variable (hpos : ∀ before first rest, 1 ≤ (lex before first rest).2)

include hpos

theorem readFrom_eq_cons {before text : List Char} {token : Kind × List Char} {tail : List (Kind × List Char)}
    (h : readFrom lex 0 before text = token :: tail) :
    ∃ after, text = token.2 ++ after ∧ Takes lex before token after ∧
      readFrom lex 0 (token.2.reverse ++ before) after = tail := by
  cases text with
  | nil => cases h
  | cons first rest =>
    obtain ⟨n, hn⟩ : ∃ n, lex before first rest = ((lex before first rest).1, n + 1) :=
      ⟨(lex before first rest).2 - 1, Prod.ext rfl (Nat.sub_add_cancel (hpos before first rest)).symm⟩
    have htoken : token = ((lex before first rest).1, first :: rest.take n) := by
      rw [readFrom, hn] at h
      exact (List.cons.inj h).1.symm
    subst htoken
    have htakes : Takes lex before ((lex before first rest).1, first :: rest.take n) (rest.drop n) := by
      refine ⟨first, rest.take n, n, rfl, ?_, ?_⟩
      · rw [List.take_append_drop]
        exact hn
      · rcases Nat.lt_or_ge rest.length n with hlt | hle
        · refine Or.inr ⟨?_, List.drop_eq_nil_of_le hlt.le⟩
          rwa [List.take_of_length_le hlt.le]
        · exact Or.inl (by rw [List.length_take, Nat.min_eq_left hle])
    have htext : first :: rest = (first :: rest.take n) ++ rest.drop n := by simp
    refine ⟨rest.drop n, htext, htakes, ?_⟩
    rw [htext, htakes.read] at h
    exact (List.cons.inj h).2

/-- A text whose tokens come in two runs is two texts. -/
theorem readFrom_eq_append : ∀ {run tail : List (Kind × List Char)} {before text : List Char},
    readFrom lex 0 before text = run ++ tail →
    ∃ after, text = textOf run ++ after ∧ readFrom lex 0 ((textOf run).reverse ++ before) after = tail := by
  intro run
  induction run with
  | nil =>
    intro tail before text h
    exact ⟨text, rfl, h⟩
  | cons token run ih =>
    intro tail before text h
    obtain ⟨middle, rfl, -, hmiddle⟩ := readFrom_eq_cons hpos h
    obtain ⟨after, rfl, hafter⟩ := ih hmiddle
    refine ⟨after, ?_, ?_⟩
    · rw [textOf_cons, List.append_assoc]
    · rwa [textOf_cons, List.reverse_append, List.append_assoc]

theorem textOf_readFrom (before text : List Char) : textOf (readFrom lex 0 before text) = text := by
  have hsplit : readFrom lex 0 before text = readFrom lex 0 before text ++ [] := (List.append_nil _).symm
  obtain ⟨after, htext, hafter⟩ := readFrom_eq_append hpos hsplit
  cases after with
  | nil => rw [List.append_nil] at htext; exact htext.symm
  | cons first rest => cases hafter

end Read

section Bracket

variable {u : CharTables}

theorem lexToken_positive (before : List Char) (first : Char) (rest : List Char) :
    1 ≤ (lexToken u false before first rest).2 := lexToken_pos u false before first rest

theorem sqlToken_positive (before : List Char) (first : Char) (rest : List Char) :
    1 ≤ (sqlToken u before first rest).2 := by
  unfold sqlToken
  split_ifs
  · exact Nat.le_refl 1
  · exact lexToken_positive before first rest

/-- A token that is no opening bracket is one to the lexer too. -/
theorem Takes.lexer {before after : List Char} {token : Kind × List Char} (h : Takes (sqlToken u) before token after)
    (hbracket : token ≠ (.symbol, ['['])) : Takes (lexToken u false) before token after := by
  obtain ⟨first, body, n, htext, hlex, hlen⟩ := h.found
  have hfirst : first ≠ '[' := by
    rintro rfl
    rw [sqlToken, if_pos rfl, Prod.mk.injEq] at hlex
    obtain ⟨hkind, hn⟩ := hlex
    have hbody : body = [] := List.length_eq_zero_iff.1 (by omega)
    exact hbracket (Prod.ext hkind.symm (by rw [htext, hbody]))
  rw [sqlToken, if_neg hfirst] at hlex
  exact ⟨first, body, n, htext, hlex, hlen⟩

theorem read_same : ∀ {run tail : List (Kind × List Char)} {before text : List Char},
    (.symbol, ['[']) ∉ run → readFrom (sqlToken u) 0 before text = run ++ tail →
    ∃ after, text = textOf run ++ after ∧ readFrom (sqlToken u) 0 ((textOf run).reverse ++ before) after = tail ∧
      readFrom (lexToken u false) 0 before text =
        run ++ readFrom (lexToken u false) 0 ((textOf run).reverse ++ before) after := by
  intro run
  induction run with
  | nil =>
    intro tail before text _ h
    exact ⟨text, rfl, h, rfl⟩
  | cons token run ih =>
    intro tail before text hrun h
    rw [List.mem_cons, not_or] at hrun
    obtain ⟨middle, rfl, htakes, hmiddle⟩ := readFrom_eq_cons sqlToken_positive h
    obtain ⟨after, rfl, hafter, hsame⟩ := ih hrun.2 hmiddle
    have hreverse : (textOf (token :: run)).reverse ++ before = (textOf run).reverse ++ (token.2.reverse ++ before) := by
      rw [textOf_cons, List.reverse_append, List.append_assoc]
    refine ⟨after, ?_, ?_, ?_⟩
    · rw [textOf_cons, List.append_assoc]
    · rwa [hreverse]
    · rw [(htakes.lexer (Ne.symm hrun.1)).read, hsame, hreverse]
      rfl

/-- A run that opens with a bracket ends at the first closing one. -/
theorem quotedEnd_bracket {stop : ℕ} {after : List Char} (hafter : after.head? ≠ some ']') :
    ∀ (body : List Char) (index : ℕ), ']' ∉ body →
      quotedEnd ']' .doubled stop false index (body ++ ']' :: after) = (index + body.length + 1, .closed) := by
  intro body
  induction body with
  | nil =>
    intro index _
    simp [quotedEnd, hafter]
  | cons ch body ih =>
    intro index hbody
    rw [List.mem_cons, not_or] at hbody
    have hstep : quotedEnd ']' .doubled stop false index (ch :: (body ++ ']' :: after)) =
        quotedEnd ']' .doubled stop false (index + 1) (body ++ ']' :: after) := by
      simp [quotedEnd, Ne.symm hbody.1]
    rw [List.cons_append, hstep, ih (index + 1) hbody.2, List.length_cons]
    congr 1
    omega

theorem takes_bracket {before body after : List Char} (hbody : ']' ∉ body) (hafter : after.head? ≠ some ']') :
    Takes (lexToken u false) before (.identifier, '[' :: (body ++ [']'])) after := by
  refine ⟨'[', body ++ [']'], (body ++ [']']).length, rfl, ?_, Or.inl rfl⟩
  have hquote : ('[' : Char) = '\'' ∨ ('[' : Char) = '"' ∨ ('[' : Char) = '`' ∨ ('[' : Char) = '[' := by decide
  obtain ⟨hlex, -⟩ := lexToken_quote u false before hquote (body ++ [']'] ++ after)
  have hrun : (quoteRun u false before '[' (body ++ [']'] ++ after)).1 = (body ++ [']']).length + 1 := by
    rw [quoteRun, quotedRun, List.drop_succ_cons, List.drop_zero, List.append_assoc]
    simp only [if_pos, List.singleton_append]
    rw [show (('[' : Char) == '\'') = false by decide, Bool.and_false, Bool.false_and, if_neg Bool.false_ne_true,
      quotedEnd_bracket hafter body 1 hbody, List.length_append, List.length_singleton]
    omega
  rw [hlex, hrun]
  rfl

end Bracket

namespace SqlTree

/-- The tokens the lexer finds: an array constructor is one quoted identifier. -/
def codeLexemes : SqlTree → List (Kind × List Char)
  | done => []
  | gap space rest => space.lexeme :: rest.codeLexemes
  | name _ head tail rest => head.lexeme :: (tail.flatMap Dotted.lexemes ++ rest.codeLexemes)
  | mark ch _ rest => (.symbol, [ch]) :: rest.codeLexemes
  | parameter digits rest => (.parameter, '$' :: digits) :: rest.codeLexemes
  | literal text rest => (.literal, text) :: rest.codeLexemes
  | comma rest => (.symbol, [',']) :: rest.codeLexemes
  | parens inner rest => (.symbol, ['(']) :: (inner.codeLexemes ++ (.symbol, [')']) :: rest.codeLexemes)
  | array inner tail rest =>
    (.identifier, '[' :: (textOf inner.lexemes ++ [']'])) :: (tail.flatMap Dotted.lexemes ++ rest.codeLexemes)

end SqlTree

section Arrays

variable {u : CharTables}

theorem Gap.lexeme_kind (g : Gap) : g.lexeme.1 = .space ∨ g.lexeme.1 = .comment := by
  cases hcomment : g.comment
  · exact Or.inl (by simp [Gap.lexeme, hcomment])
  · exact Or.inr (by simp [Gap.lexeme, hcomment])

theorem Gap.lexeme_ne (g : Gap) (ch : Char) : g.lexeme ≠ (.symbol, [ch]) := by
  intro h
  rcases g.lexeme_kind with hkind | hkind <;> rw [h] at hkind <;> cases hkind

theorem Ident.lexeme_kind (i : Ident) : i.lexeme.1 = .word ∨ i.lexeme.1 = .identifier := by
  cases i
  · exact Or.inl rfl
  · exact Or.inr rfl

theorem Ident.lexeme_ne (i : Ident) (ch : Char) : i.lexeme ≠ (.symbol, [ch]) := by
  intro h
  rcases i.lexeme_kind with hkind | hkind <;> rw [h] at hkind <;> cases hkind

theorem plainMark_ne {ch other : Char} (h : plainMark ch = true) (hother : plainMark other = false) : ch ≠ other := by
  rintro rfl
  rw [h] at hother
  cases hother

theorem mark_ne {ch other : Char} (h : plainMark ch = true) (hother : plainMark other = false) :
    ((.symbol, [ch]) : Kind × List Char) ≠ (.symbol, [other]) := by
  intro heq
  simp only [Prod.mk.injEq, List.cons.injEq, and_true, true_and] at heq
  exact plainMark_ne h hother heq

theorem Part.lexeme_ne (p : Part) {ch : Char} (hch : plainMark ch = false) : p.lexeme ≠ (.symbol, [ch]) := by
  cases p with
  | ident name => exact name.lexeme_ne ch
  | other mark plain => exact mark_ne plain hch

/-- The parts of a name are none of the marks of the text's structure. -/
theorem dotted_ne (tail : List Dotted) {ch : Char} (hch : plainMark ch = false) :
    ((.symbol, [ch]) : Kind × List Char) ∉ tail.flatMap Dotted.lexemes := by
  intro hmem
  obtain ⟨d, -, hd⟩ := List.mem_flatMap.1 hmem
  simp only [Dotted.lexemes, List.mem_append, List.mem_map, List.mem_cons, List.not_mem_nil, or_false] at hd
  rcases hd with ⟨g, -, hg⟩ | hdot | ⟨g, -, hg⟩ | hpart
  · exact g.lexeme_ne ch hg
  · exact mark_ne (show plainMark '.' = true by decide) hch hdot.symm
  · exact g.lexeme_ne ch hg
  · exact d.part.lexeme_ne hch hpart.symm

/-- No tree begins with a closing bracket. -/
theorem SqlTree.head_lexemes_ne (t : SqlTree) (tail : List (Kind × List Char))
    (htail : tail.head? ≠ some (.symbol, [']'])) : (t.lexemes ++ tail).head? ≠ some (.symbol, [']']) := by
  cases t with
  | done => exact htail
  | gap space rest => simpa [lexemes] using space.lexeme_ne ']'
  | name use head dots rest => simpa [lexemes] using head.lexeme_ne ']'
  | mark ch plain rest => simpa [lexemes] using plainMark_ne plain (show plainMark ']' = false by decide)
  | parameter digits rest => simp [lexemes]
  | literal text rest => simp [lexemes]
  | comma rest => simp [lexemes]
  | parens inner rest => simp [lexemes]
  | array inner dots rest => simp [lexemes]

/-- Where no token is a closing bracket, no text begins with one. -/
theorem head_of_read {before text : List Char} {tail : List (Kind × List Char)}
    (h : readFrom (sqlToken u) 0 before text = tail) (htail : tail.head? ≠ some (.symbol, [']'])) :
    text.head? ≠ some ']' := by
  intro hhead
  cases text with
  | nil => cases hhead
  | cons first rest =>
    obtain rfl : first = ']' := by simpa using hhead
    apply htail
    have halpha : u.isAlphabetic ']' = false := (u.ascii ']' (by decide)).1
    have hspace : spaceChar false ']' = false := by decide
    rw [← h]
    simp [readFrom, sqlToken, lexToken, hspace, halpha]

/-- What the lexer reads of `text`, when the tree's tokens come first in it. -/
structure CodeRead (u : CharTables) (lexemes code tail : List (Kind × List Char)) (before text : List Char) : Prop where
  read : ∃ after, text = textOf lexemes ++ after ∧
    readFrom (sqlToken u) 0 ((textOf lexemes).reverse ++ before) after = tail ∧
    readFrom (lexToken u false) 0 before text =
      code ++ readFrom (lexToken u false) 0 ((textOf lexemes).reverse ++ before) after

theorem codeRead_same {run tail : List (Kind × List Char)} {before text : List Char} (hrun : (.symbol, ['[']) ∉ run)
    (h : readFrom (sqlToken u) 0 before text = run ++ tail) : CodeRead u run run tail before text :=
  ⟨read_same hrun h⟩

theorem CodeRead.trans {a b code code' tail tail' : List (Kind × List Char)} {before text : List Char}
    (h : CodeRead u a code tail before text)
    (hnext : ∀ before text, readFrom (sqlToken u) 0 before text = tail → CodeRead u b code' tail' before text) :
    CodeRead u (a ++ b) (code ++ code') tail' before text := by
  obtain ⟨middle, rfl, hmiddle, hcode⟩ := h.read
  obtain ⟨after, rfl, hafter, hcode'⟩ := (hnext _ _ hmiddle).read
  have hreverse : (textOf (a ++ b)).reverse ++ before = (textOf b).reverse ++ ((textOf a).reverse ++ before) := by
    rw [textOf_append, List.reverse_append, List.append_assoc]
  refine ⟨after, ?_, ?_, ?_⟩
  · rw [textOf_append, List.append_assoc]
  · rwa [hreverse]
  · rw [hcode, hcode', hreverse, List.append_assoc]

theorem codeRead_array {inner tail : List (Kind × List Char)} {before text : List Char}
    (hinner : ']' ∉ textOf inner) (htail : tail.head? ≠ some (.symbol, [']']))
    (h : readFrom (sqlToken u) 0 before text = (.symbol, ['[']) :: (inner ++ (.symbol, [']']) :: tail)) :
    CodeRead u ((.symbol, ['[']) :: (inner ++ [(.symbol, [']'])]))
      [(.identifier, '[' :: (textOf inner ++ [']']))] tail before text := by
  have hsplit : readFrom (sqlToken u) 0 before text = ((.symbol, ['[']) :: (inner ++ [(.symbol, [']'])])) ++ tail := by
    rw [h]
    simp
  obtain ⟨after, rfl, hafter⟩ := readFrom_eq_append sqlToken_positive hsplit
  have htext : textOf ((.symbol, ['[']) :: (inner ++ [(.symbol, [']'])])) = '[' :: (textOf inner ++ [']']) := by
    rw [textOf_cons, textOf_append]
    rfl
  refine ⟨after, rfl, hafter, ?_⟩
  rw [htext, (takes_bracket hinner (head_of_read hafter htail)).read]
  rfl

/-- The lexer reads a text as its tree says, when no array constructor holds a closing bracket. -/
theorem SqlTree.codeRead : ∀ (t : SqlTree) {tail : List (Kind × List Char)} {before text : List Char},
    t.flatArrays = true → tail.head? ≠ some (.symbol, [']']) →
    readFrom (sqlToken u) 0 before text = t.lexemes ++ tail →
    CodeRead u t.lexemes t.codeLexemes tail before text := by
  have hopen : plainMark '[' = false := by decide
  -- one token that is no bracket, then the rest of the level
  have step : ∀ (token : Kind × List Char) (rest : SqlTree) {tail : List (Kind × List Char)} {before text : List Char},
      token ≠ (.symbol, ['[']) →
      (∀ {before text : List Char}, readFrom (sqlToken u) 0 before text = rest.lexemes ++ tail →
        CodeRead u rest.lexemes rest.codeLexemes tail before text) →
      readFrom (sqlToken u) 0 before text = token :: (rest.lexemes ++ tail) →
      CodeRead u (token :: rest.lexemes) (token :: rest.codeLexemes) tail before text := by
    intro token rest tail before text hne ih h
    have hone : CodeRead u [token] [token] (rest.lexemes ++ tail) before text :=
      codeRead_same (by simpa using hne.symm) h
    exact hone.trans fun _ _ => ih
  intro t
  induction t with
  | done =>
    intro tail before text _ _ h
    have hnil : ((.symbol, ['[']) : Kind × List Char) ∉ [] := List.not_mem_nil
    exact codeRead_same hnil h
  | gap space rest ih =>
    intro tail before text hflat htail h
    exact step _ rest (space.lexeme_ne '[') (ih hflat htail) h
  | name use head dots rest ih =>
    intro tail before text hflat htail h
    have hrun : ((.symbol, ['[']) : Kind × List Char) ∉ head.lexeme :: dots.flatMap Dotted.lexemes := by
      rw [List.mem_cons, not_or]
      exact ⟨(head.lexeme_ne '[').symm, dotted_ne dots hopen⟩
    have hname : CodeRead u (head.lexeme :: dots.flatMap Dotted.lexemes) _ (rest.lexemes ++ tail) before text :=
      codeRead_same hrun (by rw [h, lexemes]; simp)
    have := hname.trans fun _ _ => ih hflat htail
    simpa [lexemes, codeLexemes] using this
  | mark ch plain rest ih =>
    intro tail before text hflat htail h
    exact step _ rest (mark_ne plain hopen) (ih hflat htail) h
  | parameter digits rest ih =>
    intro tail before text hflat htail h
    exact step _ rest (by simp) (ih hflat htail) h
  | literal content rest ih =>
    intro tail before text hflat htail h
    exact step _ rest (by simp) (ih hflat htail) h
  | comma rest ih =>
    intro tail before text hflat htail h
    exact step _ rest (by simp) (ih hflat htail) h
  | parens inner rest ihInner ihRest =>
    intro tail before text hflat htail h
    rw [flatArrays, Bool.and_eq_true] at hflat
    have hgroup : CodeRead u [(.symbol, ['('])] [(.symbol, ['('])]
        (inner.lexemes ++ (.symbol, [')']) :: (rest.lexemes ++ tail)) before text :=
      codeRead_same (by simp) (by rw [h, lexemes]; simp)
    have hinside := hgroup.trans fun _ _ => ihInner hflat.1 (by simp)
    have hclosed := hinside.trans fun _ _ => step (.symbol, [')']) rest (by simp) (ihRest hflat.2 htail)
    simpa [lexemes, codeLexemes] using hclosed
  | array inner dots rest ihInner ihRest =>
    intro tail before text hflat htail h
    rw [flatArrays, Bool.and_eq_true, Bool.not_eq_true', List.contains_eq_mem, decide_eq_false_iff_not] at hflat
    have hnext : (dots.flatMap Dotted.lexemes ++ rest.lexemes ++ tail).head? ≠ some (.symbol, [']']) := by
      cases hdots : dots.flatMap Dotted.lexemes with
      | nil => exact rest.head_lexemes_ne tail htail
      | cons token more =>
        intro heq
        refine dotted_ne dots (show plainMark ']' = false by decide) ?_
        rw [hdots, ← Option.some.inj heq]
        exact List.mem_cons_self
    have harray : CodeRead u _ _ (dots.flatMap Dotted.lexemes ++ rest.lexemes ++ tail) before text :=
      codeRead_array hflat.1 hnext (by rw [h, lexemes]; simp)
    have hfields : CodeRead u _ _ (rest.lexemes ++ tail) before text := harray.trans fun _ _ hread =>
      codeRead_same (dotted_ne dots hopen) (by rw [hread, List.append_assoc])
    have := hfields.trans fun _ _ => ihRest hflat.2 htail
    simpa [lexemes, codeLexemes] using this

end Arrays

end TideOrm
