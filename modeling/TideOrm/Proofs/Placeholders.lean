import TideOrm.Lib.Decimal
import TideOrm.Proofs.SqlSafety
import TideOrm.Sanity.Placeholders
import TideOrm.Sanity.TableTags
import Mathlib.Data.List.Forall2

/-! A text whose `$n` markers are shifted is read as before, with the new numbers: digits behind a `$` neither open nor
close a dollar quote, and what comes after a token begins as it did. -/

namespace TideOrm

/-- `text'` is `text` with other digits behind some of its `$`. -/
inductive Redigited : List Char → List Char → Prop
  | nil : Redigited [] []
  | keep (ch : Char) {rest rest' : List Char} (hrest : Redigited rest rest') : Redigited (ch :: rest) (ch :: rest')
  | number {digits digits' rest rest' : List Char} (hne : digits ≠ []) (hne' : digits' ≠ [])
      (hdigits : digits.all Char.isDigit = true) (hdigits' : digits'.all Char.isDigit = true) (hrest : Redigited rest rest') :
      Redigited ('$' :: (digits ++ rest)) ('$' :: (digits' ++ rest'))

section Redigited

variable {text text' : List Char}

theorem Redigited.symm (h : Redigited text text') : Redigited text' text := by
  induction h with
  | nil => exact .nil
  | keep ch _ ih => exact .keep ch ih
  | number hne hne' hdigits hdigits' _ ih => exact .number hne' hne hdigits' hdigits ih

theorem Redigited.behind (h : Redigited text text') (front : List Char) : Redigited (front ++ text) (front ++ text') := by
  induction front with
  | nil => exact h
  | cons ch front ih => exact .keep ch ih

theorem Redigited.head (h : Redigited text text') : text'.head? = text.head? := by
  cases h <;> rfl

/-- The characters before a `$` stay. -/
theorem Redigited.upTo (h : Redigited text text') : ∀ {tag : List Char}, '$' ∉ tag → tag ++ ['$'] <+: text → tag ++ ['$'] <+: text' := by
  induction h with
  | nil =>
    intro tag _ hprefix
    simp at hprefix
  | keep ch hrest ih =>
    intro tag htag hprefix
    cases tag with
    | nil =>
      obtain rfl : '$' = ch := (List.cons_prefix_cons.1 hprefix).1
      exact List.cons_prefix_cons.2 ⟨rfl, List.nil_prefix⟩
    | cons first tag =>
      obtain ⟨rfl, hmore⟩ := List.cons_prefix_cons.1 hprefix
      exact List.cons_prefix_cons.2 ⟨rfl, ih (fun hmem => htag (List.mem_cons_of_mem _ hmem)) hmore⟩
  | number hne hne' hdigits hdigits' hrest ih =>
    intro tag htag hprefix
    cases tag with
    | nil => exact List.cons_prefix_cons.2 ⟨rfl, List.nil_prefix⟩
    | cons first tag =>
      obtain ⟨rfl, -⟩ := List.cons_prefix_cons.1 hprefix
      exact absurd List.mem_cons_self htag

/-- A tag that can stand between two `$`. -/
structure TagText (tag : List Char) : Prop where
  plain : '$' ∉ tag
  begins : tag.head?.any Char.isDigit = false

/-- `$tag$` -/
def dollarQuote (tag : List Char) : List Char := '$' :: (tag ++ ['$'])

variable {tag : List Char}

theorem infix_digits {digits rest : List Char} (h : digits.all Char.isDigit = true)
    (hoccurs : dollarQuote tag <:+: digits ++ rest) : dollarQuote tag <:+: rest := by
  induction digits with
  | nil => exact hoccurs
  | cons digit digits ih =>
    rw [List.all_cons, Bool.and_eq_true] at h
    rcases List.infix_cons_iff.1 hoccurs with hprefix | hmore
    · obtain ⟨heq, -⟩ := List.cons_prefix_cons.1 hprefix
      rw [← heq] at h
      exact absurd h.1 (by decide)
    · exact ih h.2 hmore

theorem not_prefix_number (htag : TagText tag) {digits rest : List Char} (hne : digits ≠ []) (h : digits.all Char.isDigit = true) :
    ¬dollarQuote tag <+: '$' :: (digits ++ rest) := by
  intro hprefix
  have hmore := (List.cons_prefix_cons.1 hprefix).2
  obtain ⟨digit, digits, rfl⟩ := List.exists_cons_of_ne_nil hne
  rw [List.all_cons, Bool.and_eq_true] at h
  have hbegins := htag.begins
  cases tag with
  | nil =>
    obtain ⟨rfl, -⟩ := List.cons_prefix_cons.1 hmore
    exact absurd h.1 (by decide)
  | cons first tag =>
    obtain ⟨rfl, -⟩ := List.cons_prefix_cons.1 hmore
    rw [List.head?_cons, Option.any_some, h.1] at hbegins
    cases hbegins

/-- A delimiter found in the one text is found in the other. -/
theorem Redigited.found (htag : TagText tag) (h : Redigited text text') : dollarQuote tag <:+: text → dollarQuote tag <:+: text' := by
  induction h with
  | nil => exact id
  | keep ch hrest ih =>
    intro hoccurs
    rcases List.infix_cons_iff.1 hoccurs with hprefix | hmore
    · obtain ⟨rfl, hmore⟩ := List.cons_prefix_cons.1 hprefix
      exact List.infix_cons_iff.2 (Or.inl (List.cons_prefix_cons.2 ⟨rfl, hrest.upTo htag.plain hmore⟩))
    · exact List.infix_cons_iff.2 (Or.inr (ih hmore))
  | number hne hne' hdigits hdigits' hrest ih =>
    intro hoccurs
    rcases List.infix_cons_iff.1 hoccurs with hprefix | hmore
    · exact absurd hprefix (not_prefix_number htag hne hdigits)
    · exact (ih (infix_digits hdigits hmore)).trans (((List.suffix_append _ _).trans (List.suffix_cons _ _)).isInfix)

/-- What follows an opening delimiter holds the delimiter in the other text too. -/
theorem Redigited.closes (htag : TagText tag) : ∀ {front rest text text' : List Char}, '$' ∉ front → Redigited text text' →
    text = front ++ '$' :: rest → dollarQuote tag <:+: rest → ∃ rest', text' = front ++ '$' :: rest' ∧ dollarQuote tag <:+: rest' := by
  intro front
  induction front with
  | nil =>
    intro rest text text' _ h htext hoccurs
    cases h with
    | nil => cases htext
    | keep ch hrest =>
      obtain ⟨rfl, rfl⟩ := List.cons.inj htext
      exact ⟨_, rfl, hrest.found htag hoccurs⟩
    | number hne hne' hdigits hdigits' hrest =>
      obtain rfl := (List.cons.inj htext).2
      exact ⟨_, rfl, (hrest.found htag (infix_digits hdigits hoccurs)).trans (List.suffix_append _ _).isInfix⟩
  | cons first front ih =>
    intro rest text text' hfront h htext hoccurs
    cases h with
    | nil => cases htext
    | keep ch hrest =>
      obtain ⟨rfl, hmore⟩ := List.cons.inj htext
      obtain ⟨rest', rfl, hfound⟩ := ih (fun hmem => hfront (List.mem_cons_of_mem _ hmem)) hrest hmore hoccurs
      exact ⟨rest', rfl, hfound⟩
    | number =>
      obtain ⟨rfl, -⟩ := List.cons.inj htext
      exact absurd List.mem_cons_self hfront

end Redigited

section Dollars

variable (u : CharTables) {rest rest' : List Char}

theorem findText_infix (pattern : List Char) (text : List Char) : (findText pattern text).isSome = true ↔ pattern <:+: text := by
  constructor
  · intro h
    obtain ⟨k, hk⟩ := Option.isSome_iff_exists.1 h
    obtain ⟨front, after, rfl, -⟩ := findText_split hk
    exact ⟨front, after, List.append_assoc ..⟩
  · intro h
    induction text with
    | nil =>
      obtain rfl := List.infix_nil.1 h
      rfl
    | cons ch text ih =>
      rw [findText]
      split_ifs with hprefix
      · rfl
      · rcases List.infix_cons_iff.1 h with hfront | hmore
        · exact absurd (List.isPrefixOf_iff_prefix.2 hfront) hprefix
        · rw [Option.isSome_map, ih hmore]

/-- The tag that a `$` opens, and what the delimiter is. -/
theorem dollarTagLen_tag {n : ℕ} (h : dollarTagLen u ('$' :: rest) = some n) : ∃ tag after, rest = tag ++ '$' :: after ∧
    n = (dollarQuote tag).length ∧ TagText tag ∧ ∀ after', dollarTagLen u ('$' :: (tag ++ '$' :: after')) = some n := by
  obtain ⟨tag, after, rfl, rfl, hall⟩ := dollarTagLen_some u h
  refine ⟨tag, after, rfl, by simp [dollarQuote], ?_, hall⟩
  obtain ⟨tag', after', hrest, htake, -, -⟩ := takeWhile_span (fun ch => ch != '$') (tag ++ '$' :: after)
  have hplain : '$' ∉ tag' := by
    intro hmem
    rw [← htake] at hmem
    exact absurd (List.mem_takeWhile_imp hmem) (by decide)
  simp only [dollarTagLen, List.drop_succ_cons, List.drop_zero, htake] at h
  split_ifs at h with hlen hok
  obtain rfl : tag = tag' := List.append_inj_left hrest (by have hn := Option.some.inj h; omega)
  simp only [Bool.and_eq_true, Bool.not_eq_true'] at hok
  exact ⟨hplain, hok.1⟩

/-- A dollar quote that is open to the end in the one text is so in the other. -/
theorem Redigited.dollar (h : Redigited rest rest') : (dollarLen u ('$' :: rest)).isSome = true → (dollarLen u ('$' :: rest')).isSome = true := by
  intro hsome
  cases hopening : dollarTagLen u ('$' :: rest) with
  | none =>
    rw [dollarLen, hopening] at hsome
    cases hsome
  | some n =>
    obtain ⟨tag, after, htext, rfl, hplain, hall⟩ := dollarTagLen_tag u hopening
    have hval : ∀ after', (dollarLen u ('$' :: (tag ++ '$' :: after'))).isSome = true ↔ dollarQuote tag <:+: after' := by
      intro after'
      have hsplit : '$' :: (tag ++ '$' :: after') = dollarQuote tag ++ after' := by simp [dollarQuote]
      rw [dollarLen, hall after']
      dsimp only
      rw [hsplit, List.take_left, List.drop_left, Option.isSome_map, findText_infix]
    rw [htext, hval] at hsome
    obtain ⟨after', rfl, hfound⟩ := h.closes hplain hplain.plain htext hsome
    exact (hval after').2 hfound

theorem Redigited.dollar_none (h : Redigited rest rest') (hnone : dollarLen u ('$' :: rest) = none) : dollarLen u ('$' :: rest') = none := by
  rw [← Option.not_isSome_iff_eq_none] at hnone ⊢
  exact fun hsome => hnone (h.symm.dollar u hsome)

end Dollars

section Shifted

variable {u : CharTables} {before before' : List Char} {first : Char} {rest : List Char}

/-- A parameter of the standard reading is a `$` and the digits behind it. -/
theorem lexToken_parameter (h : (lexToken u false before first rest).1 = .parameter) : first = '$' ∧
    ∃ digits after, rest = digits ++ after ∧ digits ≠ [] ∧ digits.all Char.isDigit = true ∧ after.head?.any Char.isDigit = false ∧
      lexToken u false before first rest = (.parameter, digits.length + 1) := by
  by_cases hdollar : first = '$'
  · subst hdollar
    obtain ⟨hlex, -⟩ := lexToken_dollar u before rest
    rw [hlex] at h ⊢
    cases hlen : dollarLen u ('$' :: rest) with
    | some n =>
      rw [hlen] at h
      cases h
    | none =>
      rw [hlen] at h
      obtain ⟨digits, after, rfl, htake, hnext, -⟩ := takeWhile_span Char.isDigit rest
      dsimp only at h
      rw [htake] at h ⊢
      have hpos : 1 < 1 + digits.length := by
        by_contra hnot
        rw [if_neg hnot] at h
        cases h
      refine ⟨rfl, digits, after, rfl, ?_, ?_, hnext, Prod.ext (if_pos hpos) (Nat.add_comm 1 _)⟩
      · rintro rfl
        exact absurd hpos (by decide)
      · rw [List.all_eq_true]
        intro ch hch
        rw [← htake] at hch
        exact List.mem_takeWhile_imp hch
  · simp only [lexToken, if_neg hdollar, Bool.false_eq_true, false_and, if_false] at h
    split_ifs at h

/-- A token that is left open, a lone `$` apart, is the rest of the text. -/
theorem lexToken_unclosed (hspace : spaceChar false first = false) (hdollar : first ≠ '$')
    (hclosed : closedToken u false before first rest = false) : (lexToken u false before first rest).2 = rest.length + 1 := by
  by_cases hcomment : startsComment first rest
  · rcases hcomment with ⟨rfl, h⟩ | ⟨rfl, h⟩
    · obtain ⟨hlex, hclose⟩ := lexToken_line u false before h
      rw [hclose, List.contains_eq_mem, decide_eq_false_iff_not] at hclosed
      rw [hlex, List.takeWhile_eq_self_iff.2]
      · rfl
      · intro ch hch
        rw [bne_iff_ne]
        rintro rfl
        exact hclosed hch
    · obtain ⟨hlex, hclose⟩ := lexToken_block u false before h
      rw [hclose] at hclosed
      obtain ⟨rest', rfl⟩ := List.head?_eq_some_iff.1 h
      rw [hlex]
      exact (blockCommentFrom_open _ rest' false 1 2 hclosed).trans (Nat.add_comm 2 _)
  by_cases hquote : first = '\'' ∨ first = '"' ∨ first = '`' ∨ first = '['
  · obtain ⟨hlex, hclose⟩ := lexToken_quote u false before hquote rest
    rw [hclose, beq_eq_false_iff_ne] at hclosed
    have hmode : (if !false && first == '\'' && opensEscaped u before then EscapeMode.backslash else .doubled) ≠ .rejectAmbiguous := by
      split_ifs <;> decide
    rw [hlex]
    exact quotedEnd_open hmode _ _ _ hclosed
  · have hparameter : ¬(false = true ∧ (first = '$' ∨ first = ':' ∨ first = '@' ∨ first = '#')) := fun h => Bool.false_ne_true h.1
    rw [(lexToken_plain u false before hspace hcomment hquote hparameter hdollar).2] at hclosed
    cases hclosed

/-- A token that is no parameter stands before the shifted text as it did before the other. -/
theorem Redigited.token {body after after' : List Char} {kind : Kind} (h : Redigited after after')
    (hsame : opensEscaped u before = opensEscaped u before') (hlex : lexToken u false before first (body ++ after) = (kind, body.length + 1))
    (hkind : kind ≠ .parameter) : lexToken u false before' first (body ++ after') = (kind, body.length + 1) := by
  rw [← (lexToken_before false first (body ++ after') hsame).1]
  have hhead := h.head
  by_cases hspace : spaceChar false first = true
  · have hold := (@lexToken_space u false first hspace before (body ++ after)).1
    have hnew := (@lexToken_space u false first hspace before (body ++ after')).1
    obtain ⟨body', after'', htext, htake, hnext, hall⟩ := takeWhile_span (spaceChar false) (body ++ after)
    rw [hold, htake] at hlex
    obtain ⟨rfl, hlen⟩ := Prod.mk.inj hlex
    obtain ⟨rfl, rfl⟩ := List.append_inj htext (Nat.succ.inj hlen).symm
    rw [hnew, hall after' (by rwa [hhead])]
  rw [Bool.not_eq_true] at hspace
  by_cases hdollar : first = '$'
  · subst hdollar
    have hold := (lexToken_dollar u before (body ++ after)).1
    have hnew := (lexToken_dollar u before (body ++ after')).1
    cases hlen : dollarLen u ('$' :: (body ++ after)) with
    | some n =>
      obtain ⟨body', after'', htext, hn, hall⟩ := dollarLen_span u hlen
      rw [hold, hlen] at hlex
      obtain ⟨rfl, hbody⟩ := Prod.mk.inj hlex
      obtain ⟨rfl, rfl⟩ := List.append_inj htext (by omega)
      rw [hnew, hall after', hn]
    | none =>
      rw [hold, hlen] at hlex
      obtain ⟨hwhich, hbody⟩ := Prod.mk.inj hlex
      have hnodigits : ¬1 < 1 + ((body ++ after).takeWhile Char.isDigit).length := fun hlt => hkind (hwhich.symm.trans (if_pos hlt))
      obtain rfl : body = [] := List.length_eq_zero_iff.1 (by omega)
      have hnext : after.head?.any Char.isDigit = false := by
        cases after with
        | nil => rfl
        | cons ch after =>
          by_contra hdigit
          rw [List.head?_cons, Option.any_some, Bool.not_eq_false] at hdigit
          simp [hdigit] at hnodigits
      have hnext' : after'.takeWhile Char.isDigit = [] := by
        have hends := @takeWhile_ends Char.isDigit [] after' (fun _ h => absurd h List.not_mem_nil)
        refine hends fun ch hch => ?_
        rw [hhead] at hch
        rw [hch] at hnext
        simpa using hnext
      rw [List.nil_append] at hlen hnew ⊢
      rw [if_neg hnodigits] at hwhich
      rw [hnew, h.dollar_none u hlen, hnext', ← hwhich]
      rfl
  cases hclosed : closedToken u false before first (body ++ after) with
  | true =>
    obtain ⟨body', after'', hspan⟩ := closedToken_spans false before hspace hclosed
    have hlen := hspan.len
    rw [hlex] at hlen
    obtain ⟨rfl, rfl⟩ := List.append_inj hspan.text (Nat.succ.inj hlen)
    have hfollows : Follows u (lexToken u false before first (body ++ after)).1 after after' :=
      ⟨fun _ _ _ => by rw [hhead], fun _ => by rw [hhead], fun hline => by rw [hhead, hline]⟩
    rw [(hspan.swap after' hfollows fun hfirst => absurd hfirst hdollar).1, hlex]
  | false =>
    have hlen := lexToken_unclosed hspace hdollar hclosed
    rw [hlex, List.length_append] at hlen
    obtain rfl : after = [] := List.length_eq_zero_iff.1 (by omega)
    cases h
    exact hlex

end Shifted

/-- Other digits behind the `$` of each parameter, and no other change. -/
structure Remarks (shift : Kind × List Char → Kind × List Char) : Prop where
  parameter : ∀ digits : List Char, digits ≠ [] → digits.all Char.isDigit = true →
    ∃ digits', digits' ≠ [] ∧ digits'.all Char.isDigit = true ∧ shift (.parameter, '$' :: digits) = (.parameter, '$' :: digits')
  other : ∀ token : Kind × List Char, token.1 ≠ .parameter → shift token = token

section Read

variable {u : CharTables} {shift : Kind × List Char → Kind × List Char}

theorem Takes.digits {before after text : List Char} (h : Takes (lexToken u false) before (.parameter, text) after) :
    ∃ digits, text = '$' :: digits ∧ digits ≠ [] ∧ digits.all Char.isDigit = true ∧ after.head?.any Char.isDigit = false := by
  obtain ⟨first, body, n, htext, hlex, hlen⟩ := h.found
  obtain ⟨rfl, digits, after', hrest, hne, hdigits, hnext, hparameter⟩ := @lexToken_parameter u before first (body ++ after) (by rw [hlex])
  have hn : n = digits.length := Nat.succ.inj (congrArg Prod.snd (hlex.symm.trans hparameter))
  have hbody : body.length = digits.length := by
    rcases hlen with hbody | ⟨hlt, rfl⟩
    · omega
    · have hwhole := congrArg List.length hrest
      rw [List.append_nil, List.length_append] at hwhole
      omega
  obtain ⟨rfl, rfl⟩ := List.append_inj hrest hbody
  exact ⟨body, htext, hne, hdigits, hnext⟩

/-- A changed token says as much of what follows as the token did. -/
theorem Remarks.before (h : Remarks shift) {before before' after : List Char} {token : Kind × List Char}
    (hsame : SameBefore u before before' (token.2 ++ after)) (htakes : Takes (lexToken u false) before token after) :
    SameBefore u (token.2.reverse ++ before) ((shift token).2.reverse ++ before') after := by
  obtain ⟨first, body, n, htext, -⟩ := htakes.found
  obtain ⟨kind, text⟩ := token
  by_cases hkind : kind = .parameter
  · subst hkind
    obtain ⟨digits, rfl, hne, hdigits, -⟩ := htakes.digits
    obtain ⟨digits', hne', hdigits', hshift⟩ := h.parameter digits hne hdigits
    rw [hshift]
    exact sameBefore_digits (head_digits hne hdigits before) (head_digits hne' hdigits' before') after
  · rw [h.other _ hkind]
    dsimp only at htext
    subst htext
    exact hsame.token body after

/-- One token and its change, before a text and its change. -/
theorem Remarks.takes (h : Remarks shift) {before before' after after' : List Char} {token : Kind × List Char}
    (hafter : Redigited after after') (hsame : SameBefore u before before' (token.2 ++ after))
    (htakes : Takes (lexToken u false) before token after) :
    Takes (lexToken u false) before' (shift token) after' ∧ Redigited (token.2 ++ after) ((shift token).2 ++ after') := by
  obtain ⟨kind, text⟩ := token
  by_cases hkind : kind = .parameter
  · subst hkind
    obtain ⟨digits, rfl, hne, hdigits, hnext⟩ := htakes.digits
    obtain ⟨digits', hne', hdigits', hshift⟩ := h.parameter digits hne hdigits
    have hnext' : after'.head?.any Char.isDigit = false := by rwa [hafter.head]
    rw [hshift]
    exact ⟨⟨'$', digits', digits'.length, rfl, (lexToken_digits before' hne' hdigits' hnext').1, Or.inl rfl⟩,
      .number hne hne' hdigits hdigits' hafter⟩
  · obtain ⟨first, body, n, htext, hlex, hlen⟩ := htakes.found
    rw [h.other _ hkind]
    refine ⟨?_, hafter.behind _⟩
    rcases hlen with rfl | ⟨hlt, rfl⟩
    · exact ⟨first, body, body.length, htext, hafter.token hsame.escaped hlex hkind, Or.inl rfl⟩
    · cases hafter
      exact ⟨first, body, n, htext, (lexToken_before false first (body ++ []) hsame.escaped).1.symm.trans hlex, Or.inr ⟨hlt, rfl⟩⟩

/-- The changed text is read as the changed tokens. -/
theorem Remarks.read (h : Remarks shift) (k : ℕ) : ∀ text before before' : List Char, text.length ≤ k → SameBefore u before before' text →
    Redigited text (textOf ((readFrom (lexToken u false) 0 before text).map shift)) ∧
      readFrom (lexToken u false) 0 before' (textOf ((readFrom (lexToken u false) 0 before text).map shift)) =
        (readFrom (lexToken u false) 0 before text).map shift := by
  induction k with
  | zero =>
    intro text before before' hlen _
    rw [List.length_eq_zero_iff.1 (Nat.le_zero.1 hlen)]
    exact ⟨.nil, rfl⟩
  | succ k ih =>
    intro text before before' hlen hsame
    cases hread : readFrom (lexToken u false) 0 before text with
    | nil =>
      have htext := textOf_readFrom (@lexToken_positive u) before text
      rw [hread] at htext
      rw [← htext]
      exact ⟨.nil, rfl⟩
    | cons token tail =>
      obtain ⟨after, rfl, htakes, htail⟩ := readFrom_eq_cons (@lexToken_positive u) hread
      obtain ⟨first, body, n, htoken, -⟩ := htakes.found
      have hshorter : after.length ≤ k := by
        rw [htoken, List.length_append, List.length_cons] at hlen
        omega
      obtain ⟨hsimilar, htail'⟩ := ih after _ _ hshorter (h.before hsame htakes)
      rw [htail] at hsimilar htail'
      obtain ⟨htakes', hwhole⟩ := h.takes hsimilar hsame htakes
      rw [List.map_cons, textOf_cons]
      exact ⟨hwhole, by rw [htakes'.read, htail']⟩

end Read

section Shift

variable (u : CharTables)

/-- The number of a parameter. -/
def Token.marker (t : Token) : Option ℕ := if t.kind = .parameter then some (Lib.digitsValue (t.text.drop 1)) else none

/-- Shifted by `offset`, no number of the text leaves the `usize` values. -/
def NoOverflow (sql : List Char) (offset : ℕ) : Prop := ∀ t ∈ tokens u sql, ∀ n ∈ t.marker, 0 < n → n + offset < usizeLimit

/-- `t'` is `t` with its number shifted; a text that is not shifted at all keeps its spelling. -/
structure Shifted (offset : ℕ) (t t' : Token) : Prop where
  kind : t'.kind = t.kind
  marker : ∀ n ∈ t.marker, 0 < n → t'.marker = some (n + offset) ∧ (0 < offset → t'.text = '$' :: decimal (n + offset))
  same : (∀ n ∈ t.marker, 0 < n → offset = 0) → t'.text = t.text

theorem remarks_offset (offset : ℕ) : Remarks fun token => (token.1, offsetToken offset token.1 token.2) := by
  constructor
  · intro digits hne hdigits
    dsimp only
    rw [offsetToken, if_pos rfl]
    split
    · split_ifs
      · exact ⟨_, decimal_ne_nil _, decimal_digits _, rfl⟩
      · exact ⟨digits, hne, hdigits, rfl⟩
    · exact ⟨digits, hne, hdigits, rfl⟩
  · intro token hkind
    rw [offsetToken, if_neg hkind]

theorem placed_pairs (start : ℕ) (run : List (Kind × List Char)) : (placed start run).map (fun t => (t.kind, t.text)) = run := by
  induction run generalizing start with
  | nil => rfl
  | cons token run ih => rw [placed, List.map_cons, ih]

variable {u} {sql : List Char} {offset : ℕ}

theorem offsetPostgresPlaceholders_eq (hoffset : 0 < offset) : offsetPostgresPlaceholders u sql offset =
    textOf ((readFrom (lexToken u false) 0 [] sql).map fun token => (token.1, offsetToken offset token.1 token.2)) := by
  have hmap := placed_pairs 0 (readFrom (lexToken u false) 0 [] sql)
  rw [← tokens_placed] at hmap
  rw [offsetPostgresPlaceholders, if_neg hoffset.ne', ← hmap, List.map_map, textOf, List.flatMap_map]
  rfl

theorem readFrom_offset (hoffset : 0 < offset) : readFrom (lexToken u false) 0 [] (offsetPostgresPlaceholders u sql offset) =
    (readFrom (lexToken u false) 0 [] sql).map fun token => (token.1, offsetToken offset token.1 token.2) := by
  rw [offsetPostgresPlaceholders_eq hoffset]
  exact ((remarks_offset offset).read sql.length sql [] [] (Nat.le_refl _) ⟨rfl, fun _ => rfl⟩).2

theorem foldl_digitsValue (text : List Char) : text.foldl (fun n ch => 10 * n + (ch.toNat - 48)) 0 = Lib.digitsValue text := by
  induction text using List.reverseRecOn with
  | nil => rfl
  | append_singleton text ch ih =>
    have hone : Lib.digitsValue [ch] = ch.toNat - 48 := Lib.radixValue_singleton 10 _
    rw [List.foldl_append, ih, Lib.digitsValue_append, hone, List.length_singleton, Nat.pow_one, Nat.mul_comm]
    rfl

theorem parseUsize_digits {digits : List Char} (hne : digits ≠ []) (hdigits : digits.all Char.isDigit = true) :
    parseUsize digits = if Lib.digitsValue digits < usizeLimit then some (Lib.digitsValue digits) else none := by
  simp only [parseUsize, foldl_digitsValue]
  by_cases h : Lib.digitsValue digits < usizeLimit
  · rw [if_pos ⟨hne, hdigits, h⟩, if_pos h]
  · rw [if_neg fun hall => h hall.2.2, if_neg h]

theorem parameter_digits {token : Kind × List Char} (hmem : token ∈ readFrom (lexToken u false) 0 [] sql) (hkind : token.1 = .parameter) :
    ∃ digits, token.2 = '$' :: digits ∧ digits ≠ [] ∧ digits.all Char.isDigit = true := by
  obtain ⟨front, back, hsplit⟩ := List.append_of_mem hmem
  obtain ⟨text, -, hread⟩ := readFrom_eq_append (@lexToken_positive u) hsplit
  obtain ⟨after, -, htakes, -⟩ := readFrom_eq_cons (@lexToken_positive u) hread
  obtain ⟨kind, text⟩ := token
  dsimp only at hkind
  subst hkind
  obtain ⟨digits, htext, hne, hdigits, -⟩ := htakes.digits
  exact ⟨digits, htext, hne, hdigits⟩

/-- What shifting does to a marker whose number stays a `usize`. -/
theorem offsetToken_digits {digits : List Char} (hne : digits ≠ []) (hdigits : digits.all Char.isDigit = true)
    (hbound : 0 < Lib.digitsValue digits → Lib.digitsValue digits + offset < usizeLimit) :
    offsetToken offset .parameter ('$' :: digits) =
      if 0 < Lib.digitsValue digits then '$' :: decimal (Lib.digitsValue digits + offset) else '$' :: digits := by
  have hlimit : 0 < usizeLimit := by decide
  have hless : Lib.digitsValue digits < usizeLimit := by omega
  simp only [offsetToken, if_pos, List.drop_succ_cons, List.drop_zero]
  rw [parseUsize_digits hne hdigits, if_pos hless]
  dsimp only
  by_cases hpos : 0 < Lib.digitsValue digits
  · rw [if_pos ⟨hpos, hbound hpos⟩, if_pos hpos]
  · rw [if_neg fun h => hpos h.1, if_neg hpos]

theorem NoOverflow.run (h : NoOverflow u sql offset) {digits : List Char}
    (hmem : (Kind.parameter, '$' :: digits) ∈ readFrom (lexToken u false) 0 [] sql) :
    0 < Lib.digitsValue digits → Lib.digitsValue digits + offset < usizeLimit := by
  rw [← placed_pairs 0 (readFrom (lexToken u false) 0 [] sql), ← tokens_placed] at hmem
  obtain ⟨t, ht, heq⟩ := List.mem_map.1 hmem
  obtain ⟨hkind, htext⟩ := Prod.mk.inj heq
  exact h t ht _ (by rw [Token.marker, if_pos hkind, htext]; rfl)

theorem shifted_token (hoffset : 0 < offset) (h : NoOverflow u sql offset) {token : Kind × List Char}
    (hmem : token ∈ readFrom (lexToken u false) 0 [] sql) (start start' : ℕ) :
    Shifted offset ⟨token.2, start, token.1⟩ ⟨offsetToken offset token.1 token.2, start', token.1⟩ := by
  by_cases hkind : token.1 = .parameter
  · obtain ⟨digits, htext, hne, hdigits⟩ := parameter_digits hmem hkind
    obtain ⟨kind, text⟩ := token
    dsimp only at hkind htext
    subst hkind htext
    have hshift := @offsetToken_digits offset digits hne hdigits (h.run hmem)
    have hold : Token.marker ⟨'$' :: digits, start, .parameter⟩ = some (Lib.digitsValue digits) := rfl
    refine ⟨rfl, fun n hn hpos => ?_, fun hnone => ?_⟩
    · obtain rfl : Lib.digitsValue digits = n := Option.some.inj (hold.symm.trans hn)
      rw [if_pos hpos] at hshift
      refine ⟨?_, fun _ => hshift⟩
      dsimp only
      rw [hshift, Token.marker, if_pos rfl, List.drop_succ_cons, List.drop_zero, decimal, Lib.digitsValue_toDigits]
    · have hzero : ¬0 < Lib.digitsValue digits := fun hpos => absurd (hnone _ hold hpos) hoffset.ne'
      rw [if_neg hzero] at hshift
      exact hshift
  · have hmarker : ∀ text start, Token.marker ⟨text, start, token.1⟩ = none := fun text start => if_neg hkind
    have hshift : offsetToken offset token.1 token.2 = token.2 := if_neg hkind
    exact ⟨rfl, fun n hn => absurd ((hmarker _ _).symm.trans hn) (Option.some_ne_none n).symm, fun _ => hshift⟩

theorem forall_placed {R : Token → Token → Prop} {shift : Kind × List Char → Kind × List Char} {run : List (Kind × List Char)}
    (h : ∀ token ∈ run, ∀ start start', R ⟨token.2, start, token.1⟩ ⟨(shift token).2, start', (shift token).1⟩) :
    ∀ start start', List.Forall₂ R (placed start run) (placed start' (run.map shift)) := by
  induction run with
  | nil => exact fun _ _ => .nil
  | cons token run ih =>
    intro start start'
    rw [List.map_cons, placed, placed]
    exact .cons (h token List.mem_cons_self start start') (ih (fun other hother => h other (List.mem_cons_of_mem _ hother)) _ _)

theorem tokens_shifted (h : NoOverflow u sql offset) :
    List.Forall₂ (Shifted offset) (tokens u sql) (tokens u (offsetPostgresPlaceholders u sql offset)) := by
  rcases Nat.eq_zero_or_pos offset with rfl | hoffset
  · rw [offsetPostgresPlaceholders, if_pos rfl, List.forall₂_same]
    refine fun t _ => ⟨rfl, fun n hn _ => ⟨hn, fun hlt => absurd hlt (Nat.lt_irrefl 0)⟩, fun _ => rfl⟩
  · rw [tokens_placed, tokens_placed, readFrom_offset hoffset]
    exact forall_placed (fun token hmem start start' => shifted_token hoffset h hmem start start') 0 0

theorem offset_offset {a b : ℕ} (h : NoOverflow u sql (a + b)) :
    offsetPostgresPlaceholders u (offsetPostgresPlaceholders u sql a) b = offsetPostgresPlaceholders u sql (a + b) := by
  rcases Nat.eq_zero_or_pos a with rfl | ha
  · rw [Nat.zero_add, offsetPostgresPlaceholders.eq_1 u sql 0, if_pos rfl]
  rcases Nat.eq_zero_or_pos b with rfl | hb
  · rw [Nat.add_zero, offsetPostgresPlaceholders.eq_1 u _ 0, if_pos rfl]
  rw [offsetPostgresPlaceholders_eq hb, readFrom_offset ha, offsetPostgresPlaceholders_eq (Nat.add_pos_left ha b), List.map_map]
  refine congrArg textOf (List.map_congr_left fun token hmem => ?_)
  dsimp only [Function.comp_apply]
  refine Prod.ext rfl ?_
  dsimp only
  by_cases hkind : token.1 = .parameter
  · obtain ⟨digits, htext, hne, hdigits⟩ := parameter_digits hmem hkind
    obtain ⟨kind, text⟩ := token
    dsimp only at hkind htext
    subst hkind htext
    have hbound := h.run hmem
    rw [offsetToken_digits hne hdigits hbound, offsetToken_digits hne hdigits fun hpos => by have := hbound hpos; omega]
    by_cases hpos : 0 < Lib.digitsValue digits
    · have hvalue : Lib.digitsValue (decimal (Lib.digitsValue digits + a)) = Lib.digitsValue digits + a := Lib.digitsValue_toDigits _
      have hsum := hbound hpos
      rw [if_pos hpos, if_pos hpos, offsetToken_digits (decimal_ne_nil _) (decimal_digits _), hvalue, if_pos (by omega), Nat.add_assoc]
      rw [hvalue]
      omega
    · rw [if_neg hpos, if_neg hpos, offsetToken_digits hne hdigits fun hlt => absurd hlt hpos, if_neg hpos]
  · simp only [offsetToken, if_neg hkind]

end Shift

section Templates

/-- A `?` that stands for a value. -/
def Token.isMark (t : Token) : Prop := t.text = ['?'] ∧ t.kind = .symbol

def texts (ts : List Token) : List Char := ts.flatMap Token.text

theorem texts_cons (t : Token) (ts : List Token) : texts (t :: ts) = t.text ++ texts ts := List.flatMap_cons

theorem texts_append (front back : List Token) : texts (front ++ back) = texts front ++ texts back := List.flatMap_append

/-- `rendered` is the text of `ts` with each mark replaced by `next` of its number, from `first` on; there are `count` of them. -/
def Marked (next : ℕ → List Char) (ts : List Token) (first count : ℕ) (rendered : List Char) : Prop :=
  ∃ (front : List Token) (parts : List (Token × List Token)), ts = front ++ parts.flatMap (fun p => p.1 :: p.2) ∧
    (∀ t ∈ front, ¬t.isMark) ∧ (∀ p ∈ parts, p.1.isMark ∧ ∀ t ∈ p.2, ¬t.isMark) ∧ parts.length = count ∧
    rendered = texts front ++ (parts.zipIdx first).flatMap fun p => next p.2 ++ texts p.1.2

theorem mapTemplatePlaceholders_marked (next : ℕ → List Char) (ts : List Token) : ∀ first,
    Marked next ts first (ts.countP fun t => t.text = ['?'] ∧ t.kind = .symbol) (mapTemplatePlaceholders next first ts) := by
  induction ts with
  | nil => exact fun _ => ⟨[], [], rfl, fun _ h => absurd h List.not_mem_nil, fun _ h => absurd h List.not_mem_nil, rfl, rfl⟩
  | cons t ts ih =>
    intro first
    by_cases hmark : t.text = ['?'] ∧ t.kind = .symbol
    · obtain ⟨front, parts, hts, hfront, hparts, hcount, hrendered⟩ := ih (first + 1)
      refine ⟨[], (t, front) :: parts, ?_, fun _ h => absurd h List.not_mem_nil, ?_, ?_, ?_⟩
      · rw [hts]
        rfl
      · intro p hp
        rcases List.mem_cons.1 hp with rfl | hp
        · exact ⟨hmark, hfront⟩
        · exact hparts p hp
      · rw [List.countP_cons_of_pos (by simpa using hmark), List.length_cons, hcount]
      · rw [mapTemplatePlaceholders, if_pos hmark, hrendered, List.zipIdx_cons, List.flatMap_cons, List.append_assoc]
        rfl
    · obtain ⟨front, parts, hts, hfront, hparts, hcount, hrendered⟩ := ih first
      refine ⟨t :: front, parts, by rw [hts]; rfl, ?_, hparts, ?_, ?_⟩
      · intro other hother
        rcases List.mem_cons.1 hother with rfl | hother
        · exact hmark
        · exact hfront other hother
      · rw [List.countP_cons_of_neg (by simpa using hmark), hcount]
      · rw [mapTemplatePlaceholders, if_neg hmark, hrendered, texts_cons, List.append_assoc]

/-- Only the numbers that are given out matter. -/
theorem Marked.congr {next next' : ℕ → List Char} {ts : List Token} {first count : ℕ} {rendered : List Char}
    (h : Marked next ts first count rendered) (heq : ∀ index, first ≤ index → index < first + count → next' index = next index) :
    Marked next' ts first count rendered := by
  obtain ⟨front, parts, hts, hfront, hparts, rfl, hrendered⟩ := h
  refine ⟨front, parts, hts, hfront, hparts, rfl, hrendered.trans (congrArg (texts front ++ ·) ?_)⟩
  refine List.flatMap_congr fun p hp => ?_
  have hbounds := List.mem_zipIdx hp
  rw [heq p.2 hbounds.1 hbounds.2.1]

/-- The length of a rendering with markers of one length. -/
theorem Marked.length {next : ℕ → List Char} {ts : List Token} {first count len : ℕ} {rendered : List Char}
    (h : Marked next ts first count rendered) (hnext : ∀ index, first ≤ index → index < first + count → (next index).length = len) :
    rendered.length + count = (texts ts).length + count * len := by
  obtain ⟨front, parts, rfl, -, hparts, rfl, rfl⟩ := h
  have hall : ∀ (parts : List (Token × List Token)) (first : ℕ), (∀ p ∈ parts, p.1.isMark) →
      (∀ index, first ≤ index → index < first + parts.length → (next index).length = len) →
      ((parts.zipIdx first).flatMap fun p => next p.2 ++ texts p.1.2).length + parts.length =
        (texts (parts.flatMap fun p => p.1 :: p.2)).length + parts.length * len := by
    intro parts
    induction parts with
    | nil => exact fun _ _ _ => by simp [texts]
    | cons p parts ih =>
      intro first hparts hnext
      have hmark := congrArg List.length (hparts p List.mem_cons_self).1
      have hfirst := hnext first (Nat.le_refl _) (by rw [List.length_cons]; omega)
      have hrest := ih (first + 1) (fun q hq => hparts q (List.mem_cons_of_mem _ hq)) fun index hle hlt => hnext index (by omega)
        (by rw [List.length_cons]; omega)
      rw [List.zipIdx_cons, List.flatMap_cons, List.flatMap_cons, List.cons_append, texts_cons, texts_append]
      simp only [List.length_append, List.length_cons, hmark, hfirst, List.length_nil, Nat.add_mul, Nat.one_mul] at hrest ⊢
      omega
  have hrest := hall parts first (fun p hp => (hparts p hp).1) hnext
  rw [texts_append, List.length_append, List.length_append]
  omega

end Templates

/-- Shifting the markers of a text commutes with reading it, shifts add up, and a template's marks become markers with
consecutive numbers, as long as the numbers are `usize` values. -/
theorem placeholders_shift (u : CharTables) :
    (∀ sql offset, NoOverflow u sql offset →
      List.Forall₂ (Shifted offset) (tokens u sql) (tokens u (offsetPostgresPlaceholders u sql offset))) ∧
    (∀ sql a b, NoOverflow u sql (a + b) →
      offsetPostgresPlaceholders u (offsetPostgresPlaceholders u sql a) b = offsetPostgresPlaceholders u sql (a + b)) ∧
    ∀ db template first, first + countTemplatePlaceholders u template ≤ usizeLimit →
      Marked (placeholder db) (tokens u template) first (countTemplatePlaceholders u template) (renderTemplateUsize u db template first) := by
  refine ⟨fun sql offset h => tokens_shifted h, fun sql a b h => offset_offset h, fun db template first hlimit => ?_⟩
  refine (mapTemplatePlaceholders_marked _ (tokens u template) first).congr fun index _ hlt => ?_
  rw [Nat.mod_eq_of_lt (Nat.lt_of_lt_of_le hlt hlimit)]

theorem placeholders_shift_between :
    List.Forall₂ (Shifted 3) (tokens asciiTables "a=$1'$1'$$2$03".toList)
      (tokens asciiTables (offsetPostgresPlaceholders asciiTables "a=$1'$1'$$2$03".toList 3)) ∧
    offsetPostgresPlaceholders asciiTables (offsetPostgresPlaceholders asciiTables "a=$1'$1'$$2$03".toList 1) 2 =
      offsetPostgresPlaceholders asciiTables "a=$1'$1'$$2$03".toList 3 ∧
    Marked (placeholder .postgres) (tokens asciiTables "a=?'?'".toList) 5 1 (renderTemplateUsize asciiTables .postgres "a=?'?'".toList 5) := by
  obtain ⟨hshift, hsum, hmarks⟩ := placeholders_shift asciiTables
  have hfits : NoOverflow asciiTables "a=$1'$1'$$2$03".toList 3 := by
    unfold NoOverflow
    decide
  exact ⟨hshift _ 3 hfits, hsum _ 1 2 hfits, hmarks .postgres "a=?'?'".toList 5 (by decide)⟩

/-- The last `usize` is followed by 0. -/
theorem marks_wrap : countTemplatePlaceholders asciiTables ['?', '?'] = 2 ∧ ¬Marked (placeholder .postgres)
    (tokens asciiTables ['?', '?']) (usizeLimit - 1) 2 (renderTemplateUsize asciiTables .postgres ['?', '?'] (usizeLimit - 1)) := by
  refine ⟨by decide, fun h => ?_⟩
  have hlast : (decimal (usizeLimit - 1)).length = 20 := by decide +kernel
  have hnext : (decimal usizeLimit).length = 20 := by decide +kernel
  have hlen := @Marked.length _ _ _ _ 21 _ h fun index hle hlt => by
    have hlimit : 0 < usizeLimit := by decide
    obtain rfl | rfl : index = usizeLimit - 1 ∨ index = usizeLimit := by omega
    · exact congrArg (· + 1) hlast
    · exact congrArg (· + 1) hnext
  have hrendered : (renderTemplateUsize asciiTables .postgres ['?', '?'] (usizeLimit - 1)).length = 23 := by decide +kernel
  have htexts : (texts (tokens asciiTables ['?', '?'])).length = 2 := by decide
  omega

end TideOrm
