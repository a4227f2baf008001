import TideOrm.Lib.Decimal
import TideOrm.Spec.SqlText
import TideOrm.Sanity.SqlLexer

/-! Where a closed token ends depends on its own characters and the one after it, so
complete texts can be read apart when what stands between them breaks words. -/

namespace TideOrm

/-- A character that ends any closed token before it and begins none but itself. -/
def isBreak (ch : Char) : Bool := isWhitespace ch || ch == ',' || ch == ')' || ch == '.'

section Break

variable (u : CharTables) {ch : Char}

theorem isBreak_cases (h : isBreak ch = true) :
    isWhitespace ch = true ∨ ch = ',' ∨ ch = ')' ∨ ch = '.' := by
  simpa only [isBreak, Bool.or_eq_true, beq_iff_eq, or_assoc] using h

theorem isBreak_ne {other : Char} (h : isBreak ch = true) (hother : isBreak other = false) : ch ≠ other := by
  rintro rfl
  rw [h] at hother
  cases hother

theorem isAlphanumeric_ascii (h : isAscii ch = true) : u.isAlphanumeric ch = (ch.isAlpha || ch.isDigit) := by
  rw [CharTables.isAlphanumeric, (u.ascii ch h).1, (u.ascii ch h).2]

theorem identifierChar_ascii (h : isAscii ch = true) :
    identifierChar u ch = (ch == '_' || ch == '$' || (ch.isAlpha || ch.isDigit)) := by
  rw [identifierChar, isAlphanumeric_ascii u h]

theorem isAscii_of_isDigit (h : ch.isDigit = true) : isAscii ch = true := by
  have := Lib.toNat_of_isDigit h
  simp only [isAscii, decide_eq_true_eq]
  omega

theorem isDigit_isBreak (h : isBreak ch = true) : ch.isDigit = false := by
  rw [Bool.eq_false_iff]
  intro hdigit
  have hbounds := Lib.toNat_of_isDigit hdigit
  rcases isBreak_cases h with hspace | rfl | rfl | rfl
  · simp only [isWhitespace, Bool.or_eq_true, beq_iff_eq, decide_eq_true_eq] at hspace
    omega
  all_goals exact absurd hdigit (by decide)

end Break

section Runs

theorem takeWhile_span (p : Char → Bool) (text : List Char) :
    ∃ body after, text = body ++ after ∧ text.takeWhile p = body ∧ after.head?.any p = false ∧
      ∀ after', after'.head?.any p = false → (body ++ after').takeWhile p = body := by
  refine ⟨text.takeWhile p, text.dropWhile p, (List.takeWhile_append_dropWhile).symm, rfl, ?_, ?_⟩
  · cases h : text.dropWhile p with
    | nil => rfl
    | cons ch rest =>
      have := List.head?_dropWhile_not p text
      rw [h] at this
      simpa using this
  · intro after' hafter
    rw [List.takeWhile_append_of_pos fun ch hch => List.mem_takeWhile_imp hch]
    cases after' with
    | nil => exact List.append_nil _
    | cons ch rest =>
      have : p ch = false := by simpa using hafter
      rw [List.takeWhile_cons, this]
      exact List.append_nil _

variable {nested : Bool}

/-- Where a closed block comment ends depends on its own characters. -/
theorem blockComment_span : ∀ {rest : List Char} {taken : Bool} {depth pos : ℕ},
    blockCommentClosed nested taken depth rest = true →
    ∃ body after, rest = body ++ after ∧ body ≠ [] ∧
      blockCommentFrom nested taken depth pos rest = pos + body.length ∧
      ∀ after', blockCommentFrom nested taken depth pos (body ++ after') = pos + body.length ∧
        blockCommentClosed nested taken depth (body ++ after') = true := by
  intro rest
  induction rest with
  | nil =>
    intro taken depth pos h
    cases taken <;> cases h
  | cons ch rest ih =>
    intro taken depth pos h
    -- a step that goes on leaves a body whose first character is the one it looked at
    have step : ∀ {taken' : Bool} {depth' : ℕ}, blockCommentClosed nested taken' depth' rest = true →
        ∃ body after, rest = body ++ after ∧ ch :: rest = (ch :: body) ++ after ∧
          blockCommentFrom nested taken' depth' (pos + 1) rest = pos + (ch :: body).length ∧
          ∀ after', (body ++ after').head? = rest.head? ∧
            blockCommentFrom nested taken' depth' (pos + 1) (body ++ after') = pos + (ch :: body).length ∧
            blockCommentClosed nested taken' depth' (body ++ after') = true := by
      intro taken' depth' h'
      obtain ⟨body, after, rfl, hne, hlen, hall⟩ := @ih taken' depth' (pos + 1) h'
      obtain ⟨next, body, rfl⟩ := List.exists_cons_of_ne_nil hne
      have hsum : pos + 1 + (next :: body).length = pos + (ch :: next :: body).length := by
        simp only [List.length_cons]
        omega
      rw [hsum] at hlen hall
      exact ⟨next :: body, after, rfl, rfl, hlen, fun after' => ⟨rfl, hall after'⟩⟩
    cases taken with
    | true =>
      obtain ⟨body, after, -, heq, hlen, hall⟩ := step h
      exact ⟨ch :: body, after, heq, List.cons_ne_nil ch body, hlen, fun after' => (hall after').2⟩
    | false =>
      simp only [blockCommentClosed] at h
      split_ifs at h with hopen hclose hdepth
      · obtain ⟨body, after, -, heq, hlen, hall⟩ := step h
        refine ⟨ch :: body, after, heq, List.cons_ne_nil ch body, ?_, fun after' => ?_⟩
        · simpa only [blockCommentFrom, if_pos hopen] using hlen
        · obtain ⟨hhead, hrun⟩ := hall after'
          simpa only [List.cons_append, blockCommentFrom, blockCommentClosed, hhead, if_pos hopen] using hrun
      · obtain ⟨next, rest, rfl⟩ : ∃ next rest', rest = next :: rest' := by
          cases rest with
          | nil => simp at hclose
          | cons next rest' => exact ⟨next, rest', rfl⟩
        obtain ⟨rfl, hnext⟩ := hclose
        obtain rfl : next = '/' := by simpa using hnext
        refine ⟨['*', '/'], rest, rfl, List.cons_ne_nil _ _, ?_, fun after' => ?_⟩
        · simp [blockCommentFrom, hdepth]
        · simp [blockCommentFrom, blockCommentClosed, hdepth]
      · obtain ⟨body, after, -, heq, hlen, hall⟩ := step h
        refine ⟨ch :: body, after, heq, List.cons_ne_nil ch body, ?_, fun after' => ?_⟩
        · simpa only [blockCommentFrom, if_neg hopen, if_pos hclose, if_neg hdepth] using hlen
        · obtain ⟨hhead, hrun⟩ := hall after'
          simpa only [List.cons_append, blockCommentFrom, blockCommentClosed, hhead, if_neg hopen, if_pos hclose,
            if_neg hdepth] using hrun
      · obtain ⟨body, after, -, heq, hlen, hall⟩ := step h
        refine ⟨ch :: body, after, heq, List.cons_ne_nil ch body, ?_, fun after' => ?_⟩
        · simpa only [blockCommentFrom, if_neg hopen, if_neg hclose] using hlen
        · obtain ⟨hhead, hrun⟩ := hall after'
          simpa only [List.cons_append, blockCommentFrom, blockCommentClosed, hhead, if_neg hopen,
            if_neg hclose] using hrun

variable {close : Char} {mode : EscapeMode}

theorem quotedEnd_next : ∀ {rest : List Char} {taken : Bool} {stop index n : ℕ},
    quotedEnd close mode stop taken index rest = (n, .closed) → (rest.drop (n - index)).head? ≠ some close := by
  intro rest
  induction rest with
  | nil =>
    intro taken stop index n h
    simp [quotedEnd] at h
  | cons ch rest ih =>
    intro taken stop index n h
    have step : ∀ {taken'}, quotedEnd close mode stop taken' (index + 1) rest = (n, .closed) →
        ((ch :: rest).drop (n - index)).head? ≠ some close := by
      intro taken' h'
      obtain ⟨hlt, -⟩ := quotedEnd_closed_bounds h'
      have hn : n - index = (n - (index + 1)) + 1 := by omega
      rw [hn, List.drop_succ_cons]
      exact ih h'
    cases taken with
    | true => exact step h
    | false =>
      simp only [quotedEnd] at h
      split_ifs at h with h1 h2 h3 h4 h5
      · simp at h
      · exact step h
      · exact step h
      · exact step h
      · obtain ⟨rfl, -⟩ := Prod.mk.inj h
        rwa [Nat.add_sub_cancel_left, List.drop_succ_cons, List.drop_zero]
      · exact step h

/-- Where a closed run ends depends on its own characters and the one after it. -/
theorem quotedRun_span {first : Char} {rest : List Char} (h : (quotedRun close mode (first :: rest)).2 = .closed) :
    ∃ body after, rest = body ++ after ∧ (quotedRun close mode (first :: rest)).1 = body.length + 1 ∧
      after.head? ≠ some close ∧
      ∀ after', after'.head? ≠ some close →
        quotedRun close mode (first :: (body ++ after')) = (body.length + 1, .closed) := by
  obtain ⟨n, hrun⟩ : ∃ n, quotedEnd close mode (first :: rest).length false 1 rest = (n, .closed) :=
    ⟨(quotedRun close mode (first :: rest)).1, Prod.ext rfl h⟩
  obtain ⟨hpos, hle⟩ := quotedEnd_closed_bounds hrun
  have hlen : (rest.take (n - 1)).length + 1 = n := by
    rw [List.length_take]
    omega
  refine ⟨rest.take (n - 1), rest.drop (n - 1), (List.take_append_drop _ _).symm, ?_, quotedEnd_next hrun, ?_⟩
  · rw [hlen]
    exact congrArg Prod.fst hrun
  · intro after' hafter
    rw [hlen]
    exact quotedEnd_append hafter (quotedEnd_split hrun (first :: rest).length)

theorem isPrefixOf_append {pattern text : List Char} (hle : pattern.length ≤ text.length) (after after' : List Char) :
    pattern.isPrefixOf (text ++ after) = pattern.isPrefixOf (text ++ after') := by
  have hiff : ∀ tail : List Char, pattern <+: text ++ tail ↔ pattern <+: text := fun tail =>
    ⟨fun h => List.prefix_of_prefix_length_le h (List.prefix_append text tail) hle,
      fun h => h.trans (List.prefix_append text tail)⟩
  rw [Bool.eq_iff_iff, List.isPrefixOf_iff_prefix, List.isPrefixOf_iff_prefix, hiff, hiff]

theorem findText_split {pattern : List Char} : ∀ {text : List Char} {k : ℕ}, findText pattern text = some k →
    ∃ front after, text = front ++ (pattern ++ after) ∧ front.length = k := by
  intro text
  induction text with
  | nil =>
    intro k h
    simp only [findText, Option.ite_none_right_eq_some, Option.some.injEq] at h
    obtain ⟨rfl, rfl⟩ := h
    exact ⟨[], [], rfl, rfl⟩
  | cons ch text ih =>
    intro k h
    rw [findText] at h
    split_ifs at h with hfound
    · obtain rfl := Option.some.inj h
      obtain ⟨after, hafter⟩ := List.isPrefixOf_iff_prefix.1 hfound
      exact ⟨[], after, hafter.symm, rfl⟩
    · obtain ⟨n, hn, rfl⟩ := Option.map_eq_some_iff.1 h
      obtain ⟨front, after, rfl, rfl⟩ := ih hn
      exact ⟨ch :: front, after, rfl, rfl⟩

theorem findText_append {pattern : List Char} (hne : pattern ≠ []) : ∀ {text : List Char} {k : ℕ} {after : List Char},
    findText pattern (text ++ after) = some k → k + pattern.length ≤ text.length →
    ∀ after', findText pattern (text ++ after') = some k := by
  have hpos : 0 < pattern.length := List.length_pos_of_ne_nil hne
  intro text
  induction text with
  | nil =>
    intro k after h hle after'
    simp only [List.length_nil] at hle
    omega
  | cons ch text ih =>
    intro k after h hle after'
    simp only [List.length_cons] at hle
    have hpattern : pattern.length ≤ (ch :: text).length := by
      simp only [List.length_cons]
      omega
    have hsame := isPrefixOf_append hpattern after after'
    rw [List.cons_append] at h hsame ⊢
    rw [List.cons_append] at hsame
    rw [findText] at h ⊢
    rw [← hsame]
    split_ifs at h ⊢ with hfound
    · exact h
    · obtain ⟨n, hn, rfl⟩ := Option.map_eq_some_iff.1 h
      rw [ih hn (by omega) after']
      rfl

end Runs

section Dollar

variable (u : CharTables)

/-- The delimiter that opens `sql`, when one does. -/
theorem dollarTagLen_some {rest : List Char} {n : ℕ} (h : dollarTagLen u ('$' :: rest) = some n) :
    ∃ tag after, rest = tag ++ '$' :: after ∧ n = tag.length + 2 ∧
      ∀ after', dollarTagLen u ('$' :: (tag ++ '$' :: after')) = some n := by
  obtain ⟨tag, after, hrest, htag, hnext, hall⟩ := takeWhile_span (fun ch => ch != '$') rest
  simp only [dollarTagLen, List.drop_succ_cons, List.drop_zero, htag] at h
  split_ifs at h with hlen hok
  obtain rfl := Option.some.inj h
  obtain ⟨ch, after, rfl⟩ : ∃ ch after', after = ch :: after' := by
    cases after with
    | nil => exact absurd (by rw [hrest, List.append_nil]) hlen
    | cons ch after' => exact ⟨ch, after', rfl⟩
  obtain rfl : ch = '$' := by simpa using hnext
  refine ⟨tag, after, hrest, rfl, fun after' => ?_⟩
  simp only [dollarTagLen, List.drop_succ_cons, List.drop_zero, hall ('$' :: after') (by simp)]
  rw [if_neg (by simp), if_pos hok]

/-- Where a dollar-quoted string ends depends on its own characters. -/
theorem dollarLen_span {rest : List Char} {n : ℕ} (h : dollarLen u ('$' :: rest) = some n) :
    ∃ body after, rest = body ++ after ∧ n = body.length + 1 ∧
      ∀ after', dollarLen u ('$' :: (body ++ after')) = some n := by
  cases hopening : dollarTagLen u ('$' :: rest) with
  | none => simp [dollarLen, hopening] at h
  | some opening =>
    obtain ⟨tag, after, rfl, rfl, hall⟩ := dollarTagLen_some u hopening
    have htake : ∀ after', List.take (tag.length + 2) ('$' :: (tag ++ '$' :: after')) = '$' :: (tag ++ ['$']) := by
      intro after'
      simp [List.take_append, List.take_of_length_le]
    have hdrop : ∀ after', List.drop (tag.length + 2) ('$' :: (tag ++ '$' :: after')) = after' := by
      intro after'
      simp [List.drop_append]
    have hval : ∀ after', dollarLen u ('$' :: (tag ++ '$' :: after')) =
        (findText ('$' :: (tag ++ ['$'])) after').map fun k => tag.length + 2 + k + ('$' :: (tag ++ ['$'])).length := by
      intro after'
      simp only [dollarLen, hall after', htake, hdrop]
    rw [hval] at h
    obtain ⟨k, hk, rfl⟩ := Option.map_eq_some_iff.1 h
    obtain ⟨front, last, rfl, rfl⟩ := findText_split hk
    refine ⟨tag ++ '$' :: (front ++ ('$' :: (tag ++ ['$']))), last, by simp, by simp; omega, fun after' => ?_⟩
    have hfound : findText ('$' :: (tag ++ ['$'])) (front ++ ('$' :: (tag ++ ['$'])) ++ after') = some front.length :=
      findText_append (List.cons_ne_nil _ _) (by rwa [List.append_assoc]) (by simp) after'
    have hshape : tag ++ '$' :: (front ++ '$' :: (tag ++ ['$'])) ++ after' =
        tag ++ '$' :: (front ++ ('$' :: (tag ++ ['$'])) ++ after') := by simp
    rw [hshape, hval, hfound]
    rfl

theorem dollarTagLen_digit {digit : Char} (h : digit.isDigit = true) (rest : List Char) :
    dollarTagLen u ('$' :: digit :: rest) = none := by
  have hne : (digit != '$') = true := by
    rw [bne_iff_ne]
    rintro rfl
    exact absurd h (by decide)
  simp [dollarTagLen, hne, h]

end Dollar

section Tokens

variable (u : CharTables) (sqlite : Bool) (before : List Char) {first : Char} {rest : List Char}

/-- Whether `first :: rest` begins with a comment. -/
def startsComment (first : Char) (rest : List Char) : Prop :=
  (first = '-' ∧ rest.head? = some '-') ∨ (first = '/' ∧ rest.head? = some '*')

theorem lexToken_line (h : rest.head? = some '-') :
    lexToken u sqlite before '-' rest = (.comment, (('-' :: rest).takeWhile fun ch => ch != '\n').length) ∧
      closedToken u sqlite before '-' rest = ('-' :: rest).contains '\n' := by
  have hspace : spaceChar sqlite '-' = false := by cases sqlite <;> decide
  simp [lexToken, closedToken, hspace, h]

theorem lexToken_block (h : rest.head? = some '*') :
    lexToken u sqlite before '/' rest = (.comment, blockCommentFrom (!sqlite) false 1 2 (rest.drop 1)) ∧
      closedToken u sqlite before '/' rest = blockCommentClosed (!sqlite) false 1 (rest.drop 1) := by
  have hspace : spaceChar sqlite '/' = false := by cases sqlite <;> decide
  simp [lexToken, closedToken, hspace, h, blockCommentLen]

/-- The reading of the run that the quote `first` opens. -/
def quoteRun (first : Char) (rest : List Char) : ℕ × QuotedRun :=
  quotedRun (if first = '[' then ']' else first)
    (if !sqlite && first == '\'' && opensEscaped u before then .backslash else .doubled) (first :: rest)

theorem lexToken_quote (h : first = '\'' ∨ first = '"' ∨ first = '`' ∨ first = '[') (rest : List Char) :
    lexToken u sqlite before first rest =
        (if first = '\'' then .literal else .identifier, (quoteRun u sqlite before first rest).1) ∧
      closedToken u sqlite before first rest = ((quoteRun u sqlite before first rest).2 == .closed) := by
  have hspace : spaceChar sqlite first = false := by
    rcases h with rfl | rfl | rfl | rfl <;> cases sqlite <;> decide
  have hline : first ≠ '-' := by rcases h with rfl | rfl | rfl | rfl <;> decide
  have hblock : first ≠ '/' := by rcases h with rfl | rfl | rfl | rfl <;> decide
  constructor
  · simp only [lexToken, hspace, Bool.false_eq_true, if_false, hline, hblock, false_and, if_pos h, quotedLen]
    rfl
  · simp only [closedToken, hspace, Bool.false_eq_true, if_false, hline, hblock, false_and, if_pos h]
    rfl

theorem lexToken_dollar (rest : List Char) :
    (lexToken u false before '$' rest = match dollarLen u ('$' :: rest) with
      | some n => (.literal, n)
      | none => (if 1 < 1 + (rest.takeWhile Char.isDigit).length then .parameter else .symbol,
          1 + (rest.takeWhile Char.isDigit).length)) ∧
      closedToken u false before '$' rest = ((dollarTagLen u ('$' :: rest)).isNone || (dollarLen u ('$' :: rest)).isSome) :=
  ⟨rfl, rfl⟩

/-- A token that begins neither a comment, a quoted run nor a parameter. -/
theorem lexToken_plain (hspace : spaceChar sqlite first = false) (hcomment : ¬startsComment first rest)
    (hquote : ¬(first = '\'' ∨ first = '"' ∨ first = '`' ∨ first = '['))
    (hparameter : ¬(sqlite = true ∧ (first = '$' ∨ first = ':' ∨ first = '@' ∨ first = '#'))) (hdollar : first ≠ '$') :
    lexToken u sqlite before first rest =
        (if first = '_' ∨ u.isAlphabetic first = true then
          (.word, ((first :: rest).takeWhile (identifierChar u)).length) else (.symbol, 1)) ∧
      closedToken u sqlite before first rest = true := by
  have hline : ¬(first = '-' ∧ rest.head? = some '-') := fun h => hcomment (Or.inl h)
  have hblock : ¬(first = '/' ∧ rest.head? = some '*') := fun h => hcomment (Or.inr h)
  constructor
  · simp only [lexToken, hspace, Bool.false_eq_true, if_false, if_neg hline, if_neg hblock, if_neg hquote,
      if_neg hparameter, if_neg hdollar]
  · simp only [closedToken, hspace, Bool.false_eq_true, if_false, if_neg hline, if_neg hblock, if_neg hquote,
      if_neg hparameter, if_neg hdollar]

/-- `after'` can stand where `after` does behind a closed token of the kind. -/
structure Follows (kind : Kind) (after after' : List Char) : Prop where
  next : ∀ p : Char → Bool, (∀ ch, isBreak ch = true → p ch = false) → p '?' = p '$' →
    after'.head?.any p = after.head?.any p
  word : kind = .word → after'.head?.any (identifierChar u) = after.head?.any (identifierChar u)
  line : after.head? = some '\n' → after'.head? = some '\n'

/-- The token `first :: rest` begins with is `first :: body`, also before other text. -/
structure Spans (first : Char) (rest body after : List Char) : Prop where
  text : rest = body ++ after
  len : (lexToken u sqlite before first rest).2 = body.length + 1
  swap : ∀ after', Follows u (lexToken u sqlite before first rest).1 after after' →
    (first = '$' → dollarTagLen u ('$' :: rest) = none → dollarTagLen u ('$' :: (body ++ after')) = none) →
    lexToken u sqlite before first (body ++ after') = lexToken u sqlite before first rest ∧
      closedToken u sqlite before first (body ++ after') = true

variable {u}

theorem Follows.head_iff {kind : Kind} {after after' : List Char} (h : Follows u kind after after') {ch : Char}
    (hbreak : isBreak ch = false) (hmark : ch ≠ '?') (hdollar : ch ≠ '$') (body : List Char) :
    (body ++ after').head? = some ch ↔ (body ++ after).head? = some ch := by
  cases body with
  | cons next body => exact Iff.rfl
  | nil =>
    have hsame := h.next (fun other => other == ch)
      (fun other hother => by simpa using isBreak_ne hother hbreak) (by simp [hmark.symm, hdollar.symm])
    rw [Bool.eq_iff_iff] at hsame
    simpa [Option.any_eq_true] using hsame

theorem Follows.startsComment_iff {kind : Kind} {after after' : List Char} (h : Follows u kind after after')
    (first : Char) (body : List Char) :
    startsComment first (body ++ after') ↔ startsComment first (body ++ after) := by
  unfold startsComment
  rw [h.head_iff (by decide) (by decide) (by decide) body, h.head_iff (by decide) (by decide) (by decide) body]

theorem spans_line (h : rest.head? = some '-') (hclosed : closedToken u sqlite before '-' rest = true) :
    ∃ body after, Spans u sqlite before '-' rest body after := by
  obtain ⟨hlex, hclose⟩ := lexToken_line u sqlite before h
  obtain ⟨body, after, rfl, hbody, hnext, hall⟩ := takeWhile_span (fun ch => ch != '\n') rest
  rw [hclose, List.contains_eq_mem, decide_eq_true_eq] at hclosed
  have hnewline : after.head? = some '\n' := by
    cases after with
    | nil =>
      rw [List.append_nil] at hclosed hbody
      have hfree := List.takeWhile_eq_self_iff.1 hbody '\n' (by simpa using hclosed)
      simp at hfree
    | cons ch after => simpa using hnext
  refine ⟨body, after, rfl, ?_, fun after' hfollows _ => ?_⟩
  · rw [hlex, List.takeWhile_cons, hbody]
    rfl
  · have hline := hfollows.line hnewline
    have hhead : (body ++ after').head? = some '-' := (hfollows.head_iff (by decide) (by decide) (by decide) body).2 h
    obtain ⟨hlex', hclose'⟩ := lexToken_line u sqlite before hhead
    constructor
    · rw [hlex, hlex', List.takeWhile_cons, List.takeWhile_cons, hbody, hall after' (by simp [hline])]
    · have hmem : '\n' ∈ after' := List.mem_of_mem_head? hline
      simp [hclose', hmem]

theorem spans_block (h : rest.head? = some '*') (hclosed : closedToken u sqlite before '/' rest = true) :
    ∃ body after, Spans u sqlite before '/' rest body after := by
  obtain ⟨hlex, hclose⟩ := lexToken_block u sqlite before h
  rw [hclose] at hclosed
  obtain ⟨body, after, hrest, -, hlen, hall⟩ := @blockComment_span _ _ _ _ 2 hclosed
  obtain ⟨star, rest, rfl⟩ : ∃ star rest', rest = star :: rest' := by
    cases rest with
    | nil => cases h
    | cons star rest' => exact ⟨star, rest', rfl⟩
  rw [List.drop_succ_cons, List.drop_zero] at hrest
  subst hrest
  refine ⟨star :: body, after, rfl, ?_, fun after' _ _ => ?_⟩
  · rw [hlex]
    exact hlen.trans (Nat.add_comm 2 body.length)
  · obtain ⟨hlex', hclose'⟩ := lexToken_block u sqlite before (show (star :: body ++ after').head? = some '*' from h)
    obtain ⟨hlen', hclosed'⟩ := hall after'
    constructor
    · rw [hlex, hlex']
      exact congrArg (Prod.mk Kind.comment) (hlen'.trans hlen.symm)
    · rw [hclose']
      exact hclosed'

theorem spans_quote (h : first = '\'' ∨ first = '"' ∨ first = '`' ∨ first = '[')
    (hclosed : closedToken u sqlite before first rest = true) :
    ∃ body after, Spans u sqlite before first rest body after := by
  obtain ⟨hlex, hclose⟩ := lexToken_quote u sqlite before h rest
  rw [hclose, beq_iff_eq] at hclosed
  obtain ⟨body, after, rfl, hlen, hnext, hall⟩ := quotedRun_span hclosed
  have hfirst : (if first = '[' then ']' else first) = '\'' ∨ (if first = '[' then ']' else first) = '"' ∨
      (if first = '[' then ']' else first) = '`' ∨ (if first = '[' then ']' else first) = ']' := by
    rcases h with rfl | rfl | rfl | rfl <;> decide
  refine ⟨body, after, rfl, ?_, fun after' hfollows _ => ?_⟩
  · rw [hlex]
    exact hlen
  · obtain ⟨hlex', hclose'⟩ := lexToken_quote u sqlite before h (body ++ after')
    have hnext' : after'.head? ≠ some (if first = '[' then ']' else first) := by
      intro hbad
      refine hnext ((hfollows.head_iff ?_ ?_ ?_ []).1 hbad)
      all_goals rcases hfirst with hq | hq | hq | hq <;> rw [hq] <;> decide
    have hrun := hall after' hnext'
    constructor
    · rw [hlex, hlex']
      exact congrArg (Prod.mk _) ((congrArg Prod.fst hrun).trans hlen.symm)
    · rw [hclose', beq_iff_eq]
      exact congrArg Prod.snd hrun

theorem spans_dollar (hclosed : closedToken u false before '$' rest = true) :
    ∃ body after, Spans u false before '$' rest body after := by
  obtain ⟨hlex, hclose⟩ := lexToken_dollar u before rest
  cases hdollar : dollarLen u ('$' :: rest) with
  | some n =>
    obtain ⟨body, after, rfl, rfl, hall⟩ := dollarLen_span u hdollar
    refine ⟨body, after, rfl, ?_, fun after' _ _ => ?_⟩
    · rw [hlex, hdollar]
    · obtain ⟨hlex', hclose'⟩ := lexToken_dollar u before (body ++ after')
      rw [hlex, hlex', hclose', hdollar, hall after']
      exact ⟨rfl, Bool.or_true _⟩
  | none =>
    have htag : dollarTagLen u ('$' :: rest) = none := by
      rw [hclose, hdollar] at hclosed
      simpa using hclosed
    obtain ⟨body, after, rfl, hbody, hnext, hall⟩ := takeWhile_span Char.isDigit rest
    refine ⟨body, after, rfl, ?_, fun after' hfollows hafter => ?_⟩
    · rw [hlex, hdollar, hbody]
      exact Nat.add_comm 1 body.length
    · have htag' := hafter rfl htag
      have hdollar' : dollarLen u ('$' :: (body ++ after')) = none := by rw [dollarLen, htag']
      obtain ⟨hlex', hclose'⟩ := lexToken_dollar u before (body ++ after')
      have hdigits : (body ++ after').takeWhile Char.isDigit = body := by
        refine hall after' ?_
        rw [hfollows.next Char.isDigit (fun ch hch => isDigit_isBreak hch) (by decide)]
        exact hnext
      rw [hlex, hlex', hclose', hdollar, hdollar', htag', hbody, hdigits]
      exact ⟨rfl, rfl⟩

theorem spans_plain (hspace : spaceChar sqlite first = false) (hcomment : ¬startsComment first rest)
    (hquote : ¬(first = '\'' ∨ first = '"' ∨ first = '`' ∨ first = '['))
    (hparameter : ¬(sqlite = true ∧ (first = '$' ∨ first = ':' ∨ first = '@' ∨ first = '#'))) (hdollar : first ≠ '$') :
    ∃ body after, Spans u sqlite before first rest body after := by
  obtain ⟨hlex, -⟩ := lexToken_plain u sqlite before hspace hcomment hquote hparameter hdollar
  by_cases hword : first = '_' ∨ u.isAlphabetic first = true
  · rw [if_pos hword] at hlex
    have hfirst : identifierChar u first = true := by
      rcases hword with rfl | halpha
      · rfl
      · simp [identifierChar, CharTables.isAlphanumeric, halpha]
    obtain ⟨body, after, rfl, hbody, hnext, hall⟩ := takeWhile_span (identifierChar u) rest
    refine ⟨body, after, rfl, ?_, fun after' hfollows _ => ?_⟩
    · rw [hlex, List.takeWhile_cons, hfirst, if_pos rfl, hbody]
      rfl
    · rw [hlex] at hfollows
      obtain ⟨hlex', hclose'⟩ := lexToken_plain u sqlite before hspace
        (fun h => hcomment ((hfollows.startsComment_iff first body).1 h)) hquote hparameter hdollar
      rw [if_pos hword] at hlex'
      have hwhole := hall after' ((hfollows.word rfl).trans hnext)
      rw [hlex, hlex', List.takeWhile_cons, List.takeWhile_cons, hfirst, if_pos rfl, if_pos rfl, hbody, hwhole]
      exact ⟨rfl, hclose'⟩
  · rw [if_neg hword] at hlex
    refine ⟨[], rest, rfl, by rw [hlex]; rfl, fun after' hfollows _ => ?_⟩
    obtain ⟨hlex', hclose'⟩ := lexToken_plain u sqlite before hspace
      (fun h => hcomment ((hfollows.startsComment_iff first []).1 h)) hquote hparameter hdollar
    rw [if_neg hword] at hlex'
    exact ⟨hlex'.trans hlex.symm, hclose'⟩

/-- A closed token ends where its own characters and the next one say. -/
theorem closedToken_spans (hspace : spaceChar sqlite first = false)
    (hclosed : closedToken u sqlite before first rest = true) :
    ∃ body after, Spans u sqlite before first rest body after := by
  by_cases hcomment : startsComment first rest
  · rcases hcomment with ⟨rfl, h⟩ | ⟨rfl, h⟩
    · exact spans_line sqlite before h hclosed
    · exact spans_block sqlite before h hclosed
  by_cases hquote : first = '\'' ∨ first = '"' ∨ first = '`' ∨ first = '['
  · exact spans_quote sqlite before hquote hclosed
  by_cases hparameter : sqlite = true ∧ (first = '$' ∨ first = ':' ∨ first = '@' ∨ first = '#')
  · have hline : ¬(first = '-' ∧ rest.head? = some '-') := fun h => hcomment (Or.inl h)
    have hblock : ¬(first = '/' ∧ rest.head? = some '*') := fun h => hcomment (Or.inr h)
    simp only [closedToken, hspace, Bool.false_eq_true, if_false, if_neg hline, if_neg hblock, if_neg hquote,
      if_pos hparameter] at hclosed
  by_cases hdollar : first = '$'
  · subst hdollar
    obtain rfl : sqlite = false := by simpa using hparameter
    exact spans_dollar before hclosed
  · exact spans_plain sqlite before hspace hcomment hquote hparameter hdollar

end Tokens

section Reading

variable (u : CharTables) (sqlite : Bool)

theorem blockCommentFrom_le (nested : Bool) : ∀ (rest : List Char) (taken : Bool) (depth pos : ℕ),
    pos ≤ blockCommentFrom nested taken depth pos rest := by
  intro rest
  induction rest with
  | nil => intro taken depth pos; cases taken <;> exact Nat.le_refl pos
  | cons ch rest ih =>
    intro taken depth pos
    have step : ∀ taken' depth', pos ≤ blockCommentFrom nested taken' depth' (pos + 1) rest := fun taken' depth' =>
      (Nat.le_succ pos).trans (ih taken' depth' (pos + 1))
    cases taken with
    | true => exact step false depth
    | false =>
      simp only [blockCommentFrom]
      split_ifs
      · exact step _ _
      · exact Nat.le_add_right pos 2
      · exact step _ _
      · exact step _ _

theorem lexToken_pos (before : List Char) (first : Char) (rest : List Char) :
    1 ≤ (lexToken u sqlite before first rest).2 := by
  simp only [lexToken]
  split_ifs with hspace hline hblock hquote hliteral hparameter hdollar hdigits hword
  · exact takeWhile_pos hspace rest
  · obtain ⟨rfl, -⟩ := hline
    exact takeWhile_pos (by decide) rest
  · exact le_trans (by decide) (blockCommentFrom_le _ _ _ _ 2)
  · exact quotedLen_pos first rest _ _
  · exact quotedLen_pos first rest _ _
  · exact sqliteNameLen_le u _ _ _ _
  · cases hlen : dollarLen u (first :: rest) with
    | some n => exact dollarLen_pos u hlen
    | none => exact Nat.le_add_right 1 _
  · cases hlen : dollarLen u (first :: rest) with
    | some n => exact dollarLen_pos u hlen
    | none => exact Nat.le_add_right 1 _
  · refine takeWhile_pos ?_ rest
    rcases hword with rfl | halpha
    · rfl
    · simp [identifierChar, CharTables.isAlphanumeric, halpha]
  · exact Nat.le_refl 1

theorem lexToken_succ (before : List Char) (first : Char) (rest : List Char) :
    ∃ n, lexToken u sqlite before first rest = ((lexToken u sqlite before first rest).1, n + 1) :=
  ⟨(lexToken u sqlite before first rest).2 - 1,
    Prod.ext rfl (Nat.sub_add_cancel (lexToken_pos u sqlite before first rest)).symm⟩

/-- `sql` is read alike after `before` and after `before'`. -/
structure SameBefore (before before' sql : List Char) : Prop where
  escaped : opensEscaped u before = opensEscaped u before'
  word : sql.head?.any (fun ch => ch == 'e' || ch == 'E') = true →
    before.head?.any (identifierChar u) = before'.head?.any (identifierChar u)

variable {u}

theorem SameBefore.token {before before' : List Char} {first : Char} {rest : List Char}
    (h : SameBefore u before before' (first :: rest)) (body after : List Char) :
    SameBefore u ((first :: body).reverse ++ before) ((first :: body).reverse ++ before') after := by
  cases hbody : body.reverse with
  | nil =>
    obtain rfl : body = [] := List.reverse_eq_nil_iff.1 hbody
    refine ⟨?_, fun _ => rfl⟩
    by_cases he : (first == 'e' || first == 'E') = true
    · simp only [List.reverse_cons, List.reverse_nil, List.nil_append, List.singleton_append, opensEscaped, he,
        Bool.true_and]
      rw [h.word (by simpa using he)]
    · simp only [List.reverse_cons, List.reverse_nil, List.nil_append, List.singleton_append, opensEscaped,
        Bool.not_eq_true _ ▸ he, Bool.false_and]
  | cons last body' =>
    rw [List.reverse_cons, hbody]
    refine ⟨?_, fun _ => rfl⟩
    cases body' with
    | nil => rfl
    | cons _ _ => rfl

theorem lexToken_before {before before' : List Char} (first : Char) (rest : List Char)
    (h : opensEscaped u before = opensEscaped u before') :
    lexToken u sqlite before first rest = lexToken u sqlite before' first rest ∧
      closedToken u sqlite before first rest = closedToken u sqlite before' first rest := by
  simp only [lexToken, closedToken, h, and_self]

theorem identifierChar_space {ch : Char} (h : spaceChar sqlite ch = true) : identifierChar u ch = false := by
  have hspace : spaceChar true ch = true := by
    simp only [spaceChar, Bool.or_eq_true, Bool.and_eq_true, true_and] at h ⊢
    exact h.imp_right And.right
  obtain ⟨halpha, hnum⟩ := u.space ch hspace
  have hunder : ch ≠ '_' := by
    rintro rfl
    exact absurd hspace (by decide)
  have hdollar : ch ≠ '$' := by
    rintro rfl
    exact absurd hspace (by decide)
  simp [identifierChar, CharTables.isAlphanumeric, halpha, hnum, hunder, hdollar]

theorem lexToken_space {ch : Char} (h : spaceChar sqlite ch = true) (before rest : List Char) :
    lexToken u sqlite before ch rest = (.space, (rest.takeWhile (spaceChar sqlite)).length + 1) ∧
      closedToken u sqlite before ch rest = true := by
  simp [lexToken, closedToken, h]

end Reading

end TideOrm
