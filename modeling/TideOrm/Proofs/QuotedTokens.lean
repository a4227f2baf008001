import TideOrm.Proofs.SqlSafety
import TideOrm.Sanity.SqlPieces
import TideOrm.Sanity.TableTags
import TideOrm.Spec.QuotedTokens

/-! A quoted token is read to its closing quote. Its last character alone does not say whether the quote there
closes it. -/

namespace TideOrm

section Runs

variable {close : Char} {escaped : Bool}

def escapeMode (escaped : Bool) : EscapeMode := if escaped then .backslash else .doubled

theorem escapeMode_ne (escaped : Bool) : escapeMode escaped ≠ .rejectAmbiguous := by
  cases escaped <;> decide

theorem escapeMode_doubled : escapeMode escaped ≠ .doubled ↔ escaped = true := by
  cases escaped <;> decide

/-- The scan goes on behind what is inside. -/
theorem quotedEnd_inside (hclose : close ≠ '\\') {body : List Char} (h : Inside close escaped body) (tail : List Char) (stop : ℕ) : ∀ index : ℕ,
    quotedEnd close (escapeMode escaped) stop false index (body ++ tail) =
      quotedEnd close (escapeMode escaped) stop false (index + body.length) tail := by
  induction h with
  | nil => exact fun _ => rfl
  | @plain ch rest hch hslash _ ih =>
    intro index
    have hnot : ¬(ch = '\\' ∧ escapeMode escaped ≠ .doubled) := fun h => hslash (escapeMode_doubled.1 h.2) h.1
    rw [List.cons_append, quotedEnd, if_neg hnot, if_neg hch, ih, List.length_cons]
    congr 1
    omega
  | @doubled rest _ ih =>
    intro index
    have hnot : ¬(close = '\\' ∧ escapeMode escaped ≠ .doubled) := fun h => hclose h.1
    have hdouble : (close :: (rest ++ tail)).head? = some close := rfl
    rw [List.cons_append, quotedEnd, if_neg hnot, if_pos rfl, List.cons_append, if_pos hdouble, quotedEnd, ih, List.length_cons,
      List.length_cons]
    congr 1
    omega
  | @backslash ch rest hescaped _ ih =>
    intro index
    have hslash : '\\' = '\\' ∧ escapeMode escaped ≠ .doubled := ⟨rfl, escapeMode_doubled.2 hescaped⟩
    rw [List.cons_append, quotedEnd, if_pos hslash, if_neg (escapeMode_ne escaped), List.cons_append, quotedEnd, ih, List.length_cons,
      List.length_cons]
    congr 1
    omega

/-- A text goes on inside to its end, but for a backslash there, or holds the closing quote. -/
inductive Parts (close : Char) (escaped : Bool) (rest : List Char) : Prop where
  | closes (h : Closes close escaped rest)
  | inside (h : Inside close escaped rest)
  | cut {body : List Char} (hescaped : escaped = true) (htext : rest = body ++ ['\\']) (h : Inside close escaped body)

theorem Parts.extend (front : List Char) {rest : List Char} (hfront : ∀ body, Inside close escaped body → Inside close escaped (front ++ body))
    (h : Parts close escaped rest) : Parts close escaped (front ++ rest) := by
  rcases h with ⟨body, tail, rfl, hbody, htail⟩ | h | ⟨hescaped, rfl, hbody⟩
  · exact .closes ⟨front ++ body, tail, (List.append_assoc ..).symm, hfront body hbody, htail⟩
  · exact .inside (hfront rest h)
  · exact .cut hescaped (List.append_assoc ..).symm (hfront _ hbody)

theorem parts (close : Char) (escaped : Bool) (k : ℕ) : ∀ rest : List Char, rest.length ≤ k → Parts close escaped rest := by
  induction k with
  | zero =>
    intro rest hlen
    rw [List.length_eq_zero_iff.1 (Nat.le_zero.1 hlen)]
    exact .inside .nil
  | succ k ih =>
    intro rest hlen
    cases rest with
    | nil => exact .inside .nil
    | cons ch rest =>
      rw [List.length_cons] at hlen
      by_cases hclose : ch = close
      · subst hclose
        cases rest with
        | nil => exact .closes ⟨[], [], rfl, .nil, by simp⟩
        | cons next rest =>
          by_cases hdouble : next = ch
          · subst hdouble
            exact (ih rest (by simp only [List.length_cons] at hlen; omega)).extend [next, next] fun _ h => .doubled h
          · exact .closes ⟨[], next :: rest, rfl, .nil, by simpa using hdouble⟩
      · by_cases hslash : escaped = true ∧ ch = '\\'
        · obtain ⟨hescaped, rfl⟩ := hslash
          cases rest with
          | nil => exact .cut hescaped rfl .nil
          | cons next rest =>
            exact (ih rest (by simp only [List.length_cons] at hlen; omega)).extend ['\\', next] fun _ h => .backslash hescaped h
        · have hplain : escaped = true → ch ≠ '\\' := fun hescaped hch => hslash ⟨hescaped, hch⟩
          exact (ih rest (by omega)).extend [ch] fun _ h => .plain hclose hplain h

theorem quotedEnd_closed (hclose : close ≠ '\\') {body tail : List Char} (hbody : Inside close escaped body) (htail : tail.head? ≠ some close)
    (stop index : ℕ) :
    quotedEnd close (escapeMode escaped) stop false index (body ++ close :: tail) = (index + body.length + 1, .closed) := by
  have hnot : ¬(close = '\\' ∧ escapeMode escaped ≠ .doubled) := fun h => hclose h.1
  rw [quotedEnd_inside hclose hbody, quotedEnd, if_neg hnot, if_pos rfl, if_neg htail]

theorem quotedEnd_unterminated (hclose : close ≠ '\\') {rest : List Char} (h : ¬Closes close escaped rest) (stop index : ℕ) :
    quotedEnd close (escapeMode escaped) stop false index rest = (stop, .unterminated) := by
  rcases parts close escaped rest.length rest (Nat.le_refl _) with hcloses | hinside | ⟨hescaped, rfl, hinside⟩
  · exact absurd hcloses h
  · have hend := quotedEnd_inside hclose hinside [] stop index
    rw [List.append_nil] at hend
    rw [hend, quotedEnd]
  · have hslash : '\\' = '\\' ∧ escapeMode escaped ≠ .doubled := ⟨rfl, escapeMode_doubled.2 hescaped⟩
    rw [quotedEnd_inside hclose hinside, quotedEnd, if_pos hslash, if_neg (escapeMode_ne escaped), quotedEnd]

theorem take_closed (quote close : Char) (body tail : List Char) :
    (quote :: (body ++ close :: tail)).take (1 + body.length + 1) = quote :: (body ++ [close]) := by
  rw [Nat.add_comm 1, List.take_succ_cons, List.append_cons]
  exact congrArg (quote :: ·) (List.take_left' (by simp))

/-- What goes on inside to its end holds no closing quote. -/
theorem Inside.not_closes (hclose : close ≠ '\\') {rest : List Char} (h : Inside close escaped rest) : ¬Closes close escaped rest := by
  intro hcloses
  obtain ⟨body, tail, rfl, hbody, htail⟩ := hcloses
  have hend := quotedEnd_inside hclose h [] 0 0
  rw [List.append_nil, quotedEnd_closed hclose hbody htail, quotedEnd] at hend
  cases hend

end Runs

section Scanned

variable (u : CharTables) (sqlite : Bool)

theorem mem_scanFrom (k : ℕ) : ∀ (sql pre : List Char) (offset : ℕ) {t : Token}, sql.length ≤ k → t ∈ scanFrom u sqlite 0 pre offset sql →
    ∃ before first rest, sql = before ++ first :: rest ∧
      t = ⟨(first :: rest).take (lexToken u sqlite (before.reverse ++ pre) first rest).2, offset + utf8Len before,
        (lexToken u sqlite (before.reverse ++ pre) first rest).1⟩ := by
  induction k with
  | zero =>
    intro sql pre offset t hlen hmem
    rw [List.length_eq_zero_iff.1 (Nat.le_zero.1 hlen)] at hmem
    cases hmem
  | succ k ih =>
    intro sql pre offset t hlen hmem
    cases sql with
    | nil => cases hmem
    | cons first rest =>
      rw [scanFrom_cons, List.mem_cons] at hmem
      rcases hmem with rfl | hmem
      · exact ⟨[], first, rest, rfl, rfl⟩
      · rw [scanFrom_drop] at hmem
        have hrest : (rest.drop ((lexToken u sqlite pre first rest).2 - 1)).length ≤ k := by
          simp only [List.length_cons] at hlen
          rw [List.length_drop]
          omega
        obtain ⟨before, other, after, htext, rfl⟩ := ih _ _ _ hrest hmem
        refine ⟨first :: rest.take ((lexToken u sqlite pre first rest).2 - 1) ++ before, other, after, ?_, ?_⟩
        · rw [List.cons_append, List.cons_append, List.append_assoc, ← htext, List.take_append_drop]
        · simp only [List.cons_append, List.reverse_cons, List.reverse_append, List.append_assoc, List.nil_append, utf8Len_cons,
            utf8Len_append, Nat.add_assoc]

variable {u sqlite}

/-- A token of a text that stands where it says. -/
theorem scanned_at {sql before rest : List Char} {first : Char} {t : Token} (hmem : t ∈ scan u sql sqlite)
    (htext : sql = before ++ first :: rest) (hstart : t.start = utf8Len before) :
    t = ⟨(first :: rest).take (lexToken u sqlite before.reverse first rest).2, utf8Len before, (lexToken u sqlite before.reverse first rest).1⟩ := by
  obtain ⟨before', first', rest', htext', rfl⟩ := mem_scanFrom u sqlite sql.length sql [] 0 (Nat.le_refl _) hmem
  have hlen : utf8Len before' = utf8Len before := (Nat.zero_add _).symm.trans hstart
  have hsql : before' ++ first' :: rest' = before ++ first :: rest := htext'.symm.trans htext
  have hrest : first' :: rest' = first :: rest := by
    have hdrop := dropBytes_append before' (first' :: rest')
    rwa [hsql, hlen, dropBytes_append, eq_comm] at hdrop
  obtain ⟨rfl, rfl⟩ := List.cons.inj hrest
  obtain rfl := List.append_cancel_right hsql
  rw [List.append_nil, Nat.zero_add]

/-- Only a quote begins a quoted token. -/
theorem lexToken_opened {before : List Char} {first : Char} {rest : List Char}
    (h : (lexToken u sqlite before first rest).1 = .identifier ∨
      ((lexToken u sqlite before first rest).1 = .literal ∧ first = '\'')) :
    first = '\'' ∨ first = '"' ∨ first = '`' ∨ first = '[' := by
  by_contra hquote
  have hnot : first ≠ '\'' := fun hfirst => hquote (Or.inl hfirst)
  have hkind : (lexToken u sqlite before first rest).1 ≠ .identifier := by
    simp only [lexToken]
    split_ifs
    · simp
    · simp
    · simp
    · simp
    · cases dollarLen u (first :: rest) <;> simp
    · cases dollarLen u (first :: rest) <;> simp
    · simp
    · simp
  exact h.elim hkind fun h => hnot h.2

/-- The run of a quoted token. -/
theorem quoteRun_eq (before : List Char) (quote : Char) (rest : List Char) :
    quoteRun u sqlite before.reverse quote rest =
      quotedEnd (closingQuote quote) (escapeMode (escapes u sqlite before quote)) (rest.length + 1) false 1 rest := rfl

theorem closingQuote_ne {quote : Char} (h : quote = '\'' ∨ quote = '"' ∨ quote = '`' ∨ quote = '[') : closingQuote quote ≠ '\\' := by
  rcases h with rfl | rfl | rfl | rfl <;> decide

theorem unquoted_eq_none {quote : Char} {rest : List Char} {start : ℕ} {kind : Kind} (hquoted : Token.Quoted ⟨quote :: rest, start, kind⟩) :
    Token.unquoted ⟨quote :: rest, start, kind⟩ = none ↔ rest.getLast? ≠ some (closingQuote quote) := by
  have hkind : ¬(kind ≠ .identifier ∧ ¬(kind = .literal ∧ (quote :: rest).head? = some '\'')) := fun h => hquoted.elim h.1 h.2
  rw [Token.unquoted, if_neg hkind]
  show (if (quote :: rest).getLast? = some (closingQuote quote) ∧ rest ≠ [] then _ else none) = none ↔ _
  cases rest with
  | nil => simp
  | cons ch rest =>
    rw [List.getLast?_cons_cons]
    simp

/-- A token its closing quote does not end spells no name, but where the text ends behind an escaped one. -/
theorem unquoted_notices {sql before rest : List Char} {quote : Char} {t : Token} (h : QuotedAt u sqlite sql before quote rest t) :
    (t.unquoted = none ↔ ¬Closes (closingQuote quote) (escapes u sqlite before quote) rest) ↔
      ¬EndsEscaped (closingQuote quote) (escapes u sqlite before quote) rest := by
  obtain ⟨hmem, hquoted, htext, hstart⟩ := h
  obtain rfl := scanned_at hmem htext hstart
  have hpos := lexToken_pos u sqlite before.reverse quote rest
  have hquote : quote = '\'' ∨ quote = '"' ∨ quote = '`' ∨ quote = '[' := by
    refine lexToken_opened (hquoted.imp id fun h => ⟨h.1, ?_⟩)
    obtain ⟨n, hn⟩ := Nat.exists_eq_add_of_le' hpos
    rw [hn] at h
    exact Option.some_inj.1 h.2
  have hlex := (lexToken_quote u sqlite before.reverse hquote rest).1
  rw [quoteRun_eq] at hlex
  have hclose := closingQuote_ne hquote
  by_cases hcloses : Closes (closingQuote quote) (escapes u sqlite before quote) rest
  · obtain ⟨body, tail, rfl, hbody, htail⟩ := hcloses
    rw [quotedEnd_closed hclose hbody htail] at hlex
    have htake : (quote :: (body ++ closingQuote quote :: tail)).take (lexToken u sqlite before.reverse quote (body ++ closingQuote quote :: tail)).2 =
        quote :: (body ++ [closingQuote quote]) := by
      rw [hlex]
      exact take_closed quote (closingQuote quote) body tail
    rw [htake] at hquoted ⊢
    have hends : ¬EndsEscaped (closingQuote quote) (escapes u sqlite before quote) (body ++ closingQuote quote :: tail) :=
      fun hends => hends.1.not_closes hclose ⟨body, tail, rfl, hbody, htail⟩
    have hsome := (unquoted_eq_none hquoted).not.2 (by simp)
    exact iff_of_true (iff_of_false hsome (not_not.2 ⟨body, tail, rfl, hbody, htail⟩)) hends
  · have hlen := quotedEnd_unterminated hclose hcloses (rest.length + 1) 1
    rw [hlen] at hlex
    have htake : (quote :: rest).take (lexToken u sqlite before.reverse quote rest).2 = quote :: rest := by
      rw [hlex]
      exact List.take_of_length_le (Nat.le_refl _)
    rw [htake] at hquoted ⊢
    rw [unquoted_eq_none hquoted, iff_true_right hcloses, EndsEscaped, not_and]
    refine ⟨fun hlast _ => hlast, fun hends => ?_⟩
    rcases parts (closingQuote quote) (escapes u sqlite before quote) rest.length rest (Nat.le_refl _) with h | h | ⟨-, htext, -⟩
    · exact absurd h hcloses
    · exact hends h
    · rw [htext, List.getLast?_concat]
      exact fun heq => hclose (Option.some_inj.1 heq).symm

/-- The quoted tokens of a text that spell no name are those it ends in, unless the text ends in one right behind
a closing quote that is escaped. -/
theorem unterminated_noticed_iff (sql : List Char) : UnterminatedNoticed u sqlite sql ↔
    ∀ before quote rest t, QuotedAt u sqlite sql before quote rest t →
      ¬EndsEscaped (closingQuote quote) (escapes u sqlite before quote) rest :=
  forall_congr' fun _ => forall_congr' fun _ => forall_congr' fun _ => forall_congr' fun _ => forall_congr' unquoted_notices

end Scanned

/-- The last quote of `'a''` belongs to a doubled one. -/
theorem doubled_quote_unnoticed : ¬UnterminatedNoticed asciiTables false "'a''".toList := by
  intro h
  have hat : QuotedAt asciiTables false "'a''".toList [] '\'' "a''".toList ⟨"'a''".toList, 0, .literal⟩ :=
    ⟨by decide, Or.inr ⟨rfl, rfl⟩, rfl, rfl⟩
  refine (unquoted_notices hat).1 (h _ _ _ _ hat) ⟨?_, rfl⟩
  exact .plain (by decide) (by decide) (.doubled .nil)

theorem inside_doubled (close : Char) (name : List Char) : Inside close false (name.flatMap fun ch => if ch = close then [ch, ch] else [ch]) := by
  induction name with
  | nil => exact .nil
  | cons ch name ih =>
    rw [List.flatMap_cons]
    split_ifs with hch
    · subst hch
      exact .doubled ih
    · exact .plain hch (fun h => absurd h Bool.false_ne_true) ih

/-- A quoted name is the first token of what it begins, and spells the name. -/
theorem quoteIdent_token (u : CharTables) (sqlite : Bool) (db : DatabaseType) (name tail : List Char) (htail : tail.head? ≠ some db.quoteChar) :
    ∃ rest, scan u (quoteIdent db name ++ tail) sqlite = ⟨quoteIdent db name, 0, .identifier⟩ :: rest ∧
      Token.unquoted ⟨quoteIdent db name, 0, .identifier⟩ = some name := by
  have hquote : db.quoteChar = '\'' ∨ db.quoteChar = '"' ∨ db.quoteChar = '`' ∨ db.quoteChar = '[' := by
    rcases quoteChar_cases db with h | h <;> simp [h]
  have hliteral : db.quoteChar ≠ '\'' := by rcases quoteChar_cases db with h | h <;> rw [h] <;> decide
  have hbracket : db.quoteChar ≠ '[' := by rcases quoteChar_cases db with h | h <;> rw [h] <;> decide
  have hclosing : closingQuote db.quoteChar = db.quoteChar := if_neg hbracket
  have hescapes : escapes u sqlite [] db.quoteChar = false := by simp [escapes, hliteral]
  have hinside := inside_doubled db.quoteChar name
  generalize hbody : (name.flatMap fun ch => if ch = db.quoteChar then [ch, ch] else [ch]) = body at hinside
  have htext : quoteIdent db name = db.quoteChar :: (body ++ [db.quoteChar]) := by rw [← hbody]; rfl
  have hlex := (lexToken_quote u sqlite [] hquote (body ++ db.quoteChar :: tail)).1
  have hrun : quoteRun u sqlite [] db.quoteChar (body ++ db.quoteChar :: tail) = (1 + body.length + 1, .closed) := by
    have hclose := closingQuote_ne hquote
    rw [hclosing] at hclose
    have heq := @quoteRun_eq u sqlite [] db.quoteChar (body ++ db.quoteChar :: tail)
    rw [hescapes, hclosing, quotedEnd_closed hclose hinside htail] at heq
    exact heq
  rw [hrun, if_neg hliteral] at hlex
  rw [htext, List.cons_append, List.append_assoc, List.singleton_append, scan, scanFrom_cons, hlex, take_closed]
  have hunquoted : Token.unquoted ⟨db.quoteChar :: (body ++ [db.quoteChar]), 0, .identifier⟩ = some (undouble db.quoteChar body) := by
    rcases quoteChar_cases db with h | h
    · rw [h]
      exact unquoted_quoted .double body 0
    · rw [h]
      exact unquoted_quoted .backtick body 0
  refine ⟨_, rfl, hunquoted.trans ?_⟩
  rw [← hbody, undouble_double]

theorem quoteIdent_token_quotes : ∃ rest,
    scan asciiTables (quoteIdent .postgres "\"a\"\"".toList ++ " = 1".toList) true = ⟨quoteIdent .postgres "\"a\"\"".toList, 0, .identifier⟩ :: rest ∧
      Token.unquoted ⟨quoteIdent .postgres "\"a\"\"".toList, 0, .identifier⟩ = some "\"a\"\"".toList :=
  quoteIdent_token asciiTables true .postgres _ _ (by decide)

end TideOrm
