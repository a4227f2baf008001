import Mathlib.Data.List.Basic

/-! Texts read token by token, and quoted strings in which the quote is written twice. -/

namespace Lib

section Doubled

variable {α : Type} [DecidableEq α] (mark : α) (escapes : α → Bool)

/-- Each `mark` written twice. -/
def doubled (text : List α) : List α := text.flatMap fun a => if a = mark then [mark, mark] else [a]

/-- The string up to a single `mark`, and what follows; an escape takes the next item as it is. -/
def readDoubled : List α → Option (List α × List α)
  | [] => none
  | [a] => if a = mark then some ([], []) else none
  | a :: b :: rest =>
    if a = mark then
      if b = mark then (readDoubled rest).map fun read => (mark :: read.1, read.2) else some ([], b :: rest)
    else if escapes a then (readDoubled rest).map fun read => (b :: read.1, read.2)
    else (readDoubled (b :: rest)).map fun read => (a :: read.1, read.2)

variable {mark escapes}

theorem readDoubled_length (text : List α) {read rest : List α} (h : readDoubled mark escapes text = some (read, rest)) :
    rest.length < text.length := by
  induction text using readDoubled.induct mark escapes generalizing read with
  | case1 => cases h
  | case2 =>
    rw [readDoubled, if_pos rfl] at h
    cases h
    exact Nat.zero_lt_one
  | case3 a ha =>
    rw [readDoubled, if_neg ha] at h
    cases h
  | case4 rest' ih =>
    rw [readDoubled, if_pos rfl, if_pos rfl] at h
    obtain ⟨⟨read', rest''⟩, hread, heq⟩ := Option.map_eq_some_iff.1 h
    cases heq
    exact Nat.lt_succ_of_lt (Nat.lt_succ_of_lt (ih hread))
  | case5 b rest' hb =>
    rw [readDoubled, if_pos rfl, if_neg hb] at h
    cases h
    exact Nat.lt_succ_self _
  | case6 a b rest' ha hescape ih =>
    rw [readDoubled, if_neg ha, if_pos hescape] at h
    obtain ⟨⟨read', rest''⟩, hread, heq⟩ := Option.map_eq_some_iff.1 h
    cases heq
    exact Nat.lt_succ_of_lt (Nat.lt_succ_of_lt (ih hread))
  | case7 a b rest' ha hescape ih =>
    rw [readDoubled, if_neg ha, if_neg hescape] at h
    obtain ⟨⟨read', rest''⟩, hread, heq⟩ := Option.map_eq_some_iff.1 h
    cases heq
    exact Nat.lt_succ_of_lt (ih hread)

/-- A string is read back where nothing that follows could be taken for its quote. -/
theorem readDoubled_doubled {text : List α} (htext : ∀ a ∈ text, escapes a = false) {rest : List α} (hrest : rest.head? ≠ some mark) :
    readDoubled mark escapes (doubled mark text ++ mark :: rest) = some (text, rest) := by
  induction text with
  | nil =>
    cases rest with
    | nil => exact if_pos rfl
    | cons b rest =>
      show readDoubled mark escapes (mark :: b :: rest) = _
      rw [readDoubled, if_pos rfl, if_neg fun h => hrest (congrArg some h)]
  | cons a text ih =>
    have hread := ih fun b hb => htext b (List.mem_cons_of_mem _ hb)
    by_cases ha : a = mark
    · have hwritten : doubled mark (a :: text) = mark :: mark :: doubled mark text := by
        rw [doubled, List.flatMap_cons, if_pos ha]
        rfl
      rw [hwritten, List.cons_append, List.cons_append, readDoubled, if_pos rfl, if_pos rfl, hread, Option.map_some, ha]
    · have hwritten : doubled mark (a :: text) = a :: doubled mark text := by
        rw [doubled, List.flatMap_cons, if_neg ha]
        rfl
      obtain ⟨b, more, hmore⟩ := List.exists_cons_of_ne_nil (List.append_ne_nil_of_right_ne_nil (doubled mark text) (List.cons_ne_nil mark rest))
      rw [hwritten, List.cons_append, hmore, readDoubled, if_neg ha, htext a List.mem_cons_self, if_neg Bool.false_ne_true, ← hmore,
        hread, Option.map_some]

end Doubled

/-- What reads the first token of a text, and leaves less of it. -/
structure Lexer (α τ : Type) where
  next : List α → Option (τ × List α)
  shorter : ∀ {text token rest}, next text = some (token, rest) → rest.length < text.length

namespace Lexer

variable {α τ : Type} (lexer : Lexer α τ)

def tokens (text : List α) : Option (List τ) :=
  match text with
  | [] => some []
  | a :: rest =>
    match _h : lexer.next (a :: rest) with
    | none => none
    | some (token, rest) => (tokens rest).map (token :: ·)
termination_by text.length
decreasing_by exact lexer.shorter _h

/-- A text is read as `read` before any tail that begins with a stop. -/
def Reads (stops : α → Bool) (text : List α) (read : List τ) : Prop :=
  ∀ tail, (∀ a ∈ tail.head?, stops a = true) → lexer.tokens (text ++ tail) = (lexer.tokens tail).map (read ++ ·)

variable {lexer} {stops : α → Bool}

theorem tokens_of_next {text rest : List α} {token : τ} (h : lexer.next text = some (token, rest)) :
    lexer.tokens text = (lexer.tokens rest).map (token :: ·) := by
  cases text with
  | nil => exact absurd (lexer.shorter h) (Nat.not_lt_zero _)
  | cons a text =>
    rw [tokens]
    split
    · next hnone =>
      rw [hnone] at h
      cases h
    · next token' rest' hsome =>
      rw [hsome] at h
      cases h
      rfl

theorem tokens_eq_cons {text : List α} {token : τ} {read : List τ} (h : lexer.tokens text = some (token :: read)) :
    ∃ rest, lexer.next text = some (token, rest) ∧ lexer.tokens rest = some read := by
  cases text with
  | nil =>
    rw [tokens] at h
    cases h
  | cons a text =>
    cases hnext : lexer.next (a :: text) with
    | none =>
      rw [tokens] at h
      split at h
      · cases h
      · next token' rest' hsome =>
        rw [hnext] at hsome
        cases hsome
    | some pair =>
      obtain ⟨token', rest⟩ := pair
      rw [tokens_of_next hnext] at h
      obtain ⟨read', hread, heq⟩ := Option.map_eq_some_iff.1 h
      cases heq
      exact ⟨rest, rfl, hread⟩

/-- What holds of every token that can come first holds of every token. -/
theorem tokens_forall {P : τ → Prop} (h : ∀ {text token rest}, lexer.next text = some (token, rest) → P token) :
    ∀ {read : List τ} {text : List α}, lexer.tokens text = some read → ∀ token ∈ read, P token := by
  intro read
  induction read with
  | nil =>
    intro text _ token hmem
    cases hmem
  | cons token read ih =>
    intro text htext
    obtain ⟨rest, hnext, hrest⟩ := tokens_eq_cons htext
    exact List.forall_mem_cons.2 ⟨h hnext, ih hrest⟩

theorem Reads.tokens {text : List α} {read : List τ} (h : lexer.Reads stops text read) : lexer.tokens text = some read := by
  have hread := h [] (fun _ hmem => by cases hmem)
  rw [List.append_nil, Lexer.tokens, Option.map_some, List.append_nil] at hread
  exact hread

/-- One token, read off before any stop. -/
theorem Reads.single {text : List α} {token : τ}
    (h : ∀ tail, (∀ a ∈ tail.head?, stops a = true) → lexer.next (text ++ tail) = some (token, tail)) :
    lexer.Reads stops text [token] := fun tail htail => tokens_of_next (h tail htail)

/-- A text that begins with a stop may follow. -/
theorem Reads.append {text text' : List α} {read read' : List τ} (h : lexer.Reads stops text read)
    (h' : lexer.Reads stops text' read') (hstop : ∀ a ∈ text'.head?, stops a = true) :
    lexer.Reads stops (text ++ text') (read ++ read') := by
  intro tail htail
  have hnext : ∀ a ∈ (text' ++ tail).head?, stops a = true := by
    cases text' with
    | nil => exact htail
    | cons b text' => exact hstop
  rw [List.append_assoc, h _ hnext, h' tail htail, Option.map_map]
  congr 1
  funext rest
  exact (List.append_assoc read read' rest).symm

/-- After a token that no text could lengthen, any text may follow. -/
theorem Reads.after {text text' : List α} {token : τ} {read : List τ}
    (h : ∀ tail, lexer.next (text ++ tail) = some (token, tail)) (h' : lexer.Reads stops text' read) :
    lexer.Reads stops (text ++ text') (token :: read) := by
  intro tail htail
  rw [List.append_assoc, tokens_of_next (h _), h' tail htail, Option.map_map]
  rfl

end Lexer

end Lib
