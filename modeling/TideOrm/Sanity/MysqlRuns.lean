import TideOrm.Lib.Words
import TideOrm.Spec.DeferForeignKeys
import TideOrm.Sanity.SqlText

/-! The runs a MySQL definition is read in: they make up the text, and runs that are followed by
no quote are read the same way before any other text that begins with none. -/

namespace TideOrm

open Lib

section Runs

/-- The length of the first run. -/
def mysqlRunLen (ch : Char) (rest : List Char) : ℕ :=
  if isQuote ch then quotedLen (ch :: rest) ch (ch != '`') else 1

theorem mysqlRunLen_pos (ch : Char) (rest : List Char) : 1 ≤ mysqlRunLen ch rest := by
  rw [mysqlRunLen]
  split_ifs
  · exact quotedLen_pos ch rest ch _
  · exact Nat.le_refl 1

theorem mysqlRunsFrom_skip (skip : ℕ) (ddl : List Char) : mysqlRunsFrom skip ddl = mysqlRuns (ddl.drop skip) := by
  induction ddl generalizing skip with
  | nil => rw [List.drop_nil, mysqlRuns, mysqlRunsFrom, mysqlRunsFrom]
  | cons ch rest ih =>
    cases skip with
    | zero => rfl
    | succ skip => exact ih skip

theorem mysqlRuns_cons (ch : Char) (rest : List Char) :
    mysqlRuns (ch :: rest) = (ch :: rest).take (mysqlRunLen ch rest) ::
      mysqlRuns ((ch :: rest).drop (mysqlRunLen ch rest)) := by
  have hdrop : (ch :: rest).drop (mysqlRunLen ch rest) = rest.drop (mysqlRunLen ch rest - 1) := by
    obtain ⟨n, hn⟩ := Nat.exists_eq_add_of_lt (mysqlRunLen_pos ch rest)
    rw [hn, Nat.zero_add, List.drop_succ_cons, Nat.add_sub_cancel]
  rw [hdrop, ← mysqlRunsFrom_skip]
  rfl

theorem mysqlRuns_plain {ch : Char} (h : isQuote ch = false) (rest : List Char) :
    mysqlRuns (ch :: rest) = [ch] :: mysqlRuns rest := by
  rw [mysqlRuns_cons, mysqlRunLen, h]
  rfl

/-- The runs make up the text. -/
theorem mysqlRuns_flatten (ddl : List Char) : (mysqlRuns ddl).flatten = ddl := by
  induction hlen : ddl.length using Nat.strong_induction_on generalizing ddl with
  | _ n ih =>
    cases ddl with
    | nil => rfl
    | cons ch rest =>
      have hpos := mysqlRunLen_pos ch rest
      have htail := ih _ (by
        rw [← hlen, List.length_drop, List.length_cons]
        omega) ((ch :: rest).drop (mysqlRunLen ch rest)) rfl
      rw [mysqlRuns_cons, List.flatten_cons, htail, List.take_append_drop]

/-- What is left after some runs is read from there. -/
theorem mysqlRuns_tail {ddl : List Char} {front tail : List (List Char)} (h : mysqlRuns ddl = front ++ tail) :
    mysqlRuns tail.flatten = tail := by
  induction front generalizing ddl with
  | nil =>
    rw [List.nil_append] at h
    rw [← h, mysqlRuns_flatten]
  | cons run front ih =>
    cases ddl with
    | nil => cases h
    | cons ch rest =>
      rw [mysqlRuns_cons] at h
      exact ih (List.cons.inj h).2

/-- The runs are read off any text that goes on with no quote. -/
def Stands (runs : List (List Char)) : Prop :=
  ∀ ch rest, isQuote ch = false → mysqlRuns (runs.flatten ++ ch :: rest) = runs ++ mysqlRuns (ch :: rest)

theorem Stands.nil : Stands [] := fun _ _ _ => rfl

/-- A quoted run ends where it does whatever follows, as long as that is not its quote. -/
theorem mysqlRunLen_quoted {quote ch ch' : Char} {body rest rest' : List Char} (hquote : isQuote quote = true)
    (h : mysqlRunLen quote (body ++ ch :: rest) = body.length + 1) (hnext : ch' = ch ∨ isQuote ch' = false) :
    mysqlRunLen quote (body ++ ch' :: rest') = body.length + 1 := by
  rw [mysqlRunLen, if_pos hquote] at h ⊢
  have hbracket : quote ≠ '[' := by
    rintro rfl
    cases hquote
  rw [quotedLen, if_neg hbracket, quotedRun, List.drop_succ_cons, List.drop_zero] at h ⊢
  generalize hmode : (if quote != '`' then EscapeMode.backslash else .doubled) = mode at h ⊢
  have hreject : mode ≠ .rejectAmbiguous := by
    rw [← hmode]
    split_ifs <;> decide
  obtain ⟨n, hrun⟩ : ∃ n, quotedEnd quote mode (quote :: (body ++ ch :: rest)).length false 1 (body ++ ch :: rest) = n := ⟨_, rfl⟩
  rw [hrun] at h
  have hclosed : n = (body.length + 1, .closed) := by
    refine Prod.ext h ?_
    by_contra hopen
    have hstop := quotedEnd_open hreject _ _ _ (by rwa [hrun])
    rw [hrun, h, List.length_cons, List.length_append, List.length_cons] at hstop
    omega
  rw [hclosed] at hrun
  have hsplit := quotedEnd_split hrun (quote :: (body ++ ch' :: rest')).length
  have hne := quotedEnd_next hrun
  rw [Nat.add_sub_cancel, List.take_left] at hsplit
  rw [Nat.add_sub_cancel, List.drop_left] at hne
  have htail : (ch' :: rest').head? ≠ some quote := by
    rintro heq
    rcases hnext with rfl | hnext
    · exact hne heq
    · rw [Option.some.inj heq] at hnext
      exact Bool.false_ne_true (hnext.symm.trans hquote)
  rw [quotedEnd_append htail hsplit]

/-- Runs that something follows once. -/
theorem stands_of_read {runs : List (List Char)} {ch : Char} {rest : List Char}
    (h : mysqlRuns (runs.flatten ++ ch :: rest) = runs ++ mysqlRuns (ch :: rest)) : Stands runs := by
  induction runs with
  | nil => exact .nil
  | cons run runs ih =>
    obtain ⟨x, X, hX⟩ : ∃ x X, runs.flatten ++ ch :: rest = x :: X := by
      cases runs.flatten with
      | nil => exact ⟨_, _, rfl⟩
      | cons x text => exact ⟨_, _, rfl⟩
    obtain ⟨c, text, htext⟩ : ∃ c text, run ++ x :: X = c :: text := by
      cases run with
      | nil => exact ⟨_, _, rfl⟩
      | cons c body => exact ⟨_, _, rfl⟩
    rw [List.flatten_cons, List.append_assoc, hX, htext, mysqlRuns_cons] at h
    obtain ⟨htake, hdrop⟩ := List.cons.inj h
    -- the run is the text's first `body.length + 1` characters
    have hpos := mysqlRunLen_pos c text
    have hlen : mysqlRunLen c text = run.length := by
      have htotal := congrArg List.length htext
      have htakelen := congrArg List.length htake
      rw [List.length_append, List.length_cons] at htotal
      rw [List.length_take] at htakelen
      omega
    obtain ⟨body, rfl⟩ : ∃ body, run = c :: body := by
      cases run with
      | nil =>
        rw [List.length_nil] at hlen
        omega
      | cons c' body => exact ⟨body, by rw [(List.cons.inj htext).1]⟩
    obtain rfl : body ++ x :: X = text := (List.cons.inj htext).2
    rw [List.length_cons] at hlen
    rw [hlen, List.drop_succ_cons, List.drop_left, ← hX] at hdrop
    intro ch' rest' hch'
    obtain ⟨x', X', hX', hnext⟩ : ∃ x' X', runs.flatten ++ ch' :: rest' = x' :: X' ∧ (x' = x ∨ isQuote x' = false) := by
      cases hflat : runs.flatten with
      | nil => exact ⟨_, _, rfl, .inr hch'⟩
      | cons first flat =>
        rw [hflat] at hX
        exact ⟨_, _, rfl, .inl (List.cons.inj hX).1⟩
    have hlen' : mysqlRunLen c (body ++ x' :: X') = body.length + 1 := by
      cases hc : isQuote c with
      | true => exact mysqlRunLen_quoted hc hlen hnext
      | false =>
        rw [mysqlRunLen, hc] at hlen ⊢
        exact hlen
    rw [List.flatten_cons, List.append_assoc, hX', List.cons_append, mysqlRuns_cons, hlen', List.take_succ_cons,
      List.take_left, List.drop_succ_cons, List.drop_left, ← hX', ih hdrop ch' rest' hch', List.cons_append]

/-- Runs of a text before one of its characters. -/
theorem stands_between {ddl : List Char} {front runs tail : List (List Char)} {ch : Char}
    (h : mysqlRuns ddl = front ++ (runs ++ [ch] :: tail)) : Stands runs := by
  have hread := mysqlRuns_tail h
  have hrest : mysqlRuns (ch :: tail.flatten) = [ch] :: tail := by
    rw [← List.append_assoc] at h
    exact mysqlRuns_tail h
  rw [List.flatten_append, List.flatten_cons, List.singleton_append, ← hrest] at hread
  exact stands_of_read hread

/-- The items that commas divide what stands before a character into. -/
theorem stands_items {ddl : List Char} {items : List (List (List Char))} {front tail : List (List Char)} {ch : Char}
    (h : mysqlRuns ddl = front ++ ([[',']].intercalate items ++ [ch] :: tail)) : ∀ item ∈ items, Stands item := by
  induction items generalizing front with
  | nil =>
    intro item hitem
    cases hitem
  | cons item items ih =>
    cases items with
    | nil =>
      intro other hother
      rw [List.mem_singleton.1 hother]
      rw [List.intercalate_singleton] at h
      exact stands_between h
    | cons next items =>
      rw [List.intercalate_cons_cons, List.append_assoc, List.append_assoc, List.singleton_append] at h
      intro other hother
      rcases List.mem_cons.1 hother with rfl | hother
      · exact stands_between h
      · refine @ih (front ++ item ++ [[',']]) ?_ other hother
        rw [h, List.append_assoc, List.append_assoc]
        rfl

variable {runs runs' : List (List Char)} {ch : Char}

theorem Stands.read (h : Stands runs) (hch : isQuote ch = false) (rest : List Char) :
    mysqlRuns (runs.flatten ++ ch :: rest) = runs ++ [ch] :: mysqlRuns rest := by
  rw [h ch rest hch, mysqlRuns_plain hch]

theorem Stands.join (h : Stands runs) (hch : isQuote ch = false) (h' : Stands runs') : Stands (runs ++ [ch] :: runs') := by
  intro other rest hother
  rw [List.flatten_append, List.flatten_cons, List.append_assoc, List.singleton_append, List.cons_append, h.read hch,
    h' other rest hother, List.append_assoc, List.cons_append]

theorem Stands.intercalate {items : List (List (List Char))} (h : ∀ item ∈ items, Stands item) :
    Stands ([[',']].intercalate items) := by
  have hjoin (left right : List (List Char)) (hleft : Stands left) (hright : Stands right) : Stands (left ++ [[',']] ++ right) := by
    rw [List.append_assoc]
    exact hleft.join rfl hright
  cases items with
  | nil => exact .nil
  | cons item items => exact Lib.intercalate_induction hjoin (List.cons_ne_nil _ _) h

end Runs

end TideOrm
