import TideOrm.Spec.SqlSafety
import Mathlib.Data.List.DropRight
import Mathlib.Data.List.TakeWhile

/-! Where quoted runs end, in each reading of backslashes, and how the scans step over
the characters of a run. -/

namespace TideOrm

theorem isAlpha_bounds {ch : Char} (h : ch.isAlpha = true) :
    (65 ≤ ch.toNat ∧ ch.toNat ≤ 90) ∨ (97 ≤ ch.toNat ∧ ch.toNat ≤ 122) := by
  rcases Bool.or_eq_true_iff.1 h with hupper | hlower
  · obtain ⟨hlow, hhigh⟩ := of_decide_eq_true hupper
    exact .inl ⟨UInt32.le_iff_toNat_le.1 hlow, UInt32.le_iff_toNat_le.1 hhigh⟩
  · obtain ⟨hlow, hhigh⟩ := Bool.and_eq_true_iff.1 hlower
    exact .inr ⟨UInt32.le_iff_toNat_le.1 (of_decide_eq_true hlow), UInt32.le_iff_toNat_le.1 (of_decide_eq_true hhigh)⟩

theorem toLower_isAlpha {ch : Char} (h : ch.toLower.isAlpha = true) : ch.isAlpha = true := by
  by_cases hupper : ch.val ≥ 'A'.val ∧ ch.val ≤ 'Z'.val
  · exact Bool.or_eq_true_iff.2 (.inl (decide_eq_true hupper))
  · have hsame : ch.toLower = ch := dif_neg hupper
    rwa [hsame] at h

section Quoted

attribute [local simp] quotedEnd

variable {close : Char} {mode : EscapeMode} {stop : ℕ}

/-- A closed run ends inside the text, right after the closing quote. -/
theorem quotedEnd_closed_bounds : ∀ {rest : List Char} {taken : Bool} {index n : ℕ},
    quotedEnd close mode stop taken index rest = (n, .closed) → index < n ∧ n ≤ index + rest.length := by
  intro rest
  induction rest with
  | nil =>
    intro taken index n h
    simp at h
  | cons ch rest ih =>
    intro taken index n h
    have step : ∀ {taken'}, quotedEnd close mode stop taken' (index + 1) rest = (n, .closed) →
        index < n ∧ n ≤ index + (ch :: rest).length := by
      intro taken' h'
      obtain ⟨h1, h2⟩ := ih h'
      simp only [List.length_cons]
      omega
    cases taken with
    | true => exact step h
    | false =>
      simp only [quotedEnd] at h
      split_ifs at h
      · simp at h
      · exact step h
      · exact step h
      · exact step h
      · obtain ⟨rfl, -⟩ := Prod.mk.inj h
        simp only [List.length_cons]
        omega
      · exact step h

/-- One quote more at the front changes where a run ends, or whether it does. -/
theorem quotedEnd_quote_ne (hclose : close ≠ '\\') (rest : List Char) : ∀ (mode mode' : EscapeMode) (index : ℕ),
    quotedEnd close mode stop false index (close :: rest) ≠ quotedEnd close mode' stop false (index + 1) rest := by
  induction rest with
  | nil =>
    intro mode mode' index
    simp [hclose]
  | cons next rest ih =>
    intro mode mode' index
    by_cases hnext : next = close
    · subst hnext
      -- the pair is inside, and the reading that is one quote ahead stands before the second
      have hpair : quotedEnd next mode stop false index (next :: next :: rest) =
          quotedEnd next mode stop false (index + 2) rest := by simp [hclose]
      rw [hpair]
      exact (ih mode' mode (index + 1)).symm
    · have hclosed : quotedEnd close mode stop false index (close :: next :: rest) = (index + 1, .closed) := by
        simp [hclose, hnext]
      rw [hclosed]
      intro heq
      obtain ⟨hlt, -⟩ := quotedEnd_closed_bounds heq.symm
      omega

/-- The scan for any dialect stops at an escape exactly where the two readings part. -/
theorem quotedEnd_reject (hclose : close ≠ '\\') : ∀ (k : ℕ) (rest : List Char) (index : ℕ), rest.length ≤ k →
    ((quotedEnd close .rejectAmbiguous stop false index rest).2 = .ambiguousEscape ∧
      quotedEnd close .doubled stop false index rest ≠ quotedEnd close .backslash stop false index rest) ∨
    ((quotedEnd close .rejectAmbiguous stop false index rest).2 ≠ .ambiguousEscape ∧
      quotedEnd close .doubled stop false index rest = quotedEnd close .rejectAmbiguous stop false index rest ∧
      quotedEnd close .backslash stop false index rest = quotedEnd close .rejectAmbiguous stop false index rest) := by
  intro k
  induction k with
  | zero =>
    intro rest index hlen
    rw [List.length_eq_zero_iff.1 (Nat.le_zero.1 hlen)]
    simp
  | succ k ih =>
    intro rest index hlen
    cases rest with
    | nil => simp
    | cons ch rest =>
      have hrest : rest.length ≤ k := by simpa using hlen
      by_cases hslash : ch = '\\'
      · subst hslash
        cases rest with
        | nil => simp [hclose.symm]
        | cons next rest =>
          by_cases hnext : next = close
          · -- the quote is escaped in one reading and read in the other
            subst hnext
            refine .inl ⟨by simp, ?_⟩
            have hdoubled : quotedEnd next .doubled stop false index ('\\' :: next :: rest) =
                quotedEnd next .doubled stop false (index + 1) (next :: rest) := by simp [hclose.symm]
            have hbackslash : quotedEnd next .backslash stop false index ('\\' :: next :: rest) =
                quotedEnd next .backslash stop false (index + 2) rest := by simp
            rw [hdoubled, hbackslash]
            exact quotedEnd_quote_ne hclose rest _ _ _
          · -- the next character is skipped or ordinary, so every reading goes on after it
            have hnext' : rest.length ≤ k := by
              simp only [List.length_cons] at hrest
              omega
            have hreject : quotedEnd close .rejectAmbiguous stop false index ('\\' :: next :: rest) =
                quotedEnd close .rejectAmbiguous stop false (index + 2) rest := by
              by_cases hpair : next = '\\'
              · simp [hpair, hclose.symm]
              · simp [hpair, hnext]
            have hdoubled : quotedEnd close .doubled stop false index ('\\' :: next :: rest) =
                quotedEnd close .doubled stop false (index + 2) rest := by simp [hclose.symm, hnext]
            have hbackslash : quotedEnd close .backslash stop false index ('\\' :: next :: rest) =
                quotedEnd close .backslash stop false (index + 2) rest := by simp
            rw [hreject, hdoubled, hbackslash]
            exact ih rest (index + 2) hnext'
      · by_cases hch : ch = close
        · subst hch
          cases rest with
          | nil => simp [hslash]
          | cons next rest =>
            by_cases hnext : next = ch
            · subst hnext
              have hlen' : rest.length ≤ k := by
                simp only [List.length_cons] at hrest
                omega
              have hpair : ∀ mode, quotedEnd next mode stop false index (next :: next :: rest) =
                  quotedEnd next mode stop false (index + 2) rest := by
                intro mode
                simp [hslash]
              rw [hpair, hpair, hpair]
              exact ih rest (index + 2) hlen'
            · simp [hslash, hnext]
        · have hstep : ∀ mode, quotedEnd close mode stop false index (ch :: rest) =
              quotedEnd close mode stop false (index + 1) rest := by
            intro mode
            simp [hslash, hch]
          rw [hstep, hstep, hstep]
          exact ih rest (index + 1) hrest

/-- A run closed where a backslash escapes no quote ends there in every reading. -/
theorem quotedEnd_modes (hclose : close ≠ '\\') {rest : List Char} {index n : ℕ}
    (h : quotedEnd close .rejectAmbiguous stop false index rest = (n, .closed)) :
    quotedEnd close .doubled stop false index rest = (n, .closed) ∧
      quotedEnd close .backslash stop false index rest = (n, .closed) := by
  obtain ⟨hambiguous, -⟩ | ⟨-, hd, hb⟩ := @quotedEnd_reject close stop hclose rest.length rest index (Nat.le_refl _)
  · rw [h] at hambiguous
    cases hambiguous
  · exact ⟨hd.trans h, hb.trans h⟩

/-- Where a closed run ends depends on its own characters and the one after it. -/
theorem quotedEnd_append {stop' : ℕ} {tail : List Char} (htail : tail.head? ≠ some close) :
    ∀ {rest : List Char} {taken : Bool} {index n : ℕ},
      quotedEnd close mode stop taken index rest = (n, .closed) →
      quotedEnd close mode stop' taken index (rest ++ tail) = (n, .closed) := by
  intro rest
  induction rest with
  | nil =>
    intro taken index n h
    simp at h
  | cons ch rest ih =>
    intro taken index n h
    have hhead : rest = [] ∨ (rest ++ tail).head? = rest.head? := by
      cases rest with
      | nil => exact Or.inl rfl
      | cons _ _ => exact Or.inr rfl
    rw [List.cons_append]
    cases taken with
    | true => exact ih h
    | false =>
      rcases hhead with rfl | hhead
      · simp only [quotedEnd, List.head?_nil, List.nil_append] at h ⊢
        split_ifs at h ⊢ <;> simp_all
      · simp only [quotedEnd, hhead] at h ⊢
        split_ifs at h ⊢
        · simp at h
        · exact ih h
        · exact ih h
        · exact ih h
        · exact h
        · exact ih h

/-- The characters of a closed run, and what follows it. -/
theorem quotedEnd_split : ∀ {rest : List Char} {taken : Bool} {index n : ℕ},
    quotedEnd close mode stop taken index rest = (n, .closed) →
    ∀ stop', quotedEnd close mode stop' taken index (rest.take (n - index)) = (n, .closed) := by
  intro rest
  induction rest with
  | nil =>
    intro taken index n h
    simp at h
  | cons ch rest ih =>
    intro taken index n h stop'
    have step : ∀ {taken'}, quotedEnd close mode stop taken' (index + 1) rest = (n, .closed) →
        (ch :: rest).take (n - index) = ch :: rest.take (n - (index + 1)) ∧
        (rest.take (n - (index + 1))).head? = rest.head? ∧
        quotedEnd close mode stop' taken' (index + 1) (rest.take (n - (index + 1))) = (n, .closed) := by
      intro taken' h'
      obtain ⟨h1, -⟩ := quotedEnd_closed_bounds h'
      have hn : n - index = (n - (index + 1)) + 1 := by omega
      have hpos : n - (index + 1) ≠ 0 := by omega
      exact ⟨by rw [hn, List.take_succ_cons], by rw [List.head?_take, if_neg hpos], ih h' stop'⟩
    cases taken with
    | true =>
      obtain ⟨htake, -, hrun⟩ := step h
      rw [htake]
      exact hrun
    | false =>
      simp only [quotedEnd] at h
      split_ifs at h with h1 h2 h3 h4 h5
      · simp at h
      · obtain ⟨htake, hhead, hrun⟩ := step h
        rw [htake]
        simpa only [quotedEnd, if_pos h1, if_pos h2, hhead, if_neg h3] using hrun
      · obtain ⟨htake, -, hrun⟩ := step h
        rw [htake]
        simpa only [quotedEnd, if_pos h1, if_neg h2] using hrun
      · obtain ⟨htake, hhead, hrun⟩ := step h
        rw [htake]
        simpa only [quotedEnd, if_neg h1, if_pos h4, hhead, if_pos h5] using hrun
      · obtain ⟨rfl, -⟩ := Prod.mk.inj h
        rw [Nat.add_sub_cancel_left, List.take_succ_cons, List.take_zero]
        simp only [quotedEnd, if_neg h1, if_pos h4, List.head?_nil, reduceCtorEq, if_false]
      · obtain ⟨htake, -, hrun⟩ := step h
        rw [htake]
        simpa only [quotedEnd, if_neg h1, if_neg h4] using hrun

theorem quotedEnd_last : ∀ {rest : List Char} {taken : Bool} {index n : ℕ},
    quotedEnd close mode stop taken index rest = (n, .closed) → (rest.take (n - index)).getLast? = some close := by
  intro rest
  induction rest with
  | nil =>
    intro taken index n h
    simp at h
  | cons ch rest ih =>
    intro taken index n h
    have hstep : ∀ {taken'}, quotedEnd close mode stop taken' (index + 1) rest = (n, .closed) →
        ((ch :: rest).take (n - index)).getLast? = some close := by
      intro taken' h'
      have hlt := (quotedEnd_closed_bounds h').1
      have hsub : n - index = (n - (index + 1)) + 1 := by omega
      rw [hsub, List.take_succ_cons, List.getLast?_cons, ih h']
      rfl
    cases taken with
    | true => exact hstep h
    | false =>
      simp only [quotedEnd] at h
      split_ifs at h with hslash hreject hquote hclose hdouble
      · simp at h
      · exact hstep h
      · exact hstep h
      · exact hstep h
      · obtain ⟨rfl, -⟩ := Prod.mk.inj h
        simp [hclose]
      · exact hstep h

/-- A run that is not closed goes on to the end. -/
theorem quotedEnd_open (hmode : mode ≠ .rejectAmbiguous) : ∀ (rest : List Char) (taken : Bool) (index : ℕ),
    (quotedEnd close mode stop taken index rest).2 ≠ .closed → (quotedEnd close mode stop taken index rest).1 = stop := by
  intro rest
  induction rest with
  | nil =>
    intro taken index _
    cases taken <;> rfl
  | cons ch rest ih =>
    intro taken index h
    cases taken with
    | true => exact ih false (index + 1) h
    | false =>
      simp only [quotedEnd, if_neg hmode] at h ⊢
      split_ifs at h ⊢ with h1 h2 h3
      · exact ih _ _ h
      · exact ih _ _ h
      · exact absurd rfl h
      · exact ih _ _ h

theorem quotedEnd_pos (hstop : 1 ≤ stop) : ∀ {rest : List Char} {taken : Bool} {index : ℕ}, 1 ≤ index →
    1 ≤ (quotedEnd close mode stop taken index rest).1 := by
  intro rest
  induction rest with
  | nil => intro taken index _; cases taken <;> exact hstop
  | cons ch rest ih =>
    intro taken index hindex
    cases taken with
    | true => exact ih (by omega)
    | false =>
      simp only [quotedEnd]
      split_ifs
      · exact hindex
      · exact ih (by omega)
      · exact ih (by omega)
      · exact ih (by omega)
      · exact Nat.le_add_left 1 index
      · exact ih (by omega)

theorem quotedLen_pos (first : Char) (rest : List Char) (delimiter : Char) (backslash : Bool) :
    1 ≤ quotedLen (first :: rest) delimiter backslash :=
  quotedEnd_pos (Nat.le_add_left 1 rest.length) (Nat.le_refl 1)

end Quoted

section Lengths

variable (u : CharTables)

theorem sqliteSuffixLen_le : ∀ (pos : ℕ) (rest : List Char), pos ≤ sqliteSuffixLen pos rest := by
  intro pos rest
  induction rest generalizing pos with
  | nil => exact Nat.le_refl pos
  | cons ch rest ih =>
    simp only [sqliteSuffixLen]
    split_ifs
    · exact Nat.le_refl pos
    · exact Nat.le_succ pos
    · exact (Nat.le_succ pos).trans (ih (pos + 1))

theorem sqliteNameLen_le : ∀ (rest : List Char) (hasName taken : Bool) (pos : ℕ),
    pos ≤ sqliteNameLen u hasName taken pos rest := by
  intro rest
  induction rest with
  | nil => intro hasName taken pos; cases taken <;> exact Nat.le_refl pos
  | cons ch rest ih =>
    intro hasName taken pos
    cases taken with
    | true => exact (Nat.le_succ pos).trans (ih _ _ _)
    | false =>
      simp only [sqliteNameLen]
      split_ifs
      · exact (Nat.le_succ pos).trans (ih _ _ _)
      · exact (Nat.le_succ pos).trans (ih _ _ _)
      · exact (Nat.le_succ pos).trans (sqliteSuffixLen_le _ _)
      · exact Nat.le_refl pos

theorem dollarLen_pos {sql : List Char} {n : ℕ} (h : dollarLen u sql = some n) : 1 ≤ n := by
  unfold dollarLen at h
  cases htag : dollarTagLen u sql with
  | none =>
    rw [htag] at h
    cases h
  | some opening =>
    rw [htag] at h
    obtain ⟨k, -, rfl⟩ := Option.map_eq_some_iff.1 h
    have hopening : 2 ≤ opening := by
      unfold dollarTagLen at htag
      dsimp only at htag
      split_ifs at htag
      obtain rfl := Option.some.inj htag
      omega
    omega

/-- Neither quotes nor what begins another token stand in a word. -/
theorem identifierChar_not_quote {ch : Char} (h : identifierChar u ch = true) : isQuote ch = false := by
  rw [Bool.eq_false_iff]
  intro hq
  simp only [isQuote, Bool.or_eq_true, beq_iff_eq] at hq
  have hascii : isAscii ch = true := by
    rcases hq with (rfl | rfl) | rfl <;> decide
  obtain ⟨halpha, hnum⟩ := u.ascii ch hascii
  simp only [identifierChar, CharTables.isAlphanumeric, halpha, hnum] at h
  rcases hq with (rfl | rfl) | rfl <;> revert h <;> decide

theorem takeWhile_ends {p : Char → Bool} {body rest : List Char} (hbody : ∀ ch ∈ body, p ch = true)
    (hrest : ∀ ch ∈ rest.head?, p ch = false) : (body ++ rest).takeWhile p = body := by
  rw [List.takeWhile_append_of_pos hbody]
  cases rest with
  | nil => exact List.append_nil _
  | cons ch rest =>
    rw [List.takeWhile_cons_of_neg (by rw [hrest ch rfl]; exact Bool.false_ne_true), List.append_nil]

theorem takeWhile_pos {p : Char → Bool} {first : Char} (h : p first = true) (rest : List Char) :
    1 ≤ ((first :: rest).takeWhile p).length := by
  simp [h]

end Lengths


section Skip

variable (u : CharTables)

theorem scanFrom_cons (sqlite : Bool) (before : List Char) (offset : ℕ) (first : Char) (rest : List Char) :
    scanFrom u sqlite 0 before offset (first :: rest) =
      ⟨(first :: rest).take (lexToken u sqlite before first rest).2, offset,
        (lexToken u sqlite before first rest).1⟩ ::
      scanFrom u sqlite ((lexToken u sqlite before first rest).2 - 1) (first :: before)
        (offset + first.utf8Size) rest := rfl

theorem scanFrom_skip (sqlite : Bool) : ∀ (rest : List Char) (skip : ℕ) (before : List Char) (offset : ℕ),
    ∃ before' offset', scanFrom u sqlite skip before offset rest =
      scanFrom u sqlite 0 before' offset' (rest.drop skip) := by
  intro rest
  induction rest with
  | nil => intro skip before offset; exact ⟨before, offset, by cases skip <;> rfl⟩
  | cons ch rest ih =>
    intro skip before offset
    cases skip with
    | zero => exact ⟨before, offset, rfl⟩
    | succ skip => exact ih skip _ _

theorem findForbiddenFrom_skip : ∀ (rest : List Char) (skip : ℕ) (previous : Option Char),
    ∃ previous', findForbiddenFrom u skip previous rest = findForbiddenFrom u 0 previous' (rest.drop skip) := by
  intro rest
  induction rest with
  | nil => intro skip previous; exact ⟨previous, by cases skip <;> rfl⟩
  | cons ch rest ih =>
    intro skip previous
    cases skip with
    | zero => exact ⟨previous, rfl⟩
    | succ skip => exact ih skip _

end Skip

section Trim

theorem trim_eq_self {text : List Char} (h : text.any isWhitespace = false) : trim text = text := by
  have hfront : text.dropWhile isWhitespace = text := by
    rw [List.dropWhile_eq_self_iff]
    intro hlength
    simpa using List.any_eq_false.1 h _ (List.getElem_mem hlength)
  have hback : text.reverse.dropWhile isWhitespace = text.reverse := by
    rw [List.dropWhile_eq_self_iff]
    intro hlength
    simpa using List.any_eq_false.1 h _ (List.mem_reverse.1 (List.getElem_mem hlength))
  rw [trim, hfront, hback, List.reverse_reverse]

theorem trim_head {text : List Char} {ch : Char} (h : (trim text).head? = some ch) : isWhitespace ch = false := by
  have hprefix : trim text <+: text.dropWhile isWhitespace := List.rdropWhile_prefix ..
  have hne : text.dropWhile isWhitespace ≠ [] := by
    rintro hnil
    rw [hnil] at hprefix
    simp [List.prefix_nil.1 hprefix] at h
  have hhead : (text.dropWhile isWhitespace).head hne = ch := by
    obtain ⟨tail, htail⟩ := hprefix
    cases htrim : trim text with
    | nil => simp [htrim] at h
    | cons c rest =>
      obtain rfl : c = ch := by simpa [htrim] using h
      simp [← htail, htrim]
  simpa [hhead] using List.head_dropWhile_not isWhitespace hne

theorem trim_front {text : List Char} (h : ∀ ch, text.head? = some ch → isWhitespace ch = false) : trim text <+: text := by
  have hfront : text.dropWhile isWhitespace = text := by
    cases text with
    | nil => rfl
    | cons ch rest => simp [h ch rfl]
  rw [trim, hfront]
  exact List.rdropWhile_prefix ..

theorem trim_trim (text : List Char) : trim (trim text) = trim text := by
  have hfront : (trim text).dropWhile isWhitespace = trim text := by
    cases htrim : trim text with
    | nil => rfl
    | cons ch rest =>
      have hhead : isWhitespace ch = false := trim_head (by rw [htrim]; rfl)
      simp [hhead]
  have hback : (trim text).rdropWhile isWhitespace = trim text := List.rdropWhile_idempotent ..
  rw [trim, hfront]
  exact hback

theorem trim_of_ends {text : List Char} (hhead : ∀ ch ∈ text.head?, isWhitespace ch = false)
    (hlast : ∀ ch ∈ text.getLast?, isWhitespace ch = false) : trim text = text := by
  have hdrop : ∀ {text : List Char}, (∀ ch ∈ text.head?, isWhitespace ch = false) → text.dropWhile isWhitespace = text := by
    intro text h
    cases text with
    | nil => rfl
    | cons ch text => exact List.dropWhile_cons_of_neg (by rw [h ch rfl]; exact Bool.false_ne_true)
  rw [trim, hdrop hhead, hdrop, List.reverse_reverse]
  rwa [List.head?_reverse]

theorem trim_indent {indent : List Char} (h : ∀ ch ∈ indent, isWhitespace ch = true) (text : List Char) :
    trim (indent ++ text) = trim text := by
  rw [trim, List.dropWhile_append_of_pos h, trim]

/-- What is trimmed off is blank. -/
theorem trim_split (text : List Char) :
    ∃ front back, (∀ ch ∈ front ++ back, isWhitespace ch = true) ∧ text = front ++ (trim text ++ back) := by
  refine ⟨text.takeWhile isWhitespace, (text.dropWhile isWhitespace).rtakeWhile isWhitespace, ?_, ?_⟩
  · intro ch hch
    rcases List.mem_append.1 hch with hch | hch
    · exact List.mem_takeWhile_imp hch
    · exact List.mem_rtakeWhile_imp hch
  · have hback : trim text ++ (text.dropWhile isWhitespace).rtakeWhile isWhitespace = text.dropWhile isWhitespace :=
      List.rdropWhile_append_rtakeWhile
    rw [hback, List.takeWhile_append_dropWhile]

/-- Blanks around a text that neither begins nor ends with one. -/
theorem trim_blanks {front back text : List Char} (h : ∀ ch ∈ front ++ back, isWhitespace ch = true) (hne : text ≠ [])
    (hhead : ∀ ch ∈ text.head?, isWhitespace ch = false) (hlast : ∀ ch ∈ text.getLast?, isWhitespace ch = false) :
    trim (front ++ (text ++ back)) = text := by
  have hdrop : ∀ tail, (text ++ tail).dropWhile isWhitespace = text ++ tail := by
    intro tail
    obtain ⟨ch, rest, rfl⟩ := List.exists_cons_of_ne_nil hne
    rw [List.cons_append, List.dropWhile_cons_of_neg (by rw [hhead ch rfl]; exact Bool.false_ne_true)]
  have hdrop' : text.dropWhile isWhitespace = text := by simpa using hdrop []
  calc trim (front ++ (text ++ back)) = trim (text ++ back) := trim_indent (fun ch hch => h ch (List.mem_append_left back hch)) _
    _ = ((text ++ back).reverse.dropWhile isWhitespace).reverse := by rw [trim, hdrop]
    _ = (text.reverse.dropWhile isWhitespace).reverse := by
      rw [List.reverse_append, List.dropWhile_append_of_pos]
      exact fun ch hch => h ch (List.mem_append_right front (List.mem_reverse.1 hch))
    _ = trim text := by rw [trim, hdrop']
    _ = text := trim_of_ends hhead hlast

end Trim

end TideOrm
