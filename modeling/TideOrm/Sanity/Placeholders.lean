import TideOrm.Sanity.SqlPieces

/-! How the lexer reads the digits of a marker, and what follows them. -/

namespace TideOrm

section Decimal

theorem decimal_digits (n : ℕ) : (decimal n).all Char.isDigit = true :=
  List.all_eq_true.2 fun _ hch => Nat.isDigit_of_mem_toDigits (by decide) (by decide) hch

theorem decimal_ne_nil (n : ℕ) : decimal n ≠ [] := Nat.toDigits_ne_nil

theorem digitChar_toNat {d : ℕ} (h : d < 10) : (Nat.digitChar d).toNat - 48 = d := by
  have hall : ∀ d < 10, (Nat.digitChar d).toNat - 48 = d := by decide
  exact hall d h

theorem foldl_decimal (n : ℕ) : (decimal n).foldl (fun n ch => 10 * n + (ch.toNat - 48)) 0 = n := by
  induction n using Nat.strong_induction_on with
  | _ n ih =>
    by_cases hn : n < 10
    · rw [decimal, Nat.toDigits_of_lt_base hn]
      simp [digitChar_toNat hn]
    · have hdiv := ih (n / 10) (Nat.div_lt_self (by omega) (by omega))
      rw [decimal, Nat.toDigits_of_base_le (by omega) (by omega), List.foldl_append]
      rw [decimal] at hdiv
      rw [hdiv]
      simp only [List.foldl_cons, List.foldl_nil, digitChar_toNat (Nat.mod_lt n (by decide))]
      omega

theorem exists_digit (n : ℕ) : ∃ digit digits, decimal n = digit :: digits ∧ digit.isDigit = true := by
  obtain ⟨digit, digits, h⟩ := List.exists_cons_of_ne_nil (decimal_ne_nil n)
  exact ⟨digit, digits, h, List.all_eq_true.1 (decimal_digits n) digit (by simp [h])⟩

end Decimal

section Parameters

variable {u : CharTables}

theorem opensEscaped_digit {digit : Char} (h : digit.isDigit = true) (before : List Char) :
    opensEscaped u (digit :: before) = false := by
  have he : digit ≠ 'e' := by
    rintro rfl
    exact absurd h (by decide)
  have hE : digit ≠ 'E' := by
    rintro rfl
    exact absurd h (by decide)
  simp [opensEscaped, he, hE]

theorem identifierChar_digit {digit : Char} (h : digit.isDigit = true) : identifierChar u digit = true := by
  simp [identifierChar_ascii u (isAscii_of_isDigit h), h]

/-- A `$` and digits are one parameter, where no digit follows. -/
theorem lexToken_digits (before : List Char) {digits after : List Char} (hne : digits ≠ []) (hdigits : digits.all Char.isDigit = true)
    (h : after.head?.any Char.isDigit = false) : lexToken u false before '$' (digits ++ after) = (.parameter, digits.length + 1) ∧
      closedToken u false before '$' (digits ++ after) = true := by
  have htag : dollarTagLen u ('$' :: (digits ++ after)) = none := by
    obtain ⟨digit, more, rfl⟩ := List.exists_cons_of_ne_nil hne
    exact dollarTagLen_digit u (List.all_eq_true.1 hdigits digit List.mem_cons_self) (more ++ after)
  have hlen : dollarLen u ('$' :: (digits ++ after)) = none := by rw [dollarLen, htag]
  have htake : (digits ++ after).takeWhile Char.isDigit = digits := by
    rw [List.takeWhile_append_of_pos (List.all_eq_true.1 hdigits)]
    cases after with
    | nil => exact List.append_nil _
    | cons ch after =>
      have hch : ch.isDigit = false := by simpa using h
      rw [List.takeWhile_cons, hch]
      exact List.append_nil _
  obtain ⟨hlex, hclosed⟩ := lexToken_dollar u before (digits ++ after)
  have hpos : 1 < 1 + digits.length := by
    have := List.length_pos_iff.2 hne
    omega
  rw [hlex, hclosed, hlen, htag, htake]
  exact ⟨Prod.ext (if_pos hpos) (Nat.add_comm 1 _), rfl⟩

/-- After a number it does not matter what was before. -/
theorem sameBefore_digits {before before' : List Char} (h : before.head?.any Char.isDigit = true)
    (h' : before'.head?.any Char.isDigit = true) (sql : List Char) : SameBefore u before before' sql := by
  obtain ⟨digit, earlier, rfl⟩ : ∃ digit earlier, before = digit :: earlier := by
    cases before with
    | nil => cases h
    | cons digit earlier => exact ⟨digit, earlier, rfl⟩
  obtain ⟨digit', earlier', rfl⟩ : ∃ digit' earlier', before' = digit' :: earlier' := by
    cases before' with
    | nil => cases h'
    | cons digit' earlier' => exact ⟨digit', earlier', rfl⟩
  have hdigit : digit.isDigit = true := by simpa using h
  have hdigit' : digit'.isDigit = true := by simpa using h'
  refine ⟨by rw [opensEscaped_digit hdigit, opensEscaped_digit hdigit'], fun _ => ?_⟩
  rw [List.head?_cons, List.head?_cons, Option.any_some, Option.any_some, identifierChar_digit hdigit,
    identifierChar_digit hdigit']

theorem head_digits {first : Char} {body : List Char} (hne : body ≠ []) (hdigits : body.all Char.isDigit = true)
    (before : List Char) : ((first :: body).reverse ++ before).head?.any Char.isDigit = true := by
  obtain ⟨front, last, rfl⟩ := List.eq_nil_or_concat body |>.resolve_left hne
  have hlast : last.isDigit = true := List.all_eq_true.1 hdigits last (by simp)
  simp [hlast]

end Parameters

end TideOrm
