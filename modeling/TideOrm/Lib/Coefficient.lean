import TideOrm.Lib.DecimalFraction
import Mathlib.Data.List.DropRight

/-! Decimals in lowest terms: digits that neither begin nor end in zeros, and a power of ten. -/

namespace Lib

/-- The digits without the zeros behind them. -/
def unpadded (digits : List Char) : List Char := digits.rdropWhile (· == '0')

/-- The digits without the zeros on either side; zero has none. -/
def coefficient (digits : List Char) : List Char := (unpadded digits).dropWhile (· == '0')

def trailingZeros (digits : List Char) : ℕ := digits.length - (unpadded digits).length

/-- What is no multiple of ten, and the power of ten, are told apart by their product. -/
theorem scaled_inj {m n : ℕ} {a b : ℤ} (hm : ¬10 ∣ m) (hn : ¬10 ∣ n) (h : (m : ℚ) * 10 ^ a = n * 10 ^ b) : m = n ∧ a = b := by
  -- the larger power would leave a multiple of ten
  have key : ∀ {m n : ℕ} {a b : ℤ}, a ≤ b → ¬10 ∣ m → (m : ℚ) * 10 ^ a = n * 10 ^ b → m = n ∧ a = b := by
    intro m n a b hab hm h
    obtain ⟨k, rfl⟩ := Int.le.dest hab
    rw [zpow_add₀ (by norm_num), zpow_natCast, mul_left_comm, mul_comm] at h
    have hnat : (m : ℚ) = ((n * 10 ^ k : ℕ) : ℚ) := by
      push_cast
      exact mul_left_cancel₀ (zpow_ne_zero a (by norm_num)) h
    have hmn := Nat.cast_injective hnat
    cases k with
    | zero => exact ⟨by rw [hmn]; exact Nat.mul_one n, by simp⟩
    | succ k => exact absurd ⟨n * 10 ^ k, by rw [hmn, Nat.pow_succ]; ring⟩ hm
  rcases le_total a b with hab | hab
  · exact key hab hm h
  · obtain ⟨hmn, hba⟩ := key hab hn h.symm
    exact ⟨hmn.symm, hba.symm⟩

theorem unpadded_append (digits : List Char) : ∃ n, digits = unpadded digits ++ List.replicate n '0' ∧ trailingZeros digits = n := by
  have hsplit : unpadded digits ++ digits.rtakeWhile (· == '0') = digits := List.rdropWhile_append_rtakeWhile
  have hzeros : digits.rtakeWhile (· == '0') = List.replicate (digits.rtakeWhile (· == '0')).length '0' :=
    List.eq_replicate_iff.2 ⟨rfl, fun ch hch => beq_iff_eq.1 (@List.mem_rtakeWhile_imp _ (· == '0') _ _ hch)⟩
  refine ⟨(digits.rtakeWhile (· == '0')).length, by rw [← hzeros, hsplit], ?_⟩
  have hlength := congrArg List.length hsplit
  rw [List.length_append] at hlength
  rw [trailingZeros]
  omega

theorem digitsValue_coefficient (digits : List Char) :
    digitsValue digits = digitsValue (coefficient digits) * 10 ^ trailingZeros digits := by
  obtain ⟨n, hdigits, hzeros⟩ := unpadded_append digits
  rw [coefficient, digitsValue_dropWhile, hzeros]
  conv_lhs => rw [hdigits]
  rw [digitsValue_append, digitsValue_zeros, List.length_replicate, Nat.add_zero]

section Digits

variable {digits digits' : List Char}

theorem isDigit_coefficient (h : ∀ ch ∈ digits, ch.isDigit = true) : ∀ ch ∈ coefficient digits, ch.isDigit = true :=
  fun ch hch => h ch ((List.rdropWhile_prefix _ _).mem ((List.dropWhile_sublist _).mem hch))

theorem head_coefficient (digits : List Char) : (coefficient digits).head? ≠ some '0' := by
  intro hhead
  have hnot := List.head?_dropWhile_not (· == '0') (unpadded digits)
  rw [coefficient] at hhead
  rw [hhead] at hnot
  simp at hnot

/-- The last digit of a coefficient is not zero. -/
theorem coefficient_not_dvd (h : ∀ ch ∈ digits, ch.isDigit = true) (hne : coefficient digits ≠ []) :
    ¬10 ∣ digitsValue (coefficient digits) := by
  have hunpadded : unpadded digits ≠ [] := fun hnil => hne (by rw [coefficient, hnil]; rfl)
  have hlast := List.rdropWhile_last_not (· == '0') digits hunpadded
  have hsplit := List.dropLast_append_getLast hunpadded
  have hdigit := h _ ((List.rdropWhile_prefix _ _).mem (List.getLast_mem hunpadded))
  have hlt := digitValue_lt hdigit
  have hpos : digitValue ((unpadded digits).getLast hunpadded) ≠ 0 := by
    rw [ne_eq, digitValue_zero_iff hdigit]
    simpa [unpadded] using hlast
  rw [coefficient, digitsValue_dropWhile, ← hsplit, digitsValue_append, List.length_singleton, Nat.pow_one,
    show digitsValue [(unpadded digits).getLast hunpadded] = digitValue ((unpadded digits).getLast hunpadded) from
      radixValue_singleton 10 _]
  omega

/-- Texts of digits that do not begin in a zero are told apart by their numbers. -/
theorem digitsValue_inj (h : ∀ ch ∈ digits, ch.isDigit = true) (h' : ∀ ch ∈ digits', ch.isDigit = true)
    (hhead : digits.head? ≠ some '0') (hhead' : digits'.head? ≠ some '0') (hvalue : digitsValue digits = digitsValue digits') :
    digits = digits' := by
  have key : ∀ {digits : List Char}, (∀ ch ∈ digits, ch.isDigit = true) → digits.head? ≠ some '0' →
      Nat.digits 10 (digitsValue digits) = (digits.map digitValue).reverse := by
    intro digits h hhead
    refine Nat.digits_ofDigits 10 (by decide) _ (fun d hd => ?_) fun hne => ?_
    · obtain ⟨ch, hch, rfl⟩ := List.mem_map.1 (List.mem_reverse.1 hd)
      exact digitValue_lt (h ch hch)
    · rw [List.getLast_reverse]
      cases digits with
      | nil => exact absurd rfl hne
      | cons ch rest =>
        have hdigit := h ch (List.mem_cons_self ..)
        exact fun hzero => hhead (congrArg some ((digitValue_zero_iff hdigit).1 hzero))
  have hmap : digits.map digitValue = digits'.map digitValue := by
    rw [← List.reverse_inj, ← key h hhead, ← key h' hhead', hvalue]
  refine List.ext_getElem (by simpa using congrArg List.length hmap) fun i hi hi' => ?_
  have hget := List.getElem_of_eq hmap (by simpa using hi : i < (digits.map digitValue).length)
  rw [List.getElem_map, List.getElem_map] at hget
  exact digitValue_inj (h _ (List.getElem_mem hi)) (h' _ (List.getElem_mem hi')) hget

theorem coefficient_nil_iff (h : ∀ ch ∈ digits, ch.isDigit = true) : coefficient digits = [] ↔ digitsValue digits = 0 := by
  rw [digitsValue_coefficient]
  constructor
  · intro hnil
    rw [hnil, digitsValue_nil, Nat.zero_mul]
  · intro hzero
    by_contra hne
    have hfactor : digitsValue (coefficient digits) = 0 := by simpa using hzero
    exact coefficient_not_dvd h hne (hfactor ▸ Nat.dvd_zero 10)

/-- Decimals are equal where they are in lowest terms. -/
theorem decimal_eq_iff (h : ∀ ch ∈ digits, ch.isDigit = true) (h' : ∀ ch ∈ digits', ch.isDigit = true) (a b : ℤ) :
    (digitsValue digits : ℚ) * 10 ^ a = digitsValue digits' * 10 ^ b ↔ coefficient digits = coefficient digits' ∧
      (coefficient digits = [] ∨ a + trailingZeros digits = b + trailingZeros digits') := by
  have hpower : ∀ (digits : List Char) (a : ℤ), (digitsValue digits : ℚ) * 10 ^ a =
      digitsValue (coefficient digits) * 10 ^ (a + trailingZeros digits) := by
    intro digits a
    rw [digitsValue_coefficient digits, zpow_add₀ (by norm_num), zpow_natCast]
    push_cast
    ring
  constructor
  · intro heq
    by_cases hnil : coefficient digits = []
    · have hzero : digitsValue digits' = 0 := by
        rw [(coefficient_nil_iff h).1 hnil, Nat.cast_zero, zero_mul, eq_comm, mul_eq_zero] at heq
        exact_mod_cast heq.resolve_right (zpow_ne_zero b (by norm_num))
      exact ⟨by rw [hnil, (coefficient_nil_iff h').2 hzero], .inl hnil⟩
    · have hnil' : coefficient digits' ≠ [] := by
        intro hnil'
        rw [(coefficient_nil_iff h').1 hnil', Nat.cast_zero, zero_mul, mul_eq_zero] at heq
        exact hnil ((coefficient_nil_iff h).2 (by exact_mod_cast heq.resolve_right (zpow_ne_zero a (by norm_num))))
      rw [hpower digits, hpower digits'] at heq
      obtain ⟨hvalue, hscale⟩ := scaled_inj (coefficient_not_dvd h hnil) (coefficient_not_dvd h' hnil') heq
      have hcoefficient := digitsValue_inj (isDigit_coefficient h) (isDigit_coefficient h') (head_coefficient digits)
        (head_coefficient digits') hvalue
      exact ⟨hcoefficient, .inr hscale⟩
  · rintro ⟨hcoefficient, hnil | hscale⟩
    · have hzero := (coefficient_nil_iff h).1 hnil
      have hzero' := (coefficient_nil_iff h').1 (hcoefficient ▸ hnil)
      rw [hzero, hzero', Nat.cast_zero, zero_mul, zero_mul]
    · rw [hpower digits, hpower digits', hcoefficient, hscale]

end Digits

end Lib
