import Mathlib.Data.Nat.Digits.Defs
import Mathlib.Tactic.Ring

/-! Numbers written with the most significant digit first, and a shift register of `k` valid
bits that digits of a power of two are pushed into and drained from. -/

namespace Lib

/-- The number that digits in base `b` write, the most significant first. -/
def radixValue (b : ℕ) (digits : List ℕ) : ℕ := Nat.ofDigits b digits.reverse

@[simp] theorem radixValue_nil (b : ℕ) : radixValue b [] = 0 := rfl

theorem radixValue_append (b : ℕ) (high low : List ℕ) :
    radixValue b (high ++ low) = radixValue b high * b ^ low.length + radixValue b low := by
  rw [radixValue, List.reverse_append, Nat.ofDigits_append, List.length_reverse, radixValue, radixValue]
  ring

theorem radixValue_singleton (b d : ℕ) : radixValue b [d] = d := Nat.ofDigits_singleton

theorem radixValue_cons (b d : ℕ) (low : List ℕ) :
    radixValue b (d :: low) = d * b ^ low.length + radixValue b low := by
  rw [← List.singleton_append, radixValue_append, radixValue_singleton]

/-- Digits of one length are told apart by what they write. -/
theorem radixValue_inj {b : ℕ} (hb : 1 < b) {digits digits' : List ℕ} (hlen : digits.length = digits'.length)
    (h : ∀ d ∈ digits, d < b) (h' : ∀ d ∈ digits', d < b) (hvalue : radixValue b digits = radixValue b digits') :
    digits = digits' := by
  apply List.reverse_inj.1
  apply Nat.ofDigits_inj_of_len_eq hb
  · simpa using hlen
  · simpa using h
  · simpa using h'
  · exact hvalue

/-- Pushing `w` bits into a register of `size` bits, the highest falling out. -/
def pushBits (size w bits value : ℕ) : ℕ := (bits <<< w) % 2 ^ size ||| value

/-- The valid bits after a push. -/
theorem pushBits_mod {size w k bits value : ℕ} (hvalue : value < 2 ^ w) (hsize : k + w ≤ size) :
    pushBits size w bits value % 2 ^ (k + w) = (bits % 2 ^ k) * 2 ^ w + value := by
  obtain ⟨m, rfl⟩ : ∃ m, size = m + w := ⟨size - w, by omega⟩
  have hk : 2 ^ k ∣ 2 ^ m := Nat.pow_dvd_pow 2 (by omega)
  have hshift : (bits <<< w) % 2 ^ (m + w) = (bits % 2 ^ m) <<< w := by
    rw [Nat.shiftLeft_eq, Nat.shiftLeft_eq, Nat.pow_add, Nat.mul_mod_mul_right]
  have hdiv : (bits % 2 ^ m * 2 ^ w + value) / 2 ^ w = bits % 2 ^ m := by
    rw [Nat.mul_comm, Nat.mul_add_div (Nat.two_pow_pos w), Nat.div_eq_of_lt hvalue, Nat.add_zero]
  rw [pushBits, hshift, ← Nat.shiftLeft_add_eq_or_of_lt hvalue, Nat.shiftLeft_eq, Nat.pow_add, Nat.mul_comm (2 ^ k),
    Nat.mod_mul, Nat.mul_add_mod_of_lt hvalue, hdiv, Nat.mod_mod_of_dvd _ hk]
  ring

/-- The valid bits are the `w` highest of them and the `k` below. -/
theorem mod_two_pow_add (bits k w : ℕ) : bits % 2 ^ (k + w) = ((bits >>> k) % 2 ^ w) * 2 ^ k + bits % 2 ^ k := by
  rw [Nat.pow_add, Nat.mod_mul, Nat.shiftRight_eq_div_pow]
  ring

end Lib
