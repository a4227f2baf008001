import TideOrm.Lib.Decimal
import TideOrm.Lib.SqliteExpr
import Mathlib.Data.List.TakeWhile

/-! SQLite's functions of texts. Places are counted from one. -/

namespace Lib.Sqlite

/-- `lower`, of ASCII letters alone. -/
def lower (text : List Char) : List Char := text.map Char.toLower

/-- `substr(text, start)` -/
def substrFrom (text : List Char) (start : ℕ) : List Char := text.drop (start - 1)

/-- `substr(text, start, count)` -/
def substr (text : List Char) (start count : ℕ) : List Char := (substrFrom text start).take count

/-- The first place of the character, or zero. -/
def instr (text : List Char) (ch : Char) : ℕ := if ch ∈ text then text.idxOf ch + 1 else 0

def clampI64 (n : ℤ) : ℤ := max i64Min (min i64Max n)

/-- `CAST(text AS INTEGER)`: the longest integer in front, the nearest of 64 bits. -/
def castInteger (text : List Char) : ℤ :=
  match text.dropWhile Char.isWhitespace with
  | '-' :: digits => clampI64 (-digitsValue (digits.takeWhile Char.isDigit))
  | '+' :: digits => clampI64 (digitsValue (digits.takeWhile Char.isDigit))
  | digits => clampI64 (digitsValue (digits.takeWhile Char.isDigit))

theorem toLower_of_lt {ch : Char} (h : ch.toNat < 65) : ch.toLower = ch := by
  refine dif_neg fun hupper => ?_
  have hle : 65 ≤ ch.toNat := UInt32.le_iff_toNat_le.1 hupper.1
  omega

theorem lower_plain {text : List Char} (h : ∀ ch ∈ text, ch.isDigit = true ∨ ch = '.' ∨ ch = '+' ∨ ch = '-') :
    lower text = text := by
  have hplain : ∀ ch ∈ text, ch.toLower = ch := by
    intro ch hch
    rcases h ch hch with hdigit | rfl | rfl | rfl
    · exact toLower_of_lt (by have := toNat_of_isDigit hdigit; omega)
    · rfl
    · rfl
    · rfl
  rw [lower, List.map_congr_left hplain, List.map_id']

section Places

variable {front back : List Char} {ch : Char}

theorem instr_of_not_mem (h : ch ∉ front) : instr front ch = 0 := if_neg h

theorem instr_append (h : ch ∉ front) : instr (front ++ ch :: back) ch = front.length + 1 := by
  have hmem : ch ∈ front ++ ch :: back := List.mem_append_right _ (List.mem_cons_self ..)
  rw [instr, if_pos hmem, List.idxOf_append_of_notMem h, List.idxOf_cons_self]

theorem substr_instr (h : ch ∉ front) :
    substr (front ++ ch :: back) 1 (instr (front ++ ch :: back) ch - 1) = front := by
  rw [instr_append h, substr, substrFrom, Nat.sub_self, List.drop_zero, Nat.add_sub_cancel, List.take_left]

theorem substrFrom_instr (h : ch ∉ front) : substrFrom (front ++ ch :: back) (instr (front ++ ch :: back) ch + 1) = back := by
  rw [instr_append h, substrFrom, Nat.add_sub_cancel, ← List.singleton_append, ← List.append_assoc,
    List.drop_left' (by rw [List.length_append, List.length_singleton])]

end Places

section Integers

variable {digits : List Char}

theorem castInteger_digits (h : ∀ ch ∈ digits, ch.isDigit = true) : castInteger digits = clampI64 (digitsValue digits) := by
  have hplain : digits.dropWhile Char.isWhitespace = digits := by
    rw [List.dropWhile_eq_self_iff]
    intro hlength hblank
    have hdigit := h _ (List.getElem_mem hlength)
    generalize digits[0] = ch at hblank hdigit
    have hblanks : ch = ' ' ∨ ch = '\t' ∨ ch = '\r' ∨ ch = '\n' := by simpa [Char.isWhitespace, or_assoc] using hblank
    rcases hblanks with rfl | rfl | rfl | rfl <;> exact absurd hdigit (by decide)
  rw [castInteger, hplain]
  split
  · exact absurd (h '-' (List.mem_cons_self ..)) (by decide)
  · exact absurd (h '+' (List.mem_cons_self ..)) (by decide)
  · rw [List.takeWhile_eq_self_iff.2 h]

theorem castInteger_minus (h : ∀ ch ∈ digits, ch.isDigit = true) : castInteger ('-' :: digits) = clampI64 (-digitsValue digits) := by
  rw [castInteger, List.dropWhile_cons_of_neg (by decide)]
  simp only [List.takeWhile_eq_self_iff.2 h]

theorem castInteger_plus (h : ∀ ch ∈ digits, ch.isDigit = true) : castInteger ('+' :: digits) = clampI64 (digitsValue digits) := by
  rw [castInteger, List.dropWhile_cons_of_neg (by decide)]
  simp only [List.takeWhile_eq_self_iff.2 h]

end Integers

theorem clampI64_eq {n : ℤ} (h : i64Min ≤ n ∧ n ≤ i64Max) : clampI64 n = n := by
  rw [clampI64, min_eq_right h.2, max_eq_right h.1]

end Lib.Sqlite
