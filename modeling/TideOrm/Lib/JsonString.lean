import Mathlib.Data.List.Basic

/-! The text of a JSON string: what is written for each character, and how a text is read back. -/

namespace Lib.JsonString

/-- A character inside the quotes: quotes, backslashes and control characters are escaped. -/
def escape (ch : Char) : List Char :=
  if ch = '"' then ['\\', '"']
  else if ch = '\\' then ['\\', '\\']
  else if ch = '\x08' then ['\\', 'b']
  else if ch = '\x0c' then ['\\', 'f']
  else if ch = '\n' then ['\\', 'n']
  else if ch = '\r' then ['\\', 'r']
  else if ch = '\t' then ['\\', 't']
  else if ch.toNat < 32 then ['\\', 'u', '0', '0', Nat.digitChar (ch.toNat / 16), Nat.digitChar (ch.toNat % 16)]
  else [ch]

def write (text : List Char) : List Char := '"' :: (text.flatMap escape ++ ['"'])

def hexValue (ch : Char) : Option ℕ :=
  if ch.isDigit then some (ch.toNat - 48)
  else if 'a' ≤ ch ∧ ch ≤ 'f' then some (ch.toNat - 87)
  else if 'A' ≤ ch ∧ ch ≤ 'F' then some (ch.toNat - 55)
  else none

/-- The code unit that four hexadecimal digits write. -/
def codeUnit (a b c d : Char) : Option ℕ := do
  let a ← hexValue a
  let b ← hexValue b
  let c ← hexValue c
  let d ← hexValue d
  pure (((a * 16 + b) * 16 + c) * 16 + d)

/-- What a backslash and one character stand for. -/
def unescape (ch : Char) : Option Char :=
  if ch = '"' ∨ ch = '\\' ∨ ch = '/' then some ch
  else if ch = 'b' then some '\x08'
  else if ch = 'f' then some '\x0c'
  else if ch = 'n' then some '\n'
  else if ch = 'r' then some '\r'
  else if ch = 't' then some '\t'
  else none

/-- What stands behind the opening quote; the text ends at the closing one. -/
def readRest : List Char → Option (List Char)
  | [] => none
  | ch :: rest =>
    if ch = '"' then if rest.isEmpty then some [] else none
    else if ch = '\\' then
      match rest with
      | 'u' :: a :: b :: c :: d :: rest =>
        (codeUnit a b c d).bind fun unit =>
          if unit < 0xd800 ∨ 0xdfff < unit then (readRest rest).map (Char.ofNat unit :: ·)
          else
            -- the first half of a pair, which the second must follow
            match rest with
            | '\\' :: 'u' :: a :: b :: c :: d :: rest =>
              (codeUnit a b c d).bind fun low =>
                if unit < 0xdc00 ∧ 0xdc00 ≤ low ∧ low < 0xe000 then
                  (readRest rest).map (Char.ofNat (0x10000 + (unit - 0xd800) * 0x400 + (low - 0xdc00)) :: ·)
                else none
            | _ => none
      | escaped :: rest => (unescape escaped).bind fun ch => (readRest rest).map (ch :: ·)
      | [] => none
    else if ch.toNat < 32 then none
    else (readRest rest).map (ch :: ·)

def read : List Char → Option (List Char)
  | '"' :: rest => readRest rest
  | _ => none

theorem codeUnit_control {n : ℕ} (h : n < 32) : codeUnit '0' '0' (Nat.digitChar (n / 16)) (Nat.digitChar (n % 16)) = some n := by
  have hall : ∀ n < 32, codeUnit '0' '0' (Nat.digitChar (n / 16)) (Nat.digitChar (n % 16)) = some n := by decide
  exact hall n h

/-- How a character is written. -/
theorem escape_cases (ch : Char) :
    (∃ mark, escape ch = ['\\', mark] ∧ mark ≠ 'u' ∧ unescape mark = some ch) ∨
      (∃ high low, escape ch = ['\\', 'u', '0', '0', high, low] ∧ codeUnit '0' '0' high low = some ch.toNat ∧ ch.toNat < 32) ∨
      escape ch = [ch] ∧ ch ≠ '"' ∧ ch ≠ '\\' ∧ ¬ch.toNat < 32 := by
  unfold escape
  split_ifs with h₁ h₂ h₃ h₄ h₅ h₆ h₇ h₈
  · exact .inl ⟨'"', rfl, by decide, by rw [h₁]; decide⟩
  · exact .inl ⟨'\\', rfl, by decide, by rw [h₂]; decide⟩
  · exact .inl ⟨'b', rfl, by decide, by rw [h₃]; decide⟩
  · exact .inl ⟨'f', rfl, by decide, by rw [h₄]; decide⟩
  · exact .inl ⟨'n', rfl, by decide, by rw [h₅]; decide⟩
  · exact .inl ⟨'r', rfl, by decide, by rw [h₆]; decide⟩
  · exact .inl ⟨'t', rfl, by decide, by rw [h₇]; decide⟩
  · exact .inr (.inl ⟨_, _, rfl, codeUnit_control h₈, h₈⟩)
  · exact .inr (.inr ⟨rfl, h₁, h₂, h₈⟩)

theorem readRest_escape (ch : Char) (tail : List Char) : readRest (escape ch ++ tail) = (readRest tail).map (ch :: ·) := by
  rcases escape_cases ch with ⟨mark, hescape, hmark, hread⟩ | ⟨high, low, hescape, hunit, hsmall⟩ | ⟨hescape, hquote, hslash, hlarge⟩
  · rw [hescape]
    show readRest ('\\' :: mark :: tail) = _
    rw [readRest, if_neg (by decide), if_pos rfl, hread, Option.bind_some]
    exact fun _ _ _ _ _ h => absurd h hmark
  · rw [hescape]
    show readRest ('\\' :: 'u' :: '0' :: '0' :: high :: low :: tail) = _
    rw [readRest, if_neg (by decide), if_pos rfl, hunit, Option.bind_some, if_pos (.inl (by omega)), Char.ofNat_toNat]
  · rw [hescape, List.singleton_append, readRest.eq_def]
    dsimp only
    rw [if_neg hquote, if_neg hslash, if_neg hlarge]

/-- A text that is written is read back. -/
theorem read_write (text : List Char) : read (write text) = some text := by
  show readRest (text.flatMap escape ++ ['"']) = some text
  induction text with
  | nil => rfl
  | cons ch text ih => rw [List.flatMap_cons, List.append_assoc, readRest_escape, ih, Option.map_some]

end Lib.JsonString
