import TideOrm.Lib.Utf8
import Mathlib.Algebra.GroupWithZero.Nat
import Mathlib.Algebra.BigOperators.Group.List.Basic

/-! Text that is sliced at byte offsets, as a `&str` is: a slice fails where an offset is inside a character or
behind the end. -/

namespace Lib

def byteLen (text : List Char) : ℕ := (text.map Char.utf8Size).sum

/-- `&text[pos..]` -/
def sliceFrom : List Char → ℕ → Option (List Char)
  | text, 0 => some text
  | [], _ + 1 => none
  | ch :: rest, n + 1 => if ch.utf8Size ≤ n + 1 then sliceFrom rest (n + 1 - ch.utf8Size) else none

/-- `&text[..pos]` -/
def sliceTo : List Char → ℕ → Option (List Char)
  | _, 0 => some []
  | [], _ + 1 => none
  | ch :: rest, n + 1 => if ch.utf8Size ≤ n + 1 then (sliceTo rest (n + 1 - ch.utf8Size)).map (ch :: ·) else none

/-- `&text[start..stop]` -/
def slice (text : List Char) (start stop : ℕ) : Option (List Char) :=
  if start ≤ stop then (sliceFrom text start).bind fun rest => sliceTo rest (stop - start) else none

/-- `text.find(p)` -/
def findChar (p : Char → Bool) : List Char → Option ℕ
  | [] => none
  | ch :: rest => if p ch then some 0 else (findChar p rest).map (ch.utf8Size + ·)

/-- `text.find(pattern)` -/
def findStr (pattern : List Char) : List Char → Option ℕ
  | [] => if pattern = [] then some 0 else none
  | ch :: rest => if pattern.isPrefixOf (ch :: rest) then some 0 else (findStr pattern rest).map (ch.utf8Size + ·)

/-- `text.char_indices()`, where the text begins at `pos`. -/
def charIndices : ℕ → List Char → List (ℕ × Char)
  | _, [] => []
  | pos, ch :: rest => (pos, ch) :: charIndices (pos + ch.utf8Size) rest

section Lengths

theorem byteLen_cons (ch : Char) (text : List Char) : byteLen (ch :: text) = ch.utf8Size + byteLen text := List.sum_cons

theorem byteLen_append (front back : List Char) : byteLen (front ++ back) = byteLen front + byteLen back := by
  rw [byteLen, List.map_append, List.sum_append]
  rfl

theorem length_utf8Bytes (text : List Char) : (utf8Bytes text).length = byteLen text := by
  induction text with
  | nil => rfl
  | cons ch text ih => rw [utf8Bytes_cons, List.length_append, String.length_utf8EncodeChar, ih, byteLen_cons]

theorem length_le_byteLen (text : List Char) : text.length ≤ byteLen text := by
  induction text with
  | nil => exact Nat.le_refl 0
  | cons ch text ih =>
    have hpos := ch.utf8Size_pos
    rw [List.length_cons, byteLen_cons]
    omega

theorem byteLen_pos {text : List Char} (h : text ≠ []) : 0 < byteLen text :=
  (List.length_pos_iff.2 h).trans_le (length_le_byteLen text)

end Lengths

section Slices

theorem sliceFrom_append (front back : List Char) : sliceFrom (front ++ back) (byteLen front) = some back := by
  induction front with
  | nil => exact sliceFrom.eq_1 back
  | cons ch front ih =>
    obtain ⟨n, hn⟩ := Nat.exists_eq_succ_of_ne_zero (byteLen_pos (List.cons_ne_nil ch front)).ne'
    rw [byteLen_cons] at hn
    rw [List.cons_append, byteLen_cons, hn, sliceFrom, if_pos (by omega), ← Nat.succ_eq_add_one, ← hn, Nat.add_sub_cancel_left, ih]

theorem sliceTo_append (front back : List Char) : sliceTo (front ++ back) (byteLen front) = some front := by
  induction front with
  | nil => exact sliceTo.eq_1 back
  | cons ch front ih =>
    obtain ⟨n, hn⟩ := Nat.exists_eq_succ_of_ne_zero (byteLen_pos (List.cons_ne_nil ch front)).ne'
    rw [byteLen_cons] at hn
    rw [List.cons_append, byteLen_cons, hn, sliceTo, if_pos (by omega), ← Nat.succ_eq_add_one, ← hn, Nat.add_sub_cancel_left, ih]
    rfl

theorem slice_append (front part back : List Char) :
    slice (front ++ (part ++ back)) (byteLen front) (byteLen front + byteLen part) = some part := by
  rw [slice, if_pos (Nat.le_add_right _ _), sliceFrom_append, Nat.add_sub_cancel_left]
  exact sliceTo_append part back

end Slices

section Finding

/-- The run of characters before the first that is looked for. -/
theorem findChar_getD (p : Char → Bool) (text : List Char) :
    (findChar p text).getD (byteLen text) = byteLen (text.takeWhile fun ch => !p ch) := by
  induction text with
  | nil => rfl
  | cons ch text ih =>
    rw [findChar, List.takeWhile_cons]
    cases p ch with
    | true => rfl
    | false =>
      rw [Bool.not_false, if_pos rfl, if_neg Bool.false_ne_true, byteLen_cons, byteLen_cons, ← ih]
      cases findChar p text <;> rfl

theorem findChar_eq (p : Char → Bool) (text : List Char) : findChar p text =
    if (text.takeWhile fun ch => !p ch).length = text.length then none else some (byteLen (text.takeWhile fun ch => !p ch)) := by
  induction text with
  | nil => rfl
  | cons ch text ih =>
    rw [findChar, List.takeWhile_cons]
    cases p ch with
    | true => rfl
    | false =>
      rw [Bool.not_false, if_pos rfl, if_neg Bool.false_ne_true, ih, List.length_cons, List.length_cons, byteLen_cons]
      simp only [Nat.add_right_cancel_iff]
      split_ifs <;> rfl

theorem charIndices_cons (pos : ℕ) (ch : Char) (rest : List Char) :
    charIndices pos (ch :: rest) = (pos, ch) :: charIndices (pos + ch.utf8Size) rest := rfl

theorem charIndices_head (pos : ℕ) (text : List Char) : (charIndices pos text).head?.map Prod.snd = text.head? := by
  cases text <;> rfl

end Finding

section Bytes

/-- A byte below 128 is a character of its own. -/
theorem utf8EncodeChar_ascii {ch : Char} {byte : UInt8} (hmem : byte ∈ String.utf8EncodeChar ch) (hbyte : byte.toNat < 128) :
    String.utf8EncodeChar ch = [byte] ∧ ch.toNat = byte.toNat := by
  have hchar : ch.val.toNat = ch.toNat := rfl
  unfold String.utf8EncodeChar at hmem ⊢
  simp only [hchar] at hmem ⊢
  split_ifs at hmem ⊢ with hone htwo hthree
  · obtain rfl := List.mem_singleton.1 hmem
    exact ⟨rfl, by rw [UInt8.toNat_ofNat_of_lt' (by change ch.toNat < 256; omega)]⟩
  · simp only [List.mem_cons, List.not_mem_nil, or_false] at hmem
    rcases hmem with rfl | rfl <;> rw [UInt8.toNat_ofNat'] at hbyte <;> omega
  · simp only [List.mem_cons, List.not_mem_nil, or_false] at hmem
    rcases hmem with rfl | rfl | rfl <;> rw [UInt8.toNat_ofNat'] at hbyte <;> omega
  · simp only [List.mem_cons, List.not_mem_nil, or_false] at hmem
    rcases hmem with rfl | rfl | rfl | rfl <;> rw [UInt8.toNat_ofNat'] at hbyte <;> omega

theorem utf8EncodeChar_of_ascii {ch : Char} (h : ch.toNat < 128) : String.utf8EncodeChar ch = [UInt8.ofNat ch.toNat] := by
  have hchar : ch.val.toNat = ch.toNat := rfl
  unfold String.utf8EncodeChar
  simp only [hchar]
  rw [if_pos (by omega)]

theorem utf8Size_ascii {ch : Char} (h : ch.toNat < 128) : ch.utf8Size = 1 := by
  rw [← String.length_utf8EncodeChar, utf8EncodeChar_of_ascii h]
  rfl

theorem byteLen_ascii {text : List Char} (h : ∀ ch ∈ text, ch.toNat < 128) : byteLen text = text.length := by
  induction text with
  | nil => rfl
  | cons ch text ih =>
    rw [byteLen_cons, utf8Size_ascii (h ch List.mem_cons_self), ih fun other hother => h other (List.mem_cons_of_mem _ hother),
      List.length_cons, Nat.add_comm]

/-- A run of ASCII characters is a run of their bytes. -/
theorem length_takeWhile_bytes {p : Char → Bool} {q : UInt8 → Bool} (hp : ∀ ch, p ch = true → ch.toNat < 128)
    (hq : ∀ byte, q byte = true → byte.toNat < 128) (hpq : ∀ ch : Char, ch.toNat < 128 → q (UInt8.ofNat ch.toNat) = p ch)
    (text : List Char) : ((utf8Bytes text).takeWhile q).length = (text.takeWhile p).length := by
  induction text with
  | nil => rfl
  | cons ch text ih =>
    cases hch : p ch with
    | true =>
      have hascii := hp ch hch
      rw [utf8Bytes_cons, utf8EncodeChar_of_ascii hascii, List.singleton_append,
        List.takeWhile_cons_of_pos ((hpq ch hascii).trans hch), List.takeWhile_cons_of_pos hch, List.length_cons, List.length_cons, ih]
    | false =>
      obtain ⟨byte, more, hbytes⟩ := List.exists_cons_of_ne_nil (@String.utf8EncodeChar_ne_nil ch)
      have hbyte : ¬q byte = true := by
        intro htrue
        obtain ⟨-, hsame⟩ := utf8EncodeChar_ascii (hbytes ▸ List.mem_cons_self) (hq byte htrue)
        have hequal := hpq ch (hsame ▸ hq byte htrue)
        rw [hsame, UInt8.ofNat_toNat, htrue, hch] at hequal
        cases hequal
      rw [utf8Bytes_cons, hbytes, List.cons_append, List.takeWhile_cons_of_neg hbyte,
        List.takeWhile_cons_of_neg (by rw [hch]; exact Bool.false_ne_true)]
      rfl

/-- The byte before a place is the last of the character before it. -/
theorem utf8Bytes_before (front : List Char) (ch : Char) (back : List Char) :
    (utf8Bytes (front ++ ch :: back))[byteLen (front ++ [ch]) - 1]? = (String.utf8EncodeChar ch).getLast? := by
  have hlen := String.length_utf8EncodeChar ch
  have hpos := ch.utf8Size_pos
  have hfront := length_utf8Bytes front
  have hone : byteLen [ch] = ch.utf8Size := byteLen_cons ch []
  rw [byteLen_append, hone, utf8Bytes_append, utf8Bytes_cons, List.getElem?_append_right (by omega),
    List.getElem?_append_left (by omega), List.getLast?_eq_getElem?]
  congr 1
  omega

end Bytes

end Lib
