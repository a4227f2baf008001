import Mathlib.Data.List.Infix

/-! UTF-8 is self-synchronizing: a text's bytes are found in another's only where the text
itself stands. -/

namespace Lib

/-- `str::as_bytes` -/
def utf8Bytes (text : List Char) : List UInt8 := text.flatMap String.utf8EncodeChar

theorem utf8Bytes_cons (ch : Char) (text : List Char) :
    utf8Bytes (ch :: text) = String.utf8EncodeChar ch ++ utf8Bytes text := rfl

theorem utf8Bytes_append (front back : List Char) : utf8Bytes (front ++ back) = utf8Bytes front ++ utf8Bytes back :=
  List.flatMap_append

theorem utf8Bytes_prefix_iff {front text : List Char} : utf8Bytes front <+: utf8Bytes text ↔ front <+: text := by
  constructor
  · rintro ⟨rest, happend⟩
    refine List.isPrefix_of_utf8Encode_append_eq_utf8Encode rest.toByteArray ?_
    have hbytes := congrArg List.toByteArray happend
    rwa [List.toByteArray_append] at hbytes
  · rintro ⟨rest, rfl⟩
    exact ⟨utf8Bytes rest, (utf8Bytes_append front rest).symm⟩

theorem utf8Bytes_inj {text text' : List Char} (h : utf8Bytes text = utf8Bytes text') : text = text' := by
  have hle := utf8Bytes_prefix_iff.1 (h ▸ List.prefix_refl (utf8Bytes text) : utf8Bytes text <+: utf8Bytes text')
  have hge := utf8Bytes_prefix_iff.1 (h ▸ List.prefix_refl (utf8Bytes text) : utf8Bytes text' <+: utf8Bytes text)
  exact hle.eq_of_length (Nat.le_antisymm hle.length_le hge.length_le)

/-- The bytes can only be cut before a character. -/
theorem utf8Bytes_cut {text : List Char} {front back : List UInt8} (h : utf8Bytes text = front ++ back)
    (hfirst : ∀ byte ∈ back.head?, byte.IsUTF8FirstByte) :
    ∃ before after, text = before ++ after ∧ front = utf8Bytes before ∧ back = utf8Bytes after := by
  induction text generalizing front with
  | nil =>
    obtain ⟨rfl, rfl⟩ := List.append_eq_nil_iff.1 h.symm
    exact ⟨[], [], rfl, rfl, rfl⟩
  | cons ch text ih =>
    rw [utf8Bytes_cons] at h
    obtain ⟨more, rfl, hmore⟩ | ⟨more, hch, rfl⟩ := List.append_eq_append_iff.1 h
    · obtain ⟨before, after, rfl, rfl, rfl⟩ := ih hmore
      exact ⟨ch :: before, after, rfl, rfl, rfl⟩
    · cases more with
      | nil =>
        rw [List.append_nil] at hch
        exact ⟨[ch], text, rfl, by rw [← hch]; simp [utf8Bytes], rfl⟩
      | cons byte more =>
        have hbyte : (String.utf8EncodeChar ch)[front.length]? = some byte := by
          rw [hch, List.getElem?_append_right (Nat.le_refl _), Nat.sub_self]
          rfl
        obtain ⟨hlt, hget⟩ := List.getElem?_eq_some_iff.1 hbyte
        have hbegins := hfirst byte rfl
        rw [← hget, UInt8.isUTF8FirstByte_getElem_utf8EncodeChar] at hbegins
        obtain rfl := List.length_eq_zero_iff.1 hbegins
        exact ⟨[], ch :: text, rfl, rfl, by rw [utf8Bytes_cons, hch]; rfl⟩

theorem utf8Bytes_first {ch : Char} {text : List Char} {rest : List UInt8} :
    ∀ byte ∈ (utf8Bytes (ch :: text) ++ rest).head?, byte.IsUTF8FirstByte := by
  intro byte hbyte
  cases hch : String.utf8EncodeChar ch with
  | nil => exact absurd hch String.utf8EncodeChar_ne_nil
  | cons first more =>
    rw [utf8Bytes_cons, hch] at hbyte
    obtain rfl : first = byte := by simpa using hbyte
    have hget : (String.utf8EncodeChar ch)[0]? = some first := by rw [hch]; rfl
    obtain ⟨hlt, hget⟩ := List.getElem?_eq_some_iff.1 hget
    rw [← hget]
    exact UInt8.isUTF8FirstByte_getElem_utf8EncodeChar.2 rfl

theorem utf8Bytes_infix_iff {part text : List Char} : utf8Bytes part <:+: utf8Bytes text ↔ part <:+: text := by
  constructor
  · rintro ⟨front, back, happend⟩
    cases part with
    | nil => exact List.nil_infix
    | cons ch part =>
      rw [List.append_assoc] at happend
      obtain ⟨before, after, rfl, -, hafter⟩ := utf8Bytes_cut happend.symm utf8Bytes_first
      have hfront := utf8Bytes_prefix_iff.1 ⟨back, hafter⟩
      exact hfront.isInfix.trans (List.suffix_append before after).isInfix
  · rintro ⟨front, back, rfl⟩
    exact ⟨utf8Bytes front, utf8Bytes back, by rw [utf8Bytes_append, utf8Bytes_append]⟩

theorem utf8Bytes_suffix_iff {back text : List Char} : utf8Bytes back <:+ utf8Bytes text ↔ back <:+ text := by
  constructor
  · rintro ⟨front, happend⟩
    cases back with
    | nil => exact List.nil_suffix
    | cons ch back =>
      have hfirst := @utf8Bytes_first ch back []
      rw [List.append_nil] at hfirst
      obtain ⟨before, after, rfl, -, hafter⟩ := utf8Bytes_cut happend.symm hfirst
      rw [utf8Bytes_inj hafter]
      exact List.suffix_append before after
  · rintro ⟨front, rfl⟩
    exact ⟨utf8Bytes front, (utf8Bytes_append front back).symm⟩

end Lib
