import TideOrm.Lib.Decimal
import TideOrm.Spec.ByteLexer
import TideOrm.Sanity.TableTags

/-! The lexer cuts every text between characters: its loops over byte offsets never panic and end, each token has at
least one character, and the tokens are the text. Below 2^32 characters, where no comment depth wraps, the tokens are
those of the lexer over characters. -/

namespace TideOrm

open Lib

/-- `len` is the length in bytes of the first `n` characters. -/
structure CutAt (text : List Char) (n : ℕ) (len : Option ℕ) : Prop where
  fits : n ≤ text.length
  bytes : len = some (byteLen (text.take n))

section Cuts

variable {text front rest : List Char} {ch : Char}

theorem cutAt_front (h : text = front ++ rest) : CutAt text front.length (some (byteLen front)) := by
  subst h
  exact ⟨by rw [List.length_append]; exact Nat.le_add_right _ _, by rw [List.take_left]⟩

theorem CutAt.takeWhile (p : Char → Bool) : CutAt text (text.takeWhile p).length (some (byteLen (text.takeWhile p))) :=
  cutAt_front (List.takeWhile_append_dropWhile (p := p)).symm

theorem at_char (h : text = front ++ ch :: rest) :
    byteLen front < byteLen text ∧ sliceFrom text (byteLen front) = some (ch :: rest) ∧ text = (front ++ [ch]) ++ rest ∧
      byteLen front + ch.utf8Size = byteLen (front ++ [ch]) ∧ front.length + 1 = (front ++ [ch]).length := by
  have hone : byteLen [ch] = ch.utf8Size := byteLen_cons ch []
  have hbytes : byteLen (front ++ [ch]) = byteLen front + ch.utf8Size := by rw [byteLen_append, hone]
  have hpos := ch.utf8Size_pos
  refine ⟨?_, by rw [h, sliceFrom_append], by rw [h, List.append_assoc]; rfl, hbytes.symm, by rw [List.length_append]; rfl⟩
  rw [h, byteLen_append, byteLen_cons]
  omega

theorem at_pair {next : Char} (h : text = front ++ ch :: rest) (hhead : rest.head? = some next) (hsize : ch.utf8Size = 1)
    (hsize' : next.utf8Size = 1) : ∃ rest', rest = next :: rest' ∧ text = (front ++ [ch, next]) ++ rest' ∧
      byteLen front + 2 = byteLen (front ++ [ch, next]) ∧ front.length + 2 = (front ++ [ch, next]).length := by
  obtain ⟨rest', rfl⟩ := List.head?_eq_some_iff.1 hhead
  have hbytes : byteLen [ch, next] = ch.utf8Size + next.utf8Size := by rw [byteLen_cons, byteLen_cons]; rfl
  refine ⟨rest', rfl, by rw [h, List.append_assoc]; rfl, ?_, by rw [List.length_append]; rfl⟩
  rw [byteLen_append, hbytes, hsize, hsize']

theorem at_end (h : text = front ++ []) : ¬byteLen front < byteLen text := by
  rw [h, List.append_nil]
  exact Nat.lt_irrefl _

theorem pair_isPrefixOf (first second : Char) : [first, second].isPrefixOf (ch :: rest) = true ↔
    ch = first ∧ rest.head? = some second := by
  cases rest with
  | nil => simp [List.isPrefixOf]
  | cons next rest => simp only [List.isPrefixOf, Bool.and_true, Bool.and_eq_true, beq_iff_eq, List.head?_cons, Option.some.injEq,
      @eq_comm _ first, @eq_comm _ second]

end Cuts

section Loops

variable {sql : List Char}

theorem sqliteSuffixAt_cut : ∀ (fuel : ℕ) {front rest : List Char}, sql = front ++ rest → rest.length < fuel →
    CutAt sql (sqliteSuffixLen front.length rest) (sqliteSuffixAt sql fuel (byteLen front)) := by
  intro fuel
  induction fuel with
  | zero => exact fun _ hfuel => absurd hfuel (Nat.not_lt_zero _)
  | succ fuel ih =>
    intro front rest h hfuel
    cases rest with
    | nil =>
      rw [sqliteSuffixAt, if_neg (at_end h)]
      exact cutAt_front h
    | cons ch rest =>
      obtain ⟨hlt, hslice, hnext, hbytes, hlen⟩ := at_char h
      rw [sqliteSuffixAt, if_pos hlt, hslice]
      simp only [Option.bind_eq_bind, Option.bind_some, List.head?_cons, sqliteSuffixLen, hbytes, hlen]
      split_ifs
      · exact cutAt_front h
      · exact cutAt_front hnext
      · exact ih hnext (Nat.lt_of_succ_lt_succ hfuel)

theorem sqliteNameAt_cut (u : CharTables) : ∀ (fuel : ℕ) {front rest : List Char} (hasName : Bool), sql = front ++ rest → rest.length < fuel →
    CutAt sql (sqliteNameLen u hasName false front.length rest) (sqliteNameAt u sql fuel hasName (byteLen front)) := by
  intro fuel
  induction fuel with
  | zero => exact fun _ _ hfuel => absurd hfuel (Nat.not_lt_zero _)
  | succ fuel ih =>
    intro front rest hasName h hfuel
    cases rest with
    | nil =>
      rw [sqliteNameAt, if_neg (at_end h)]
      exact cutAt_front h
    | cons ch rest =>
      obtain ⟨hlt, hslice, hnext, hbytes, hlen⟩ := at_char h
      have hfuel' : rest.length < fuel := Nat.lt_of_succ_lt_succ hfuel
      rw [sqliteNameAt, if_pos hlt, hslice]
      simp only [Option.bind_eq_bind, Option.bind_some, List.head?_cons, sqliteNameLen, hbytes, hlen, pair_isPrefixOf]
      split_ifs with hword hcolons hsuffix
      · exact ih true hnext hfuel'
      · obtain ⟨rfl, hhead⟩ := hcolons
        obtain ⟨rest', rfl, hnext', hbytes', hlen'⟩ := at_pair h hhead rfl rfl
        rw [sqliteNameLen, ← hlen, hbytes', hlen']
        exact ih hasName hnext' (Nat.lt_of_succ_lt hfuel')
      · obtain ⟨rfl, -⟩ := hsuffix
        have hbracket : byteLen front + 1 = byteLen (front ++ ['(']) := hbytes
        rw [hbracket]
        refine sqliteSuffixAt_cut _ hnext ?_
        have hle := length_le_byteLen sql
        rw [hnext, List.length_append] at hle
        rw [hnext]
        omega
      · exact cutAt_front h

/-- The depth wraps only in a text of 2^32 characters. -/
theorem blockCommentAt_cut (nested : Bool) : ∀ (fuel : ℕ) {front rest : List Char} (depth : BitVec 32), sql = front ++ rest →
    rest.length < fuel → ∃ n, front.length ≤ n ∧ CutAt sql n (blockCommentAt sql nested fuel depth (byteLen front)) ∧
      (1 ≤ depth.toNat → depth.toNat + rest.length < 2 ^ 32 → blockCommentFrom nested false depth.toNat front.length rest = n) := by
  intro fuel
  induction fuel with
  | zero => exact fun _ _ hfuel => absurd hfuel (Nat.not_lt_zero _)
  | succ fuel ih =>
    intro front rest depth h hfuel
    cases rest with
    | nil =>
      rw [blockCommentAt, if_neg (at_end h)]
      exact ⟨front.length, Nat.le_refl _, cutAt_front h, fun _ _ => rfl⟩
    | cons ch rest =>
      obtain ⟨hlt, hslice, hnext, hbytes, hlen⟩ := at_char h
      have hfuel' : rest.length < fuel := Nat.lt_of_succ_lt_succ hfuel
      rw [blockCommentAt, if_pos hlt, hslice]
      simp only [Option.bind_eq_bind, Option.bind_some, List.head?_cons, pair_isPrefixOf]
      split_ifs with hopens hcloses hlast
      · obtain ⟨rfl, rfl, hhead⟩ := hopens
        obtain ⟨rest', rfl, hnext', hbytes', hlen'⟩ := at_pair h hhead rfl rfl
        obtain ⟨n, hle, hcut, heq⟩ := ih (depth + 1) hnext' (Nat.lt_of_succ_lt hfuel')
        refine ⟨n, by omega, by rwa [hbytes'], fun hone hbound => ?_⟩
        rw [List.length_cons, List.length_cons] at hbound
        have hdepth : (depth + 1).toNat = depth.toNat + 1 := by bv_omega
        rw [blockCommentFrom, if_pos ⟨rfl, rfl, rfl⟩, blockCommentFrom, ← hdepth, Nat.add_assoc, hlen']
        exact heq (by omega) (by omega)
      · obtain ⟨rfl, hhead⟩ := hcloses
        obtain ⟨rest', rfl, hnext', hbytes', hlen'⟩ := at_pair h hhead rfl rfl
        have hdepth : depth = 1 := by bv_omega
        refine ⟨front.length + 2, by omega, ?_, fun _ _ => ?_⟩
        · rw [hbytes', hlen']
          exact cutAt_front hnext'
        · rw [blockCommentFrom, if_neg (fun hslash => absurd hslash.2.1 (by decide)), if_pos ⟨rfl, rfl⟩, hdepth]
          rfl
      · obtain ⟨rfl, hhead⟩ := hcloses
        obtain ⟨rest', rfl, hnext', hbytes', hlen'⟩ := at_pair h hhead rfl rfl
        obtain ⟨n, hle, hcut, heq⟩ := ih (depth - 1) hnext' (Nat.lt_of_succ_lt hfuel')
        refine ⟨n, by omega, by rwa [hbytes'], fun hone hbound => ?_⟩
        rw [List.length_cons, List.length_cons] at hbound
        have hdepth : (depth - 1).toNat = depth.toNat - 1 := by bv_omega
        have hmore : depth.toNat ≠ 1 := by bv_omega
        rw [blockCommentFrom, if_neg (fun hslash => absurd hslash.2.1 (by decide)), if_pos ⟨rfl, rfl⟩, if_neg hmore, blockCommentFrom,
          ← hdepth, Nat.add_assoc, hlen']
        exact heq (by omega) (by omega)
      · obtain ⟨n, hle, hcut, heq⟩ := ih depth hnext hfuel'
        refine ⟨n, by omega, by rwa [hbytes], fun hone hbound => ?_⟩
        rw [List.length_cons] at hbound
        rw [blockCommentFrom, if_neg hopens, if_neg hcloses, hlen]
        exact heq hone (by omega)

theorem quotedEndAt_cut {close : Char} {mode : EscapeMode} : ∀ {rest front : List Char} (taken : Bool), sql = front ++ rest →
    CutAt sql (quotedEnd close mode sql.length taken front.length rest).1
        (some (quotedEndAt close mode (byteLen sql) Char.utf8Size taken (charIndices (byteLen front) rest)).1) := by
  intro rest
  induction rest with
  | nil =>
    intro front taken _
    have hwhole : CutAt sql sql.length (some (byteLen sql)) := cutAt_front (List.append_nil sql).symm
    cases taken <;> exact hwhole
  | cons ch rest ih =>
    intro front taken h
    obtain ⟨-, -, hnext, hbytes, hlen⟩ := at_char h
    rw [charIndices_cons, hbytes]
    cases taken with
    | true =>
      rw [quotedEnd, quotedEndAt, hlen]
      exact ih false hnext
    | false =>
      simp only [quotedEnd, quotedEndAt, charIndices_head, hbytes, hlen]
      split_ifs
      · exact cutAt_front h
      · exact ih _ hnext
      · exact ih _ hnext
      · exact ih _ hnext
      · exact cutAt_front hnext
      · exact ih _ hnext

end Loops

section Lengths

variable (u : CharTables)

theorem sqliteParameterBytes_cut (first : Char) (rest : List Char) (hsize : first.utf8Size = 1) :
    CutAt (first :: rest) (sqliteParameterLen u (first :: rest)) (sqliteParameterBytes u (first :: rest)) := by
  have hone : byteLen [first] = 1 := by rw [byteLen_cons, hsize]; rfl
  have hle := length_le_byteLen (first :: rest)
  have hcut := sqliteNameAt_cut u (byteLen (first :: rest) + 1) false (@rfl _ ([first] ++ rest))
    (by rw [List.length_cons] at hle; omega)
  rwa [hone] at hcut

theorem blockCommentBytes_cut (rest : List Char) (nested : Bool) (h : rest.head? = some '*') : ∃ n, 2 ≤ n ∧
    CutAt ('/' :: rest) n (blockCommentBytes ('/' :: rest) nested) ∧
      (('/' :: rest).length < 2 ^ 32 → blockCommentLen ('/' :: rest) nested = n) := by
  obtain ⟨rest', rfl⟩ := List.head?_eq_some_iff.1 h
  have hle := length_le_byteLen ('/' :: '*' :: rest')
  rw [List.length_cons, List.length_cons] at hle ⊢
  obtain ⟨n, hn, hcut, heq⟩ := blockCommentAt_cut nested (byteLen ('/' :: '*' :: rest') + 1) 1 (@rfl _ (['/', '*'] ++ rest')) (by omega)
  exact ⟨n, hn, hcut, fun hbound => heq (by decide) (by rw [show (1 : BitVec 32).toNat = 1 from rfl]; omega)⟩

theorem quotedLenBytes_cut (first : Char) (rest : List Char) (hsize : first.utf8Size = 1) (escaped : Bool) :
    CutAt (first :: rest) (quotedLen (first :: rest) first escaped) (some (quotedLenBytes (first :: rest) first escaped)) := by
  have hone : byteLen [first] = 1 := by rw [byteLen_cons, hsize]; rfl
  have hcut := @quotedEndAt_cut _ (if first = '[' then ']' else first) (if escaped then .backslash else .doubled) rest [first] false
    (@rfl _ ([first] ++ rest))
  rw [hone] at hcut
  rw [quotedLenBytes, charIndices_cons, hsize]
  exact hcut

theorem dollarTagBytes_eq (tail : List Char) : dollarTagBytes u ('$' :: tail) =
    some ((dollarTagLen u ('$' :: tail)).map fun n => byteLen (('$' :: tail).take n)) := by
  have hone : byteLen ['$'] = 1 := rfl
  obtain ⟨tag, after, htail, htag, hnext, -⟩ := takeWhile_span (fun ch => ch != '$') tail
  have hslice : sliceFrom ('$' :: tail) 1 = some tail := sliceFrom_append ['$'] tail
  have hpart : slice ('$' :: tail) 1 (byteLen tag + 1) = some tag := by
    rw [htail, Nat.add_comm]
    exact slice_append ['$'] tag after
  have hfound : findChar (· == '$') tail = if tag.length = tail.length then none else some (byteLen tag) := by
    rw [← htag]
    exact findChar_eq (· == '$') tail
  rw [dollarTagBytes, hslice]
  simp only [Option.bind_eq_bind, Option.bind_some, hfound, dollarTagLen, List.drop_succ_cons, List.drop_zero, htag]
  by_cases hlen : tag.length = tail.length
  · rw [if_pos hlen, if_pos hlen]
    rfl
  · rw [if_neg hlen, if_neg hlen]
    simp only [hpart, Option.bind_some]
    obtain ⟨ch, after, rfl⟩ : ∃ ch after', after = ch :: after' := by
      cases after with
      | nil => exact absurd (by rw [htail, List.append_nil]) hlen
      | cons ch after' => exact ⟨ch, after', rfl⟩
    obtain rfl : ch = '$' := by simpa using hnext
    split_ifs
    · have htake : ('$' :: tail).take (tag.length + 2) = '$' :: (tag ++ ['$']) := by
        rw [htail]
        simp [List.take_append, List.take_of_length_le]
      rw [Option.map_some, htake, byteLen_cons, byteLen_append, hone]
      exact congrArg (fun n => some (some n)) (Nat.add_comm 1 (byteLen tag + 1)).symm
    · rfl

theorem findStr_eq (pattern text : List Char) :
    findStr pattern text = (findText pattern text).map fun n => byteLen (text.take n) := by
  induction text with
  | nil =>
    rw [findStr, findText]
    split_ifs <;> rfl
  | cons ch text ih =>
    rw [findStr, findText]
    split_ifs
    · rfl
    · rw [ih, Option.map_map, Option.map_map]
      rfl

theorem dollarBytes_eq (tail : List Char) : dollarBytes u ('$' :: tail) =
    some ((dollarLen u ('$' :: tail)).map fun n => byteLen (('$' :: tail).take n)) := by
  rw [dollarBytes, dollarTagBytes_eq, dollarLen]
  cases hopening : dollarTagLen u ('$' :: tail) with
  | none => rfl
  | some opening =>
    obtain ⟨tag, after, rfl, rfl, -⟩ := dollarTagLen_some u hopening
    have hsplit : '$' :: (tag ++ '$' :: after) = '$' :: (tag ++ ['$']) ++ after := by simp
    have hlen : tag.length + 2 = ('$' :: (tag ++ ['$'])).length := by simp
    rw [hsplit, hlen]
    generalize '$' :: (tag ++ ['$']) = delimiter
    simp only [Option.bind_eq_bind, Option.bind_some, Option.map_some, List.take_left, List.drop_left, sliceTo_append, sliceFrom_append,
      findStr_eq]
    cases hfound : findText delimiter after with
    | none => rfl
    | some k =>
      obtain ⟨front, last, rfl, rfl⟩ := findText_split hfound
      have hcut : (delimiter ++ (front ++ (delimiter ++ last))).take (delimiter.length + front.length + delimiter.length) =
          delimiter ++ front ++ delimiter := by
        rw [← List.append_assoc, ← List.append_assoc, ← List.length_append, ← List.length_append, List.take_left]
      simp only [Option.map_some, List.take_left, hcut, byteLen_append]

theorem opensEscapedAt_eq (before rest : List Char) :
    opensEscapedAt u (before ++ rest) (byteLen before) = some (opensEscaped u before.reverse) := by
  cases before using List.reverseRecOn with
  | nil => rfl
  | append_singleton front ch =>
    have hone : byteLen [ch] = ch.utf8Size := byteLen_cons ch []
    have hpos := ch.utf8Size_pos
    have hbyte : (utf8Bytes (front ++ [ch] ++ rest))[byteLen (front ++ [ch]) - 1]? = (String.utf8EncodeChar ch).getLast? := by
      rw [List.append_assoc]
      exact utf8Bytes_before front ch rest
    rw [opensEscapedAt, if_pos (by rw [byteLen_append]; omega), hbyte, List.reverse_append, List.reverse_singleton, List.singleton_append]
    obtain ⟨byte, hlast⟩ : ∃ byte, (String.utf8EncodeChar ch).getLast? = some byte :=
      ⟨_, List.getLast?_eq_some_getLast String.utf8EncodeChar_ne_nil⟩
    have hletter : (byte = 101 ∨ byte = 69) ↔ (ch == 'e' || ch == 'E') = true := by
      rw [Bool.or_eq_true, beq_iff_eq, beq_iff_eq]
      constructor
      · intro h
        have hsame := (utf8EncodeChar_ascii (List.mem_of_getLast? hlast) (by rcases h with rfl | rfl <;> decide)).2
        rcases h with rfl | rfl
        · exact Or.inl (Char.toNat_inj.1 hsame)
        · exact Or.inr (Char.toNat_inj.1 hsame)
      · rintro (rfl | rfl)
        · exact Or.inl (Option.some.inj hlast).symm
        · exact Or.inr (Option.some.inj hlast).symm
    rw [hlast]
    simp only [Option.bind_eq_bind, Option.bind_some, hletter, opensEscaped, List.head?_reverse]
    by_cases h : (ch == 'e' || ch == 'E') = true
    · have hsize : ch.utf8Size = 1 := by
        rw [Bool.or_eq_true, beq_iff_eq, beq_iff_eq] at h
        rcases h with rfl | rfl <;> rfl
      have hfront : byteLen (front ++ [ch]) - 1 = byteLen front := by
        rw [byteLen_append, hone, hsize, Nat.add_sub_cancel]
      have hslice : sliceTo (front ++ [ch] ++ rest) (byteLen front) = some front := by
        rw [List.append_assoc, sliceTo_append]
      rw [if_pos h, h, Bool.true_and, hfront, hslice, byteLen_append, hone, hsize]
      cases front with
      | nil => rfl
      | cons first front =>
        have hfirst := byteLen_pos (List.cons_ne_nil first front)
        rw [if_neg (by omega)]
        rfl
    · have hno : (ch == 'e' || ch == 'E') = false := Bool.eq_false_iff.2 h
      rw [if_neg h, hno, Bool.false_and]

theorem length_digitBytes (text : List Char) : ((utf8Bytes text).takeWhile asciiDigit).length = (text.takeWhile Char.isDigit).length := by
  refine length_takeWhile_bytes (fun ch h => ?_) (fun byte h => ?_) (fun ch h => ?_) text
  · have hbounds := toNat_of_isDigit h
    omega
  · rw [asciiDigit, decide_eq_true_eq, UInt8.le_iff_toNat_le, UInt8.le_iff_toNat_le] at h
    change 48 ≤ byte.toNat ∧ byte.toNat ≤ 57 at h
    omega
  · have hbyte : (UInt8.ofNat ch.toNat).toNat = ch.toNat := UInt8.toNat_ofNat_of_lt' (by change ch.toNat < 256; omega)
    rw [Bool.eq_iff_iff, asciiDigit, decide_eq_true_eq, UInt8.le_iff_toNat_le, UInt8.le_iff_toNat_le, hbyte, Char.isDigit, Bool.and_eq_true,
      decide_eq_true_eq, decide_eq_true_eq, ge_iff_le, UInt32.le_iff_toNat_le, UInt32.le_iff_toNat_le]
    exact Iff.rfl

end Lengths

section Tokens

variable (u : CharTables) (sqlite : Bool)

theorem tokenBytes_cut {sql before : List Char} {first : Char} {rest : List Char} (h : sql = before ++ first :: rest) :
    ∃ kind n, 1 ≤ n ∧ n ≤ (first :: rest).length ∧
      tokenBytes u sqlite sql (byteLen before) (first :: rest) first = some (kind, byteLen ((first :: rest).take n)) ∧
      ((first :: rest).length < 2 ^ 32 → lexToken u sqlite before.reverse first rest = (kind, n)) := by
  -- a run of characters
  have hrun : ∀ p : Char → Bool, p first = true → 1 ≤ ((first :: rest).takeWhile p).length ∧
      ((first :: rest).takeWhile p).length ≤ (first :: rest).length ∧
      (findChar (fun ch => !p ch) (first :: rest)).getD (byteLen (first :: rest)) =
        byteLen ((first :: rest).take ((first :: rest).takeWhile p).length) := by
    intro p hp
    have hcut := @CutAt.takeWhile (first :: rest) p
    refine ⟨takeWhile_pos hp rest, hcut.fits, ?_⟩
    rw [findChar_getD, ← Option.some.inj hcut.bytes]
    simp only [Bool.not_not]
  simp only [tokenBytes, lexToken, pair_isPrefixOf]
  by_cases hspace : spaceChar sqlite first = true
  · obtain ⟨hone, hfits, hlen⟩ := hrun _ hspace
    rw [if_pos hspace, if_pos hspace, hlen]
    exact ⟨_, _, hone, hfits, rfl, fun _ => rfl⟩
  rw [if_neg hspace, if_neg hspace]
  by_cases hline : first = '-' ∧ rest.head? = some '-'
  · obtain ⟨hone, hfits, hlen⟩ := hrun (fun ch => ch != '\n') (by rw [hline.1]; rfl)
    simp only [bne, Bool.not_not] at hlen
    rw [if_pos hline, if_pos hline, hlen]
    exact ⟨_, _, hone, hfits, rfl, fun _ => rfl⟩
  rw [if_neg hline, if_neg hline]
  by_cases hblock : first = '/' ∧ rest.head? = some '*'
  · obtain ⟨rfl, hhead⟩ := hblock
    obtain ⟨n, htwo, hcut, heq⟩ := blockCommentBytes_cut rest (!sqlite) hhead
    rw [if_pos ⟨rfl, hhead⟩, if_pos ⟨rfl, hhead⟩, hcut.bytes]
    exact ⟨_, n, Nat.le_of_succ_le htwo, hcut.fits, rfl, fun hbound => congrArg (Prod.mk Kind.comment) (heq hbound)⟩
  rw [if_neg hblock, if_neg hblock]
  by_cases hquote : first = '\'' ∨ first = '"' ∨ first = '`' ∨ first = '['
  · have hsize : first.utf8Size = 1 := by rcases hquote with rfl | rfl | rfl | rfl <;> rfl
    have hescaped : (if (!sqlite && first == '\'') = true then opensEscapedAt u sql (byteLen before) else some false) =
        some (!sqlite && first == '\'' && opensEscaped u before.reverse) := by
      cases hmode : !sqlite && first == '\'' with
      | true => rw [if_pos rfl, h, opensEscapedAt_eq, Bool.true_and]
      | false => rfl
    have hcut := quotedLenBytes_cut first rest hsize (!sqlite && first == '\'' && opensEscaped u before.reverse)
    rw [if_pos hquote, if_pos hquote, hescaped]
    exact ⟨_, _, quotedLen_pos first rest first _, hcut.fits, by rw [Option.map_some, Option.some.inj hcut.bytes], fun _ => rfl⟩
  rw [if_neg hquote, if_neg hquote]
  by_cases hparameter : sqlite = true ∧ (first = '$' ∨ first = ':' ∨ first = '@' ∨ first = '#')
  · have hsize : first.utf8Size = 1 := by rcases hparameter.2 with rfl | rfl | rfl | rfl <;> rfl
    have hcut := sqliteParameterBytes_cut u first rest hsize
    rw [if_pos hparameter, if_pos hparameter, hcut.bytes]
    exact ⟨_, _, sqliteNameLen_le u rest false false 1, hcut.fits, rfl, fun _ => rfl⟩
  rw [if_neg hparameter, if_neg hparameter]
  by_cases hdollar : first = '$'
  · subst hdollar
    rw [if_pos rfl, if_pos rfl, dollarBytes_eq]
    cases hfound : dollarLen u ('$' :: rest) with
    | some n =>
      obtain ⟨body, after, rfl, rfl, -⟩ := dollarLen_span u hfound
      exact ⟨.literal, body.length + 1, Nat.le_add_left _ _, by simp, rfl, fun _ => rfl⟩
    | none =>
      have hslice : sliceFrom ('$' :: rest) 1 = some rest := sliceFrom_append ['$'] rest
      have hdigits : byteLen (rest.takeWhile Char.isDigit) = (rest.takeWhile Char.isDigit).length :=
        byteLen_ascii fun ch hch => by
          have hbounds := toNat_of_isDigit (List.mem_takeWhile_imp hch)
          omega
      have htake : ('$' :: rest).take (1 + (rest.takeWhile Char.isDigit).length) = '$' :: rest.takeWhile Char.isDigit := by
        rw [Nat.add_comm, List.take_succ_cons, ← List.prefix_iff_eq_take.1 (List.takeWhile_prefix Char.isDigit)]
      have hbytes : byteLen ('$' :: rest.takeWhile Char.isDigit) = 1 + (rest.takeWhile Char.isDigit).length := by
        rw [byteLen_cons, hdigits]
        rfl
      refine ⟨_, 1 + (rest.takeWhile Char.isDigit).length, Nat.le_add_right 1 _, ?_, ?_, fun _ => rfl⟩
      · have hle := (List.takeWhile_prefix Char.isDigit (l := rest)).length_le
        rw [List.length_cons]
        omega
      · simp only [Option.bind_eq_bind, Option.bind_some, Option.map_none, hslice, length_digitBytes]
        rw [htake, hbytes]
  rw [if_neg hdollar, if_neg hdollar]
  by_cases hword : first = '_' ∨ u.isAlphabetic first = true
  · obtain ⟨hone, hfits, hlen⟩ := hrun (identifierChar u) (by
      rcases hword with rfl | halpha
      · rfl
      · rw [identifierChar, CharTables.isAlphanumeric, halpha, Bool.true_or, Bool.or_true])
    rw [if_pos hword, if_pos hword, hlen]
    exact ⟨_, _, hone, hfits, rfl, fun _ => rfl⟩
  rw [if_neg hword, if_neg hword]
  exact ⟨.symbol, 1, Nat.le_refl 1, Nat.le_add_left 1 _, by rw [List.take_succ_cons, byteLen_cons]; rfl, fun _ => rfl⟩

theorem nextToken_end (sql : List Char) : nextToken u sqlite sql (byteLen sql) = some none := by
  have hslice : sliceFrom sql (byteLen sql) = some [] := by simpa using sliceFrom_append sql []
  rw [nextToken, hslice]
  rfl

theorem nextToken_cut {sql before : List Char} {first : Char} {rest : List Char} (h : sql = before ++ first :: rest) :
    ∃ kind text after, first :: rest = text ++ after ∧ text ≠ [] ∧
      nextToken u sqlite sql (byteLen before) = some (some (⟨text, byteLen before, kind⟩, byteLen (before ++ text))) ∧
      ((first :: rest).length < 2 ^ 32 → lexToken u sqlite before.reverse first rest = (kind, text.length)) := by
  obtain ⟨kind, n, hone, hfits, htoken, hlex⟩ := tokenBytes_cut u sqlite h
  have hsplit : (first :: rest).take n ++ (first :: rest).drop n = first :: rest := List.take_append_drop n _
  have hlen : ((first :: rest).take n).length = n := by rw [List.length_take, Nat.min_eq_left hfits]
  refine ⟨kind, (first :: rest).take n, (first :: rest).drop n, hsplit.symm, List.length_pos_iff.1 (hlen.symm ▸ hone), ?_, ?_⟩
  · have hfrom : sliceFrom sql (byteLen before) = some (first :: rest) := by rw [h, sliceFrom_append]
    have hto : sliceTo (first :: rest) (byteLen ((first :: rest).take n)) = some ((first :: rest).take n) := by
      have hslice := sliceTo_append ((first :: rest).take n) ((first :: rest).drop n)
      rwa [hsplit] at hslice
    rw [nextToken, hfrom]
    simp only [Option.bind_eq_bind, Option.bind_some, List.head?_cons, htoken, hto, byteLen_append]
  · rwa [hlen]

/-- The scan from a place on, step by step: every token is a part of the text. -/
theorem scanAt_cut {sql : List Char} : ∀ (fuel : ℕ) {before rest : List Char}, sql = before ++ rest → rest.length < fuel →
    ∃ run, scanAt u sqlite sql fuel (byteLen before) = some (placed (byteLen before) run) ∧ (∀ token ∈ run, token.2 ≠ []) ∧
      textOf run = rest ∧ (sql.length < 2 ^ 32 → readFrom (lexToken u sqlite) 0 before.reverse rest = run) := by
  intro fuel
  induction fuel with
  | zero => exact fun _ hfuel => absurd hfuel (Nat.not_lt_zero _)
  | succ fuel ih =>
    intro before rest h hfuel
    cases rest with
    | nil =>
      have hnext : nextToken u sqlite sql (byteLen before) = some none := by
        rw [h, List.append_nil]
        exact nextToken_end u sqlite before
      refine ⟨[], ?_, fun _ hmem => absurd hmem List.not_mem_nil, rfl, fun _ => rfl⟩
      rw [scanAt, hnext]
      rfl
    | cons first rest =>
      obtain ⟨kind, text, after, hrest, hne, hnext, hlex⟩ := nextToken_cut u sqlite h
      have hlen : (first :: rest).length = text.length + after.length := by rw [hrest, List.length_append]
      have hpos := List.length_pos_iff.2 hne
      obtain ⟨run, hscan, hall, htext, hread⟩ := ih (show sql = (before ++ text) ++ after by rw [h, hrest, List.append_assoc]) (by omega)
      refine ⟨(kind, text) :: run, ?_, ?_, ?_, fun hbound => ?_⟩
      · have hstart : utf8Len text = byteLen text := rfl
        rw [scanAt, hnext]
        rw [byteLen_append] at hscan ⊢
        simp only [Option.bind_eq_bind, Option.bind_some, hscan, placed, hstart]
      · rintro token hmem
        rcases List.mem_cons.1 hmem with rfl | hmem
        · exact hne
        · exact hall token hmem
      · rw [textOf_cons, htext, hrest]
      · have hsql := congrArg List.length h
        rw [List.length_append] at hsql
        obtain ⟨first', body, rfl⟩ := List.exists_cons_of_ne_nil hne
        obtain ⟨rfl, rfl⟩ := List.cons.inj hrest
        have htakes : Takes (lexToken u sqlite) before.reverse (kind, first :: body) after :=
          ⟨first, body, body.length, rfl, hlex (by omega), Or.inl rfl⟩
        rw [hrest, htakes.read, ← hread hbound, List.reverse_append]

theorem scanAt_more {sql : List Char} : ∀ (fuel : ℕ) {offset : ℕ} {found : List Token}, scanAt u sqlite sql fuel offset = some found →
    ∀ fuel', fuel ≤ fuel' → scanAt u sqlite sql fuel' offset = some found := by
  intro fuel
  induction fuel with
  | zero => exact fun h => nomatch h
  | succ fuel ih =>
    intro offset found h fuel' hle
    obtain ⟨fuel', rfl⟩ := Nat.exists_eq_succ_of_ne_zero (Nat.ne_of_gt (Nat.lt_of_lt_of_le (Nat.succ_pos fuel) hle))
    rw [scanAt] at h ⊢
    cases hnext : nextToken u sqlite sql offset with
    | none =>
      rw [hnext] at h
      cases h
    | some next =>
      rw [hnext] at h
      cases next with
      | none => exact h
      | some next =>
        rw [Option.bind_eq_bind, Option.bind_some] at h ⊢
        obtain ⟨more, hmore, hfound⟩ := Option.bind_eq_some_iff.1 h
        exact Option.bind_eq_some_iff.2 ⟨more, ih hmore fuel' (Nat.le_of_succ_le_succ hle), hfound⟩

end Tokens

section Placed

theorem placed_texts (start : ℕ) (run : List (Kind × List Char)) : (placed start run).flatMap Token.text = textOf run := by
  induction run generalizing start with
  | nil => rfl
  | cons token run ih => rw [placed, List.flatMap_cons, ih, textOf_cons]

theorem placed_head (start : ℕ) (run : List (Kind × List Char)) : ∀ t ∈ (placed start run).head?, t.start = start := by
  cases run with
  | nil => exact fun _ h => nomatch h
  | cons token run => exact fun _ h => congrArg Token.start (Option.some.inj h).symm

theorem placed_adjacent (start : ℕ) (run : List (Kind × List Char)) :
    (placed start run).IsChain fun t next => t.stop = next.start := by
  induction run generalizing start with
  | nil => exact List.IsChain.nil
  | cons token run ih =>
    have htail := ih (start + utf8Len token.2)
    have hhead := placed_head (start + utf8Len token.2) run
    rw [placed]
    cases hrest : placed (start + utf8Len token.2) run with
    | nil => exact List.IsChain.singleton _
    | cons next rest =>
      rw [hrest] at htail hhead
      exact List.IsChain.cons_cons (hhead next rfl).symm htail

end Placed

/-- Below the length where a comment's depth could wrap, the lexer over characters finds the same tokens. -/
theorem scanAt_scan (u : CharTables) (sqlite : Bool) {sql : List Char} (h : sql.length < 2 ^ 32) :
    scanAt u sqlite sql (sql.length + 1) 0 = some (scan u sql sqlite) := by
  obtain ⟨run, hscan, -, -, hread⟩ := scanAt_cut u sqlite (sql.length + 1) (@rfl _ ([] ++ sql)) (Nat.lt_succ_self _)
  rw [scan, scanFrom_placed u sqlite sql.length sql [] 0 (Nat.le_refl _)]
  exact hscan.trans (by rw [← hread h]; rfl)

/-- Every text is cut into adjacent tokens, each with its characters, and the cut ends without a panic. -/
theorem scan_partitions (u : CharTables) (sqlite : Bool) (sql : List Char) : ∃ found,
    (∀ fuel, sql.length < fuel → scanAt u sqlite sql fuel 0 = some found) ∧ (∀ t ∈ found, t.text ≠ []) ∧
      (∀ t ∈ found.head?, t.start = 0) ∧ (found.IsChain fun t next => t.stop = next.start) ∧ found.flatMap Token.text = sql := by
  obtain ⟨run, hscan, hall, htext, -⟩ := scanAt_cut u sqlite (sql.length + 1) (@rfl _ ([] ++ sql)) (Nat.lt_succ_self _)
  refine ⟨placed 0 run, fun fuel hfuel => scanAt_more u sqlite _ hscan fuel hfuel, fun t ht => ?_, placed_head 0 run,
    placed_adjacent 0 run, (placed_texts 0 run).trans htext⟩
  exact hall _ (mem_placed ht)

end TideOrm
