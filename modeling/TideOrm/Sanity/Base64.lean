import TideOrm.Spec.Base64
import Mathlib.Tactic.LinearCombination

/-! Base64 for URLs is canonical: bytes decode from their encoding alone. Encoder and decoder
are read as numbers, the sextets in base 64 and the bytes in base 256, so that the two differ by
the bits that pad the last sextet. -/

namespace TideOrm

open Lib

theorem alphabetChar_value : ∀ v < 64, charToValue (alphabetChar v) = some v := by decide +kernel

theorem charToValue_ascii : ∀ n < 128, (charToValue (Char.ofNat n)).all (fun v =>
    decide (v < 64) && alphabetChar v == Char.ofNat n) = true := by decide +kernel

theorem charToValue_some {c : Char} {v : ℕ} (h : charToValue c = some v) : c.toNat < 128 ∧ v < 64 ∧ alphabetChar v = c := by
  have hascii : c.toNat < 128 := by
    simp only [charToValue] at h
    split_ifs at h with hupper hlower hdigit hdash hunderscore
    · omega
    · omega
    · omega
    · rw [hdash]
      decide
    · rw [hunderscore]
      decide
  have hchar := charToValue_ascii c.toNat hascii
  rw [Char.ofNat_toNat, h, Option.all_some, Bool.and_eq_true, decide_eq_true_iff, beq_iff_eq] at hchar
  exact ⟨hascii, hchar⟩

theorem and_63 (n : ℕ) : n &&& 0x3F = n % 2 ^ 6 := Nat.and_two_pow_sub_one_eq_mod n 6

/-- The characters drained write the highest bits. -/
theorem drainSextets_spec (bits bitCount : ℕ) :
    ∃ sextets, (drainSextets bits bitCount).1 = sextets.map alphabetChar ∧ (∀ v ∈ sextets, v < 64) ∧
      6 * sextets.length + (drainSextets bits bitCount).2 = bitCount ∧ (drainSextets bits bitCount).2 < 6 ∧
      radixValue 64 sextets * 2 ^ (drainSextets bits bitCount).2 + bits % 2 ^ (drainSextets bits bitCount).2 =
        bits % 2 ^ bitCount := by
  fun_induction drainSextets bits bitCount with
  | case1 bitCount hcount chars left hdrain ih =>
    obtain ⟨sextets, hchars, hlt, hlen, hleft, hvalue⟩ := ih
    rw [hdrain] at hchars hlen hleft hvalue
    dsimp only at hchars hlen hleft hvalue ⊢
    refine ⟨((bits >>> (bitCount - 6)) % 2 ^ 6) :: sextets, ?_, ?_, ?_, hleft, ?_⟩
    · rw [hchars, and_63]
      rfl
    · intro v hv
      rcases List.mem_cons.1 hv with rfl | hv
      · exact Nat.mod_lt _ (by decide)
      · exact hlt v hv
    · rw [List.length_cons]
      omega
    · have hpow : (64 : ℕ) ^ sextets.length * 2 ^ left = 2 ^ (bitCount - 6) := by
        rw [show (64 : ℕ) = 2 ^ 6 by rfl, ← Nat.pow_mul, ← Nat.pow_add, hlen]
      have hsplit := mod_two_pow_add bits (bitCount - 6) 6
      rw [Nat.sub_add_cancel hcount] at hsplit
      rw [radixValue_cons, Nat.add_mul, Nat.mul_assoc, hpow, Nat.add_assoc, hvalue, hsplit]
  | case2 bitCount hcount =>
    exact ⟨[], rfl, by simp, by simp, by omega, by simp⟩

theorem last_sextet (bits : ℕ) {bitCount : ℕ} (hcount : bitCount < 6) :
    (bits <<< (6 - bitCount)) % 2 ^ 32 &&& 0x3F = (bits % 2 ^ bitCount) * 2 ^ (6 - bitCount) := by
  have hpow : (2 : ℕ) ^ 6 = 2 ^ bitCount * 2 ^ (6 - bitCount) := by
    rw [← Nat.pow_add]
    congr 1
    omega
  rw [and_63, Nat.mod_mod_of_dvd _ (Nat.pow_dvd_pow 2 (by decide)), Nat.shiftLeft_eq, hpow, Nat.mul_mod_mul_right]

/-- The characters of an encoding, after `bitCount` bits that are still to be written. -/
theorem encodeFrom_spec (data : List UInt8) (bits bitCount : ℕ) (hcount : bitCount < 6) :
    ∃ sextets padding, encodeFrom bits bitCount data = sextets.map alphabetChar ∧ (∀ v ∈ sextets, v < 64) ∧
      6 * sextets.length = bitCount + 8 * data.length + padding ∧ padding < 6 ∧
      radixValue 64 sextets =
        ((bits % 2 ^ bitCount) * 2 ^ (8 * data.length) + radixValue 256 (data.map UInt8.toNat)) * 2 ^ padding := by
  induction data generalizing bits bitCount with
  | nil =>
    rw [encodeFrom]
    by_cases hzero : 0 < bitCount
    · rw [if_pos hzero]
      refine ⟨[(bits % 2 ^ bitCount) * 2 ^ (6 - bitCount)], 6 - bitCount, ?_, ?_, ?_, by omega, ?_⟩
      · rw [last_sextet bits hcount]
        rfl
      · intro v hv
        rw [List.mem_singleton.1 hv, ← last_sextet bits hcount, and_63]
        exact Nat.mod_lt _ (by decide)
      · rw [List.length_singleton, List.length_nil]
        omega
      · rw [radixValue_singleton, List.map_nil, radixValue_nil, List.length_nil, Nat.mul_zero, Nat.pow_zero, Nat.mul_one,
          Nat.add_zero]
    · obtain rfl : bitCount = 0 := by omega
      exact ⟨[], 0, rfl, by simp, by simp, by decide, by simp [Nat.mod_one]⟩
  | cons byte rest ih =>
    obtain ⟨drained, hchars, hlt, hlen, hleft, hvalue⟩ := drainSextets_spec (pushBits 32 8 bits byte.toNat) (bitCount + 8)
    obtain ⟨sextets, padding, hrest, hlt', hlen', hpadding, hvalue'⟩ := ih (pushBits 32 8 bits byte.toNat)
      (drainSextets (pushBits 32 8 bits byte.toNat) (bitCount + 8)).2 hleft
    rw [pushBits_mod byte.toNat_lt (by omega)] at hvalue
    refine ⟨drained ++ sextets, padding, ?_, ?_, ?_, hpadding, ?_⟩
    · rw [encodeFrom, List.map_append, ← hchars, ← hrest]
    · intro v hv
      rcases List.mem_append.1 hv with hv | hv
      · exact hlt v hv
      · exact hlt' v hv
    · rw [List.length_append, List.length_cons]
      omega
    · set left := (drainSextets (pushBits 32 8 bits byte.toNat) (bitCount + 8)).2
      have hpow : (64 : ℕ) ^ sextets.length = 2 ^ left * 2 ^ (8 * rest.length) * 2 ^ padding := by
        rw [show (64 : ℕ) = 2 ^ 6 by rfl, ← Nat.pow_mul, hlen', Nat.pow_add, Nat.pow_add]
      have hbytes : (256 : ℕ) ^ rest.length = 2 ^ (8 * rest.length) := by
        rw [show (256 : ℕ) = 2 ^ 8 by rfl, ← Nat.pow_mul]
      rw [radixValue_append, hvalue', List.map_cons, radixValue_cons, List.length_map, hpow, hbytes, List.length_cons,
        Nat.mul_succ, Nat.pow_add]
      linear_combination (2 ^ (8 * rest.length) * 2 ^ padding) * hvalue

theorem and_low (bits bitCount : ℕ) : bits &&& ((1 <<< bitCount) - 1) = bits % 2 ^ bitCount := by
  rw [Nat.one_shiftLeft]
  exact Nat.and_two_pow_sub_one_eq_mod bits bitCount

theorem decodeFrom_nil (bits bitCount : ℕ) (result : List UInt8) :
    decodeFrom bits bitCount result [] = if bits % 2 ^ bitCount = 0 then some result else none := by
  rw [decodeFrom, and_low]
  by_cases hzero : bits % 2 ^ bitCount = 0
  · rw [if_pos hzero, if_neg fun h => h.2 hzero]
  · have hcount : 0 < bitCount := by
      by_contra hcount
      exact hzero (by rw [Nat.eq_zero_of_not_pos hcount, Nat.pow_zero, Nat.mod_one])
    rw [if_neg hzero, if_pos ⟨hcount, hzero⟩]

/-- A byte is read off the highest bits. -/
theorem byte_off (bits k : ℕ) :
    (UInt8.ofNat (bits >>> k)).toNat * 2 ^ k + bits % 2 ^ k = bits % 2 ^ (k + 8) := by
  rw [mod_two_pow_add bits k 8, UInt8.toNat_ofNat']

theorem pow_sextets (n : ℕ) : (64 : ℕ) ^ n = 2 ^ (6 * n) := by
  rw [show (64 : ℕ) = 2 ^ 6 by rfl, ← Nat.pow_mul]

theorem pow_bytes (n : ℕ) : (256 : ℕ) ^ n = 2 ^ (8 * n) := by
  rw [show (256 : ℕ) = 2 ^ 8 by rfl, ← Nat.pow_mul]

/-- The bytes that decode from characters write the same number, the bits left over apart. -/
theorem decodeFrom_value (chars : List Char) (bits bitCount : ℕ) (result out : List UInt8) (hcount : bitCount < 8)
    (h : decodeFrom bits bitCount result chars = some out) :
    ∃ sextets bytes left, chars = sextets.map alphabetChar ∧ (∀ v ∈ sextets, v < 64) ∧ out = result ++ bytes ∧
      bitCount + 6 * sextets.length = 8 * bytes.length + left ∧ left < 8 ∧
      (bits % 2 ^ bitCount) * 64 ^ sextets.length + radixValue 64 sextets =
        radixValue 256 (bytes.map UInt8.toNat) * 2 ^ left := by
  induction chars generalizing bits bitCount result with
  | nil =>
    rw [decodeFrom_nil] at h
    split_ifs at h with hzero
    cases h
    refine ⟨[], [], bitCount, rfl, by simp, by simp, by simp, hcount, ?_⟩
    rw [hzero]
    simp
  | cons c rest ih =>
    rw [decodeFrom, Option.bind_eq_some_iff] at h
    obtain ⟨value, hvalue, h⟩ := h
    obtain ⟨-, hlt, hchar⟩ := charToValue_some hvalue
    have hpush : pushBits 32 6 bits value % 2 ^ (bitCount + 6) = (bits % 2 ^ bitCount) * 2 ^ 6 + value :=
      pushBits_mod hlt (by omega)
    dsimp only at h
    split_ifs at h with hbyte
    · obtain ⟨sextets, bytes, left, hchars, hsextets, hout, hlen, hleft, hnumber⟩ := ih _ _ _ (by omega) h
      refine ⟨value :: sextets, UInt8.ofNat (pushBits 32 6 bits value >>> (bitCount + 6 - 8)) :: bytes, left,
        by rw [List.map_cons, hchar, hchars], ?_, by rw [hout, List.append_assoc]; rfl, ?_, hleft, ?_⟩
      · intro v hv
        rcases List.mem_cons.1 hv with rfl | hv
        · exact hlt
        · exact hsextets v hv
      · rw [List.length_cons, List.length_cons]
        omega
      · have hoff := byte_off (pushBits 32 6 bits value) (bitCount + 6 - 8)
        rw [show bitCount + 6 - 8 + 8 = bitCount + 6 by omega, hpush] at hoff
        have hpow : (256 : ℕ) ^ bytes.length * 2 ^ left = 2 ^ (bitCount + 6 - 8) * 64 ^ sextets.length := by
          rw [pow_bytes, pow_sextets, ← Nat.pow_add, ← Nat.pow_add, hlen]
        rw [radixValue_cons, List.map_cons, radixValue_cons, List.length_map, Nat.add_mul, ← hnumber, Nat.mul_assoc _ _
          (2 ^ left), hpow, List.length_cons, Nat.pow_succ]
        linear_combination (64 : ℕ) ^ sextets.length * hoff.symm
    · obtain ⟨sextets, bytes, left, hchars, hsextets, hout, hlen, hleft, hnumber⟩ := ih _ _ _ (by omega) h
      refine ⟨value :: sextets, bytes, left, by rw [List.map_cons, hchar, hchars], ?_, hout, ?_, hleft, ?_⟩
      · intro v hv
        rcases List.mem_cons.1 hv with rfl | hv
        · exact hlt
        · exact hsextets v hv
      · rw [List.length_cons]
        omega
      · rw [← hnumber, hpush, radixValue_cons, List.length_cons, Nat.pow_succ]
        ring

/-- Characters of the alphabet decode when the bits left over are zero. -/
theorem decodeFrom_isSome (sextets : List ℕ) (bits bitCount : ℕ) (result : List UInt8) (hcount : bitCount < 8)
    (hlt : ∀ v ∈ sextets, v < 64)
    (hzero : 2 ^ ((bitCount + 6 * sextets.length) % 8) ∣
      (bits % 2 ^ bitCount) * 64 ^ sextets.length + radixValue 64 sextets) :
    (decodeFrom bits bitCount result (sextets.map alphabetChar)).isSome := by
  induction sextets generalizing bits bitCount result with
  | nil =>
    rw [List.length_nil, Nat.mul_zero, Nat.add_zero, Nat.mod_eq_of_lt hcount, Nat.pow_zero, Nat.mul_one, radixValue_nil,
      Nat.add_zero, Nat.dvd_iff_mod_eq_zero, Nat.mod_mod] at hzero
    rw [List.map_nil, decodeFrom_nil, if_pos hzero]
    rfl
  | cons value rest ih =>
    have hvalue : value < 64 := hlt value (List.mem_cons_self ..)
    have hrest : ∀ v ∈ rest, v < 64 := fun v hv => hlt v (List.mem_cons_of_mem _ hv)
    have hpush : pushBits 32 6 bits value % 2 ^ (bitCount + 6) = (bits % 2 ^ bitCount) * 2 ^ 6 + value :=
      pushBits_mod hvalue (by omega)
    have hnumber : (bits % 2 ^ bitCount) * 64 ^ (value :: rest).length + radixValue 64 (value :: rest) =
        (pushBits 32 6 bits value % 2 ^ (bitCount + 6)) * 64 ^ rest.length + radixValue 64 rest := by
      rw [hpush, radixValue_cons, List.length_cons, Nat.pow_succ]
      ring
    rw [hnumber, List.length_cons] at hzero
    rw [List.map_cons, decodeFrom, alphabetChar_value value hvalue, Option.bind_some]
    dsimp only
    split_ifs with hbyte
    · apply ih _ _ _ (by omega) hrest
      have hoff := byte_off (pushBits 32 6 bits value) (bitCount + 6 - 8)
      rw [show bitCount + 6 - 8 + 8 = bitCount + 6 by omega] at hoff
      have hmod : (bitCount + 6 * (rest.length + 1)) % 8 = (bitCount + 6 - 8 + 6 * rest.length) % 8 := by omega
      rw [← hoff, Nat.add_mul, Nat.add_assoc, Nat.mul_assoc, pow_sextets, ← Nat.pow_add, hmod, ← pow_sextets] at hzero
      refine (Nat.dvd_add_right (Dvd.dvd.mul_left ?_ _)).1 hzero
      exact Nat.pow_dvd_pow 2 (Nat.mod_le _ _)
    · apply ih _ _ _ (by omega) hrest
      rw [show bitCount + 6 + 6 * rest.length = bitCount + 6 * (rest.length + 1) by omega]
      exact hzero

theorem utf8Len_alphabet (sextets : List ℕ) (hlt : ∀ v ∈ sextets, v < 64) :
    utf8Len (sextets.map alphabetChar) = sextets.length := by
  have hsize : ∀ v < 64, (alphabetChar v).utf8Size = 1 := by decide +kernel
  induction sextets with
  | nil => rfl
  | cons v rest ih =>
    have hrest := ih fun v hv => hlt v (List.mem_cons_of_mem _ hv)
    rw [utf8Len] at hrest
    rw [utf8Len, List.map_cons, List.map_cons, List.sum_cons, hrest, hsize v (hlt v (List.mem_cons_self ..)),
      List.length_cons, Nat.add_comm]

/-- What the encoding of bytes writes. -/
theorem base64UrlEncode_spec (data : List UInt8) :
    ∃ sextets padding, base64UrlEncode data = sextets.map alphabetChar ∧ (∀ v ∈ sextets, v < 64) ∧
      6 * sextets.length = 8 * data.length + padding ∧ padding < 6 ∧
      radixValue 64 sextets = radixValue 256 (data.map UInt8.toNat) * 2 ^ padding := by
  obtain ⟨sextets, padding, hchars, hlt, hlen, hpadding, hvalue⟩ := encodeFrom_spec data 0 0 (by decide)
  refine ⟨sextets, padding, hchars, hlt, by omega, hpadding, ?_⟩
  rw [hvalue, Nat.zero_mod, Nat.zero_mul, Nat.zero_add]

/-- What bytes that decode write. -/
theorem base64UrlDecode_spec {encoded : List Char} {data : List UInt8} (h : base64UrlDecode encoded = some data) :
    ∃ sextets left, encoded = sextets.map alphabetChar ∧ (∀ v ∈ sextets, v < 64) ∧
      6 * sextets.length = 8 * data.length + left ∧ left < 6 ∧
      radixValue 64 sextets = radixValue 256 (data.map UInt8.toNat) * 2 ^ left := by
  rw [base64UrlDecode] at h
  split_ifs at h with hlen4
  obtain ⟨sextets, bytes, left, hchars, hlt, hout, hlen, hleft, hvalue⟩ := decodeFrom_value encoded 0 0 [] data (by decide) h
  rw [List.nil_append] at hout
  subst hout
  rw [hchars, utf8Len_alphabet sextets hlt] at hlen4
  refine ⟨sextets, left, hchars, hlt, by omega, by omega, ?_⟩
  rw [← hvalue, Nat.zero_mod, Nat.zero_mul, Nat.zero_add]

theorem bytes_inj {data data' : List UInt8} (hlen : data.length = data'.length)
    (h : radixValue 256 (data.map UInt8.toNat) = radixValue 256 (data'.map UInt8.toNat)) : data = data' := by
  have hlt : ∀ data : List UInt8, ∀ d ∈ data.map UInt8.toNat, d < 256 := by
    intro data d hd
    obtain ⟨byte, -, rfl⟩ := List.mem_map.1 hd
    exact byte.toNat_lt
  have hmap := radixValue_inj (by decide) (by simpa using hlen) (hlt data) (hlt data') h
  exact List.map_injective_iff.2 (fun a b hab => UInt8.toNat.inj hab) hmap

theorem alphabet_inj {sextets sextets' : List ℕ} (hlt : ∀ v ∈ sextets, v < 64) (hlt' : ∀ v ∈ sextets', v < 64)
    (h : sextets.map alphabetChar = sextets'.map alphabetChar) : sextets = sextets' := by
  have hvalues : ∀ sextets : List ℕ, (∀ v ∈ sextets, v < 64) →
      (sextets.map alphabetChar).map charToValue = sextets.map some := by
    intro sextets hlt
    rw [List.map_map]
    exact List.map_congr_left fun v hv => alphabetChar_value v (hlt v hv)
  have hmap : sextets.map some = sextets'.map some := by
    rw [← hvalues sextets hlt, ← hvalues sextets' hlt', h]
  exact List.map_injective_iff.2 (Option.some_injective _) hmap

/-- Bytes decode from their encoding, -/
theorem base64UrlDecode_encode (data : List UInt8) : base64UrlDecode (base64UrlEncode data) = some data := by
  obtain ⟨sextets, padding, hchars, hlt, hlen, hpadding, hvalue⟩ := base64UrlEncode_spec data
  have hlen4 : ¬utf8Len (base64UrlEncode data) % 4 = 1 := by
    rw [hchars, utf8Len_alphabet sextets hlt]
    omega
  have hsome : (base64UrlDecode (base64UrlEncode data)).isSome := by
    rw [base64UrlDecode, if_neg hlen4, hchars]
    refine decodeFrom_isSome sextets 0 0 [] (by decide) hlt ?_
    rw [show (0 + 6 * sextets.length) % 8 = padding by omega, Nat.zero_mod, Nat.zero_mul, Nat.zero_add, hvalue]
    exact Dvd.intro_left _ rfl
  obtain ⟨data', hdecode⟩ := Option.isSome_iff_exists.1 hsome
  obtain ⟨sextets', left, hchars', hlt', hlen', hleft, hvalue'⟩ := base64UrlDecode_spec hdecode
  obtain rfl : sextets = sextets' := alphabet_inj hlt hlt' (hchars.symm.trans hchars')
  obtain rfl : left = padding := by omega
  rw [hdecode, bytes_inj (by omega) (Nat.eq_of_mul_eq_mul_right (Nat.two_pow_pos left) (hvalue'.symm.trans hvalue))]

/-- and from no other text. -/
theorem base64UrlEncode_of_decode {encoded : List Char} {data : List UInt8} (h : base64UrlDecode encoded = some data) :
    encoded = base64UrlEncode data := by
  obtain ⟨sextets, padding, hchars, hlt, hlen, hpadding, hvalue⟩ := base64UrlEncode_spec data
  obtain ⟨sextets', left, hchars', hlt', hlen', hleft, hvalue'⟩ := base64UrlDecode_spec h
  obtain rfl : left = padding := by omega
  have hsame : sextets' = sextets := radixValue_inj (by decide) (by omega) hlt' hlt (hvalue'.trans hvalue.symm)
  rw [hchars', hchars, hsame]

end TideOrm
