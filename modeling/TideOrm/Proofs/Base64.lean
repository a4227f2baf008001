import TideOrm.Sanity.Base64

/-! base64url is a bijection onto its image, and the bits shifted out of the 32-bit accumulators
are never read: with accumulators that keep every bit the texts and the bytes are the same. -/

namespace TideOrm

open Lib

section Unbounded

/-- Pushing bits into a register that none fall out of. -/
def pushAllBits (w bits value : ℕ) : ℕ := bits <<< w ||| value

/-- `encodeFrom` with an accumulator of any size. -/
def unboundedEncodeFrom (bits bitCount : ℕ) : List UInt8 → List Char
  | [] => if 0 < bitCount then [alphabetChar (bits <<< (6 - bitCount) &&& 0x3F)] else []
  | byte :: rest =>
    let bits := pushAllBits 8 bits byte.toNat
    let (chars, bitCount) := drainSextets bits (bitCount + 8)
    chars ++ unboundedEncodeFrom bits bitCount rest

def unboundedEncode (data : List UInt8) : List Char := unboundedEncodeFrom 0 0 data

/-- `decodeFrom` with an accumulator of any size. -/
def unboundedDecodeFrom (bits bitCount : ℕ) (result : List UInt8) : List Char → Option (List UInt8)
  | [] => if 0 < bitCount ∧ bits &&& ((1 <<< bitCount) - 1) ≠ 0 then none else some result
  | c :: rest =>
    (charToValue c).bind fun value =>
      let bits := pushAllBits 6 bits value
      let bitCount := bitCount + 6
      if 8 ≤ bitCount then
        unboundedDecodeFrom bits (bitCount - 8) (result ++ [UInt8.ofNat (bits >>> (bitCount - 8))]) rest
      else unboundedDecodeFrom bits bitCount result rest

def unboundedDecode (encoded : List Char) : Option (List UInt8) :=
  if utf8Len encoded % 4 = 1 then none else unboundedDecodeFrom 0 0 [] encoded

end Unbounded

section Congr

variable {bits bits' bitCount : ℕ}

theorem pushAllBits_mod {w k bits value : ℕ} (hvalue : value < 2 ^ w) :
    pushAllBits w bits value % 2 ^ (k + w) = (bits % 2 ^ k) * 2 ^ w + value := by
  have hdiv : (bits * 2 ^ w + value) / 2 ^ w = bits := by
    rw [Nat.mul_comm, Nat.mul_add_div (Nat.two_pow_pos w), Nat.div_eq_of_lt hvalue, Nat.add_zero]
  rw [pushAllBits, ← Nat.shiftLeft_add_eq_or_of_lt hvalue, Nat.shiftLeft_eq, Nat.pow_add, Nat.mul_comm (2 ^ k),
    Nat.mod_mul, hdiv, Nat.mul_add_mod_of_lt hvalue]
  ring

/-- The two registers agree on the bits still to be read. -/
theorem push_congr {w k value : ℕ} (hvalue : value < 2 ^ w) (hsize : k + w ≤ 32) (h : bits % 2 ^ k = bits' % 2 ^ k) :
    pushBits 32 w bits value % 2 ^ (k + w) = pushAllBits w bits' value % 2 ^ (k + w) := by
  rw [pushBits_mod hvalue hsize, pushAllBits_mod hvalue, h]

theorem shiftRight_congr {k w : ℕ} (h : bits % 2 ^ (k + w) = bits' % 2 ^ (k + w)) :
    (bits >>> k) % 2 ^ w = (bits' >>> k) % 2 ^ w := by
  rw [Nat.shiftRight_eq_div_pow, Nat.shiftRight_eq_div_pow, ← Nat.mod_mul_right_div_self, ← Nat.mod_mul_right_div_self,
    ← Nat.pow_add, h]

theorem low_congr {k w : ℕ} (h : bits % 2 ^ (k + w) = bits' % 2 ^ (k + w)) : bits % 2 ^ k = bits' % 2 ^ k := by
  have hdvd : 2 ^ k ∣ 2 ^ (k + w) := Nat.pow_dvd_pow 2 (by omega)
  rw [← Nat.mod_mod_of_dvd bits hdvd, h, Nat.mod_mod_of_dvd bits' hdvd]

theorem drainSextets_left (bits bitCount : ℕ) : (drainSextets bits bitCount).2 = bitCount % 6 := by
  obtain ⟨sextets, -, -, hlen, hlt, -⟩ := drainSextets_spec bits bitCount
  omega

/-- Only the bits still to be written are written. -/
theorem drainSextets_congr (h : bits % 2 ^ bitCount = bits' % 2 ^ bitCount) :
    drainSextets bits bitCount = drainSextets bits' bitCount := by
  induction bitCount using Nat.strong_induction_on with
  | _ bitCount ih =>
    rw [drainSextets.eq_def bits bitCount, drainSextets.eq_def bits' bitCount]
    split_ifs with hcount
    · obtain ⟨k, rfl⟩ : ∃ k, bitCount = k + 6 := ⟨bitCount - 6, by omega⟩
      rw [Nat.add_sub_cancel, ih k (by omega) (low_congr h), and_63, and_63, shiftRight_congr h]
    · rfl

theorem encodeFrom_congr (data : List UInt8) (hcount : bitCount < 6) (h : bits % 2 ^ bitCount = bits' % 2 ^ bitCount) :
    encodeFrom bits bitCount data = unboundedEncodeFrom bits' bitCount data := by
  induction data generalizing bits bits' bitCount with
  | nil =>
    have hlast : bits' <<< (6 - bitCount) &&& 0x3F = (bits' % 2 ^ bitCount) * 2 ^ (6 - bitCount) := by
      have hpow : (2 : ℕ) ^ 6 = 2 ^ bitCount * 2 ^ (6 - bitCount) := by
        rw [← Nat.pow_add]
        congr 1
        omega
      rw [and_63, Nat.shiftLeft_eq, hpow, Nat.mul_mod_mul_right]
    rw [encodeFrom, unboundedEncodeFrom, last_sextet bits hcount, hlast, h]
  | cons byte rest ih =>
    have hpush := push_congr byte.toNat_lt (by omega : bitCount + 8 ≤ 32) h
    rw [encodeFrom, unboundedEncodeFrom]
    dsimp only
    have hleft := drainSextets_left (pushBits 32 8 bits byte.toNat) (bitCount + 8)
    have hrest : pushBits 32 8 bits byte.toNat % 2 ^ ((bitCount + 8) % 6) =
        pushAllBits 8 bits' byte.toNat % 2 ^ ((bitCount + 8) % 6) := by
      have hsplit : (bitCount + 8) % 6 + ((bitCount + 8) - (bitCount + 8) % 6) = bitCount + 8 := by omega
      exact low_congr (w := (bitCount + 8) - (bitCount + 8) % 6) (by rw [hsplit]; exact hpush)
    rw [← drainSextets_congr hpush, hleft, ih (Nat.mod_lt _ (by decide)) hrest]

theorem decodeFrom_congr (chars : List Char) (result : List UInt8) (hcount : bitCount < 8)
    (h : bits % 2 ^ bitCount = bits' % 2 ^ bitCount) :
    decodeFrom bits bitCount result chars = unboundedDecodeFrom bits' bitCount result chars := by
  induction chars generalizing bits bits' bitCount result with
  | nil => rw [decodeFrom, unboundedDecodeFrom, and_low, and_low, h]
  | cons c rest ih =>
    rw [decodeFrom, unboundedDecodeFrom]
    cases hvalue : charToValue c with
    | none => rfl
    | some value =>
      have hpush := push_congr (charToValue_some hvalue).2.1 (by omega : bitCount + 6 ≤ 32) h
      rw [Option.bind_some, Option.bind_some]
      dsimp only
      split_ifs with hbyte
      · obtain ⟨k, hk⟩ : ∃ k, bitCount + 6 = k + 8 := ⟨bitCount + 6 - 8, by omega⟩
        rw [hk] at hpush ⊢
        have hoff : UInt8.ofNat (pushBits 32 6 bits value >>> k) = UInt8.ofNat (pushAllBits 6 bits' value >>> k) := by
          apply UInt8.toNat.inj
          rw [UInt8.toNat_ofNat', UInt8.toNat_ofNat']
          exact shiftRight_congr hpush
        rw [Nat.add_sub_cancel, hoff]
        exact ih _ (by omega) (low_congr hpush)
      · exact ih _ (by omega) hpush

end Congr

/-- base64url is one to one, decodes nothing but what it writes, and needs no more than 32 bits. -/
theorem base64Url_bijective :
    (∀ data, base64UrlDecode (base64UrlEncode data) = some data) ∧
      (∀ encoded data, base64UrlDecode encoded = some data → base64UrlEncode data = encoded) ∧
      (∀ data, base64UrlEncode data = unboundedEncode data) ∧
      ∀ encoded, base64UrlDecode encoded = unboundedDecode encoded := by
  refine ⟨base64UrlDecode_encode, fun encoded data h => (base64UrlEncode_of_decode h).symm, fun data => ?_,
    fun encoded => ?_⟩
  · exact encodeFrom_congr data (by decide) rfl
  · rw [base64UrlDecode, unboundedDecode, decodeFrom_congr encoded [] (by decide) rfl]

end TideOrm
