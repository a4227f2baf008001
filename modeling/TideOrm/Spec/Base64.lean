import TideOrm.Spec.TableTags
import TideOrm.Lib.Radix

/-! Base64 for URLs without padding (`tokenization.rs`). -/

namespace TideOrm

open Lib

def ALPHABET : List Char := "ABCDEFGHIJKLMNOPQRSTUVWXYZabcdefghijklmnopqrstuvwxyz0123456789-_".toList

def alphabetChar (sextet : ℕ) : Char := ALPHABET.getD sextet 'A'

/-- The characters written while six bits are left of `bitCount`, and how many are left then. -/
def drainSextets (bits bitCount : ℕ) : List Char × ℕ :=
  if 6 ≤ bitCount then
    let (chars, left) := drainSextets bits (bitCount - 6)
    (alphabetChar ((bits >>> (bitCount - 6)) &&& 0x3F) :: chars, left)
  else ([], bitCount)
termination_by bitCount

/-- The bits of a `u32` not written yet are the lowest `bitCount` of `bits`. -/
def encodeFrom (bits bitCount : ℕ) : List UInt8 → List Char
  | [] => if 0 < bitCount then [alphabetChar ((bits <<< (6 - bitCount)) % 2 ^ 32 &&& 0x3F)] else []
  | byte :: rest =>
    let bits := pushBits 32 8 bits byte.toNat
    let (chars, bitCount) := drainSextets bits (bitCount + 8)
    chars ++ encodeFrom bits bitCount rest

def base64UrlEncode (data : List UInt8) : List Char := encodeFrom 0 0 data

def charToValue (c : Char) : Option ℕ :=
  let n := c.toNat
  if 65 ≤ n ∧ n ≤ 90 then some (n - 65)
  else if 97 ≤ n ∧ n ≤ 122 then some (n - 97 + 26)
  else if 48 ≤ n ∧ n ≤ 57 then some (n - 48 + 52)
  else if c = '-' then some 62
  else if c = '_' then some 63
  else none

/-- The bytes the characters add to `result`; bits left over at the end have to be zero. -/
def decodeFrom (bits bitCount : ℕ) (result : List UInt8) : List Char → Option (List UInt8)
  | [] => if 0 < bitCount ∧ bits &&& ((1 <<< bitCount) - 1) ≠ 0 then none else some result
  | c :: rest =>
    (charToValue c).bind fun value =>
      let bits := pushBits 32 6 bits value
      let bitCount := bitCount + 6
      if 8 ≤ bitCount then
        decodeFrom bits (bitCount - 8) (result ++ [UInt8.ofNat (bits >>> (bitCount - 8))]) rest
      else decodeFrom bits bitCount result rest

/-- Only canonical unpadded base64url is accepted. -/
def base64UrlDecode (encoded : List Char) : Option (List UInt8) :=
  -- six leftover bits encode no byte at all
  if utf8Len encoded % 4 = 1 then none else decodeFrom 0 0 [] encoded

end TideOrm
