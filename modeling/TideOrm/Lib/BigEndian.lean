import TideOrm.Lib.Radix

/-! Integers as big-endian bytes, signed ones in two's complement. -/

namespace Lib

def bigEndian (bytes : List UInt8) : ℕ := radixValue 256 (bytes.map UInt8.toNat)

/-- The signed integer in all of `bytes`. -/
def signedBigEndian (bytes : List UInt8) : ℤ := Int.bmod (bigEndian bytes) (256 ^ bytes.length)

/-- The lowest `count` bytes of a number. -/
def beBytes : ℕ → ℕ → List UInt8
  | 0, _ => []
  | count + 1, n => beBytes count (n / 256) ++ [UInt8.ofNat n]

def signedBeBytes (count : ℕ) (n : ℤ) : List UInt8 := beBytes count (n % 256 ^ count).toNat

theorem bigEndian_append (high low : List UInt8) :
    bigEndian (high ++ low) = bigEndian high * 256 ^ low.length + bigEndian low := by
  rw [bigEndian, List.map_append, radixValue_append, List.length_map, bigEndian, bigEndian]

@[simp] theorem length_beBytes (count n : ℕ) : (beBytes count n).length = count := by
  induction count generalizing n with
  | zero => rfl
  | succ count ih => rw [beBytes, List.length_append, ih, List.length_singleton]

@[simp] theorem length_signedBeBytes (count : ℕ) (n : ℤ) : (signedBeBytes count n).length = count :=
  length_beBytes count _

theorem bigEndian_beBytes (count n : ℕ) : bigEndian (beBytes count n) = n % 256 ^ count := by
  induction count generalizing n with
  | zero => simp [beBytes, bigEndian, Nat.mod_one]
  | succ count ih =>
    have hlow : bigEndian [UInt8.ofNat n] = n % 256 := by
      rw [bigEndian, List.map_singleton, radixValue_singleton, UInt8.toNat_ofNat']
    rw [beBytes, bigEndian_append, ih, hlow, List.length_singleton, Nat.pow_one, Nat.pow_succ, Nat.mul_comm (256 ^ count),
      Nat.mod_mul]
    ring

theorem bigEndian_beBytes_of_lt {count n : ℕ} (h : n < 256 ^ count) : bigEndian (beBytes count n) = n := by
  rw [bigEndian_beBytes, Nat.mod_eq_of_lt h]

/-- A signed integer is read back from the bytes it fits in. -/
theorem signedBigEndian_signedBeBytes {count : ℕ} {n : ℤ} (hlow : -(256 ^ count) ≤ n * 2) (hhigh : n * 2 < 256 ^ count) :
    signedBigEndian (signedBeBytes count n) = n := by
  have hpos : (0 : ℤ) < 256 ^ count := by positivity
  have hcast : ((256 ^ count : ℕ) : ℤ) = 256 ^ count := by push_cast; rfl
  have hnonneg := Int.emod_nonneg n hpos.ne'
  have hlt : (n % 256 ^ count).toNat < 256 ^ count := by
    have hemod := Int.emod_lt_of_pos n hpos
    omega
  rw [signedBigEndian, length_signedBeBytes, signedBeBytes, bigEndian_beBytes_of_lt hlt, Int.toNat_of_nonneg hnonneg,
    ← hcast, Int.emod_bmod]
  apply Int.bmod_eq_of_le_mul_two
  · rw [hcast]
    exact hlow
  · rw [hcast]
    exact hhigh

end Lib
