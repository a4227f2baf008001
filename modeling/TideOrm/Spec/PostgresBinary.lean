import TideOrm.Spec.Filters
import TideOrm.Spec.Placeholders
import TideOrm.Lib.BigEndian
import TideOrm.Lib.Decimal
import Mathlib.Data.List.DropRight

/-! PostgreSQL's binary forms of arrays, intervals and numerics, decoded
(`database/json_rows/postgres_binary.rs`). -/

namespace TideOrm

open Lib

/-- `split_first_chunk`, `split_at_checked` -/
def splitChunk (length : ℕ) (bytes : List UInt8) : Option (List UInt8 × List UInt8) :=
  if length ≤ bytes.length then some (bytes.take length, bytes.drop length) else none

/-- The next big-endian `i32` and what is after it. -/
def takeI32 (bytes : List UInt8) : Option (ℤ × List UInt8) :=
  (splitChunk 4 bytes).map fun (head, tail) => (signedBigEndian head, tail)

/-- The next length-prefixed value and what is after it; `none` inside for a `NULL`. -/
def takeValue (bytes : List UInt8) : Option (Option (List UInt8) × List UInt8) := do
  let (length, tail) ← takeI32 bytes
  if length = -1 then some (none, tail)
  else if length < 0 then none
  else
    let (value, rest) ← splitChunk length.toNat tail
    some (some value, rest)

/-- The lengths of the dimensions, each with a lower bound behind it. -/
def takeLengths : ℕ → List UInt8 → Option (List ℕ × List UInt8)
  | 0, bytes => some ([], bytes)
  | dimensions + 1, bytes => do
    let (length, bytes) ← takeI32 bytes
    if length < 0 then none
    else
      let (_, bytes) ← takeI32 bytes
      let (lengths, rest) ← takeLengths dimensions bytes
      some (length.toNat :: lengths, rest)

def takeElements (element : List UInt8 → Option Json) : ℕ → List UInt8 → Option (List Json × List UInt8)
  | 0, bytes => some ([], bytes)
  | count + 1, bytes => do
    let (value, bytes) ← takeValue bytes
    let value ← match value with
      | some value => element value
      | none => some .null
    let (elements, rest) ← takeElements element count bytes
    some (value :: elements, rest)

/-- `checked_mul` of `usize` values -/
def checkedMul (m n : ℕ) : Option ℕ := if m * n < usizeLimit then some (m * n) else none

/-- How many elements there are. -/
def elementCount (lengths : List ℕ) : Option ℕ := lengths.foldlM checkedMul 1

/-- `count` items one after another. -/
def nestItems (item : List Json → Option (Json × List Json)) : ℕ → List Json → Option (List Json × List Json)
  | 0, elements => some ([], elements)
  | count + 1, elements => do
    let (first, elements) ← item elements
    let (items, elements) ← nestItems item count elements
    some (first :: items, elements)

/-- The elements regrouped, a dimension past the first one level deeper; with what is left. -/
def nest : List ℕ → List Json → Option (Json × List Json)
  | [], elements => match elements with
    | [] => none
    | element :: rest => some (element, rest)
  | length :: inner, elements => (nestItems (nest inner) length elements).map fun (items, rest) => (.array items, rest)

def arrayJson (element : List UInt8 → Option Json) (bytes : List UInt8) : Option Json := do
  let (dimensions, rest) ← takeI32 bytes
  let (_, rest) ← takeI32 rest
  let (_, rest) ← takeI32 rest
  let (lengths, rest) ← takeLengths dimensions.toNat rest
  if lengths.isEmpty then if rest.isEmpty then some (.array []) else none
  else
    let count ← elementCount lengths
    let (elements, rest) ← takeElements element count rest
    if rest.isEmpty then (nest lengths elements).map Prod.fst else none

/-- A fraction of a second without its trailing zeros. -/
def fractionText (micros : ℕ) : List Char :=
  if micros = 0 then [] else '.' :: (zeroPad 6 (decimal micros)).rdropWhile (· == '0')

/-- `write!` of an integer -/
def signedDecimal (n : ℤ) : List Char := if n < 0 then '-' :: decimal n.natAbs else decimal n.natAbs

/-- A part of an interval, left out when there is none of it. -/
def intervalPart (value : ℤ) (unit : Char) : List Char := if value = 0 then [] else signedDecimal value ++ [unit]

/-- The time of an interval. Rust's division truncates and its remainder has the dividend's sign. -/
def intervalTime (micros : ℤ) : List Char :=
  if micros = 0 then []
  else
    let seconds := (micros.tdiv 1000000).tmod 60
    let fraction := micros.tmod 1000000
    let secondsText :=
      if seconds = 0 ∧ fraction = 0 then []
      else
        (if seconds < 0 ∨ fraction < 0 then ['-'] else []) ++ decimal seconds.natAbs ++ fractionText fraction.natAbs ++ ['S']
    'T' :: intervalPart (micros.tdiv 3600000000) 'H' ++ intervalPart ((micros.tdiv 60000000).tmod 60) 'M' ++ secondsText

/-- Microseconds, days, then months, written as ISO 8601 does. -/
def intervalText (bytes : List UInt8) : Option (List Char) := do
  let (head, rest) ← splitChunk 8 bytes
  let micros := signedBigEndian head
  let (days, rest) ← takeI32 rest
  let (months, rest) ← takeI32 rest
  if !rest.isEmpty then none
  else if micros = 2 ^ 63 - 1 ∧ days = 2 ^ 31 - 1 ∧ months = 2 ^ 31 - 1 then some "infinity".toList
  else if micros = -2 ^ 63 ∧ days = -2 ^ 31 ∧ months = -2 ^ 31 then some "-infinity".toList
  else if micros = 0 ∧ days = 0 ∧ months = 0 then some "PT0S".toList
  else
    some ('P' :: intervalPart (months.tdiv 12) 'Y' ++ intervalPart (months.tmod 12) 'M' ++ intervalPart days 'D' ++
      intervalTime micros)

/-- The big-endian `u16` at a place. -/
def wordAt (bytes : List UInt8) (place : ℕ) : Option ℕ := do
  let high ← bytes[place]?
  let low ← bytes[place + 1]?
  some (bigEndian [high, low])

/-- The digit of base-10000 place `weight - group`, zero past the stored ones. -/
def digitOf (digits : List ℕ) (group : ℤ) : ℕ := if group < 0 then 0 else digits[group.toNat]?.getD 0

def groupText (digits : List ℕ) (group : ℤ) : List Char := zeroPad 4 (decimal (digitOf digits group))

/-- The groups written until the fraction has `scale` digits or more. -/
def fractionFrom (digits : List ℕ) (scale : ℕ) (group : ℤ) (fraction : List Char) : List Char :=
  if fraction.length < scale then fractionFrom digits scale (group + 1) (fraction ++ groupText digits group)
  else fraction
termination_by scale - fraction.length
decreasing_by
  have hpos : 0 < (groupText digits group).length := by
    rw [groupText, zeroPad, List.length_append]
    have hdecimal : 0 < (decimal (digitOf digits group)).length := Nat.length_toDigits_pos
    omega
  rw [List.length_append]
  omega

/-- The groups before the point. -/
def wholeText (digits : List ℕ) (weight : ℤ) : List Char :=
  if weight < 0 then ['0']
  else
    decimal (digitOf digits 0) ++ (List.range weight.toNat).flatMap fun group : ℕ => groupText digits ((group : ℤ) + 1)

def numericText (bytes : List UInt8) : Option (List Char) := do
  let ndigits ← wordAt bytes 0
  let weight ← wordAt bytes 2
  let weight := Int.bmod weight (2 ^ 16)
  let sign ← wordAt bytes 4
  let scale ← wordAt bytes 6
  if sign = 0xC000 then some "NaN".toList
  else if sign = 0xD000 then some "Infinity".toList
  else if sign = 0xF000 then some "-Infinity".toList
  else if sign = 0 ∨ sign = 0x4000 then
    let digits ← (List.range ndigits).mapM fun position => wordAt bytes (8 + 2 * position)
    some ((if sign = 0x4000 then ['-'] else []) ++ wholeText digits weight ++
      if 0 < scale then '.' :: (fractionFrom digits scale (weight + 1) []).take scale else [])
  else none

end TideOrm
