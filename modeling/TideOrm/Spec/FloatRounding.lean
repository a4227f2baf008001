import TideOrm.Lib.BinaryFormat
import Mathlib.Data.Rat.Floor

/-! The query that rounds a SQLite REAL to single precision (`model/batch/sql_execution.rs`),
evaluated exactly; `none` is `NULL`. -/

namespace TideOrm

open Lib

/-- The step's `WHEN`; no step past the last is looked up. -/
def f32Factor (step : ℕ) : ℚ := 2 ^ (128 >>> step)

def f32Minimum : ℚ := 2 ^ (-149 : ℤ)

structure SpacingRow where
  step : ℕ
  quantum : ℚ

/-- The rows that `spacing` is given for a row; a comparison with `NULL` is not true. -/
def nextSpacing (value : Option ℚ) (row : SpacingRow) : List SpacingRow :=
  if row.step < 8 then
    [⟨row.step + 1,
      if value.any fun value => decide (|value| ≥ row.quantum * f32Factor row.step * 8388608) then
        row.quantum * f32Factor row.step
      else row.quantum⟩]
  else []

/-- A recursive query: the rows in hand, then those that each of them gives. `rounds` bounds how
often new rows are added. -/
def recursiveRows {Row : Type} (next : Row → List Row) : ℕ → List Row → List Row
  | 0, rows => rows
  | rounds + 1, rows => rows ++ if rows.isEmpty then [] else recursiveRows next rounds (rows.flatMap next)

/-- `spacing`, which gives no row after its ninth. -/
def spacingRows (value : Option ℚ) : List SpacingRow := recursiveRows (nextSpacing value) 9 [⟨0, f32Minimum⟩]

/-- The result of a row of `parts`. -/
def f32Part (value quantum units : ℚ) : ℚ :=
  let whole := ⌊units⌋
  (if value < 0 then -1 else 1) * quantum *
    (whole + if units - whole > 0.5 ∨ units - whole = 0.5 ∧ whole % 2 = 1 then 1 else 0)

/-- `sqlite_f32_round`: the first row of the outer query. -/
def sqliteF32RoundValue (value : Option ℚ) : Option ℚ :=
  let scaled := (spacingRows value).filter fun row => row.step == 8
  let results := scaled.map fun row => value.map fun value => f32Part value row.quantum (|value| / row.quantum)
  results.head?.join

/-- IEEE 754 binary32. -/
def binary32 : BinaryFormat := ⟨24, -149, 104⟩

/-- The largest finite binary32 value. -/
def f32Max : ℚ := (2 ^ 24 - 1) * 2 ^ (104 : ℤ)

end TideOrm
