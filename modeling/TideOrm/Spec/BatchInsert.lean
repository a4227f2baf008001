import TideOrm.Lib.Cutter
import TideOrm.Lib.HashMap
import TideOrm.Lib.Utf8
import TideOrm.Spec.Error
import TideOrm.Spec.Placeholders

/-! `insert_all` (`internal/batch_insert.rs`): a batch written in statements of several rows, and the
rows read back put in the batch's order. A statement is its answer, which may be any. -/

namespace TideOrm.BatchInsert

open Lib

/-- A bind value; of a JSON one, the text it prints as. -/
inductive Value where
  | tinyInt (n : Option ℤ)
  | smallInt (n : Option ℤ)
  | int (n : Option ℤ)
  | bigInt (n : Option ℤ)
  | tinyUnsigned (n : Option ℕ)
  | smallUnsigned (n : Option ℕ)
  | unsigned (n : Option ℕ)
  | bigUnsigned (n : Option ℕ)
  | uuid (bits : Option (BitVec 128))
  | string (text : Option (List Char))
  | bytes (bytes : Option (List UInt8))
  | json (text : Option (List Char))
  -- floats, decimals, booleans, dates and times
  | other (text : List Char)
deriving DecidableEq

inductive Backend where
  | postgres
  | mySql
  | sqlite
deriving DecidableEq

def mysqlMaxStatementBytes : ℕ := 1 <<< 20

/-- The key a model sets itself: its column values, and their text. -/
structure ClientKey where
  text : List Char
  values : List Value
deriving DecidableEq

/-- The generated code of a model, and how its columns' values are printed for debugging. -/
structure BatchModel (Column Row Model : Type) where
  columns : List Column
  primaryKeyColumns : List Column
  get : Row → Column → Value
  -- an encrypted column's value that cannot be decrypted is an error
  tryFromEntityModel : Row → Except Error Model
  -- `primary_key()` as a JSON number
  primaryKeyInteger : Model → Option ℤ
  debug : List Value → List Char

/-- An active model: the columns that are set. -/
abbrev Active (Column : Type) := Column → Option Value

/-- What the database answers: to each statement, by the number of rows before it. -/
structure Answers (Column Row : Type) where
  insertReturning : ℕ → List (Active Column) → Except Error (List Row)
  insert : ℕ → List (Active Column) → Except Error Unit
  select : ℕ → List ClientKey → Except Error (List Row)
  insertOne : ℕ → Active Column → Except Error Row

/-- How rows returned by a multi-row insert are put in input order. -/
inductive Order where
  | asReturned
  | byIncreasingKey
  | byClientKey (keys : List ClientKey)

inductive Strategy where
  | returning (order : Order)
  | insertThenSelect (keys : List ClientKey)
  | perRow

variable {Column Row Model : Type} (M : BatchModel Column Row Model)

section Keys

def returnsExactly (value : Value) (backend : Backend) : Bool :=
  match value with
  | .tinyInt (some _) | .smallInt (some _) | .int (some _) | .bigInt (some _) => true
  | .tinyUnsigned (some _) | .smallUnsigned (some _) | .unsigned (some _) | .bigUnsigned (some _) => true
  | .uuid (some _) => true
  | .string (some _) => backend = .sqlite
  | _ => false

/-- The values that an active model's key columns are set to. -/
def activeKey (active : Active Column) : Option (List Value) := M.primaryKeyColumns.mapM active

def clientKey (backend : Backend) (active : Active Column) : Option ClientKey := do
  let values ← activeKey M active
  if values.all (returnsExactly · backend) then some ⟨M.debug values, values⟩ else none

/-- The key each model sets itself; none where two models share one. -/
def clientKeys (models : List (Active Column)) (backend : Backend) : Option (List ClientKey) := do
  let keys ← models.mapM (clientKey M backend)
  if (keys.map ClientKey.text).Nodup then some keys else none

def rowKey (row : Row) : List Value := M.primaryKeyColumns.map (M.get row)

def storedKey (row : Row) : List Char := M.debug (rowKey M row)

/-- Each row is put where its key stands, which is then taken. -/
def placeRows : List Row → HashMap (List Char) ℕ → List (Option Row) → Except Error (List (Option Row))
  | [], _, ordered => .ok ordered
  | row :: rows, positions, ordered =>
    let key := storedKey M row
    match positions.lookup key with
    | none =>
      let key := String.ofList key
      .error (.query s!"insert_all read back a row under a key it did not insert: {key}")
    | some position => placeRows rows (positions.erase key) (ordered.set position (some row))

def keyPositions (keys : List ClientKey) : HashMap (List Char) ℕ :=
  keys.zipIdx.foldl (fun positions (key, position) => positions.insert key.text position) ∅

def orderByKeys (rows : List Row) (keys : List ClientKey) : Except Error (List Row) := do
  let ordered ← placeRows M rows (keyPositions keys) (List.replicate keys.length none)
  match ordered.mapM id with
  | some ordered => .ok ordered
  | none => .error (.query "insert_all could not read back every row it inserted")

end Keys

section Chunks

def valueBytes : Value → ℕ
  | .string (some text) => (utf8Bytes text).length
  | .bytes (some bytes) => bytes.length
  | .json (some text) => (utf8Bytes text).length
  | _ => 8

def rowBytes (active : Active Column) : ℕ := ((M.columns.filterMap active).map valueBytes).sum

/-- `mysql_chunk`'s loop: the rows taken, how many bytes they have, and the rows that remain. -/
def mysqlChunkFrom (maxRows : ℕ) (chunk : List (Active Column)) (bytes : ℕ) :
    List (Active Column) → List (Active Column) × List (Active Column)
  | [] => (chunk, [])
  | next :: remaining =>
    if chunk.length < maxRows then
      let size := rowBytes M next
      if !chunk.isEmpty && bytes + size > mysqlMaxStatementBytes then (chunk, next :: remaining)
      else mysqlChunkFrom maxRows (chunk ++ [next]) (bytes + size) remaining
    else (chunk, next :: remaining)

theorem mysqlChunkFrom_append (maxRows : ℕ) (remaining : List (Active Column)) : ∀ (chunk : List (Active Column)) (bytes : ℕ),
    (mysqlChunkFrom M maxRows chunk bytes remaining).1 ++ (mysqlChunkFrom M maxRows chunk bytes remaining).2 = chunk ++ remaining := by
  induction remaining with
  | nil => exact fun chunk bytes => rfl
  | cons next remaining ih =>
    intro chunk bytes
    simp only [mysqlChunkFrom]
    split_ifs
    · rfl
    · rw [ih, List.append_assoc, List.singleton_append]
    · rfl

def mysqlChunk (maxRows : ℕ) : Cutter (Active Column) where
  cut := mysqlChunkFrom M maxRows [] 0
  cut_append remaining := mysqlChunkFrom_append M maxRows remaining [] 0

/-- `take(rows_per_statement)` -/
def fixedChunk (rowsPerStatement : ℕ) : Cutter (Active Column) where
  cut remaining := (remaining.take rowsPerStatement, remaining.drop rowsPerStatement)
  cut_append := List.take_append_drop rowsPerStatement

end Chunks

section Insert

variable (answers : Answers Column Row)

/-- `None` before any number, as the key that is sorted by. -/
def keyLe : Option ℤ → Option ℤ → Bool
  | none, _ => true
  | some _, none => false
  | some a, some b => a ≤ b

/-- The keys of the rows that follow `offset` others. -/
def keySlice (keys : List ClientKey) (offset count : ℕ) : List ClientKey := (keys.drop offset).take count

def insertReturning (order : Order) (offset : ℕ) (models : List (Active Column)) : Except Error (List Model) := do
  let rows ← answers.insertReturning offset models
  if rows.length ≠ models.length then
    let count := models.length
    let returned := rows.length
    .error (.query s!"insert_all sent {count} rows and the database returned {returned}")
  else
    match order with
    | .asReturned => rows.mapM M.tryFromEntityModel
    | .byClientKey keys => do
      let rows ← orderByKeys M rows (keySlice keys offset models.length)
      rows.mapM M.tryFromEntityModel
    | .byIncreasingKey => do
      let stored ← rows.mapM M.tryFromEntityModel
      .ok (stored.mergeSort fun a b => keyLe (M.primaryKeyInteger a) (M.primaryKeyInteger b))

def insertThenSelect (keys : List ClientKey) (offset : ℕ) (models : List (Active Column)) : Except Error (List Model) := do
  let chunkKeys := keySlice keys offset models.length
  answers.insert offset models
  let rows ← answers.select offset chunkKeys
  let rows ← orderByKeys M rows chunkKeys
  rows.mapM M.tryFromEntityModel

def insertIndividually (models : List (Active Column)) : Except Error (List Model) :=
  models.zipIdx.mapM fun (active, offset) => do
    let row ← answers.insertOne offset active
    M.tryFromEntityModel row

def insertByStrategy (strategy : Strategy) (models : List (Active Column)) (rowsPerStatement : ℕ) : Except Error (List Model) :=
  match strategy with
  | .returning order => (fixedChunk rowsPerStatement).run (insertReturning M answers order) [] models
  | .insertThenSelect keys => (mysqlChunk M rowsPerStatement).run (insertThenSelect M answers keys) [] models
  | .perRow => insertIndividually M answers models

end Insert

end TideOrm.BatchInsert
