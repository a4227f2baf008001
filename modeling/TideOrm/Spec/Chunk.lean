import TideOrm.Spec.CacheStore
import TideOrm.Spec.Error

/-! `QueryBuilder::chunk` (`query/sql/execution.rs`): reading a query's rows in
batches with a cursor on the primary key. The database is its answer to the
query without limit, the rows in the cursor's order; a batch query filters them
by the cursor and cuts them at its limit. -/

namespace TideOrm

inductive Order where
  | asc
  | desc
deriving DecidableEq

def Order.asStr : Order → String
  | .asc => "ASC"
  | .desc => "DESC"

/-- What `chunk()` reads of a query and its model before it starts. -/
structure ChunkQuery where
  /-- the answer of `ensure_query_is_executable` -/
  executable : Except Error Unit
  tableName : String
  primaryKeyNames : List String
  /-- a column reference resolved to the model's own column -/
  ownColumnName : String → Option String
  /-- the projection keeps the original primary key -/
  keyIsOriginal : String → Bool
  hasWindowFunctions : Bool
  hasGroupBy : Bool
  hasHaving : Bool
  hasUnions : Bool
  hasJoins : Bool
  orderBy : List (String × Order)
  limitValue : Option ℕ
  offsetValue : Option ℕ

namespace ChunkQuery

def ensureQueryIsChunkable (q : ChunkQuery) (chunkSize : ℕ) : Except Error Unit :=
  if chunkSize = 0 then
    .error (.query "chunk() requires chunk_size to be greater than 0")
  else if q.hasWindowFunctions then
    .error (.query "chunk() does not support window functions: its cursor changes the window input; use get() or page()")
  else if q.hasGroupBy || q.hasHaving then
    .error (.query "chunk() does not support GROUP BY or HAVING: its primary-key cursor changes group membership; read grouped results with get() or page()")
  else if 0 < q.offsetValue.getD 0 then
    .error (.query "chunk() does not support offset(); use page()/get() for fixed windows or chunk over primary-key order")
  else if q.hasUnions then
    .error (.query "chunk() pages by the model's primary key, which the other branches of a union() do not follow; read a union with get(), or page() it")
  else .ok ()

def chunkPrimaryKeyColumn (q : ChunkQuery) : Except Error String :=
  match q.primaryKeyNames with
  | [primaryKey] => .ok primaryKey
  | names =>
    let table := q.tableName
    let count := names.length
    .error (.query s!"chunk() only supports models with a single-column primary key; model '{table}' uses {count} key columns")

def ensureChunkKeyIsOriginal (q : ChunkQuery) (primaryKey : String) : Except Error Unit :=
  if q.keyIsOriginal primaryKey then .ok ()
  else
    let table := q.tableName
    .error (.query s!"chunk() requires the original primary key '{table}.{primaryKey}' in its projection; use get() for a projection that replaces it")

/-- The direction `chunk()` pages in. -/
def chunkOrder (q : ChunkQuery) (primaryKey : String) : Except Error Order :=
  let refused :=
    let table := q.tableName
    .error (.query s!"chunk() only supports explicit ordering by the single primary key '{primaryKey}' for model '{table}'")
  match q.orderBy with
  | [] => .ok .asc
  | [(column, direction)] => if q.ownColumnName column = some primaryKey then .ok direction else refused
  | _ => refused

/-- Every check made before the first batch, in order. -/
def prepare (q : ChunkQuery) (chunkSize : ℕ) : Except Error Order := do
  q.executable
  q.ensureQueryIsChunkable chunkSize
  let primaryKey ← q.chunkPrimaryKeyColumn
  q.ensureChunkKeyIsOriginal primaryKey
  q.chunkOrder primaryKey

end ChunkQuery

section

variable {Row K : Type} [LinearOrder K]

/-- The batch query's cursor condition: rows after the key, or from it on. -/
def passesCursor (order : Order) (cursor : Option (K × Bool)) (key : K) : Bool :=
  match cursor with
  | none => true
  | some (at_, inclusive) =>
    match order, inclusive with
    | .asc, false => decide (at_ < key)
    | .asc, true => decide (at_ ≤ key)
    | .desc, false => decide (key < at_)
    | .desc, true => decide (key ≤ at_)

/-- One call of `chunk()`: the rows it reads and its arguments. The callback may
depend on the batches it was handed before. -/
structure ChunkCall (Row K : Type) where
  rows : List Row
  key : Row → K
  displayKey : K → String
  order : Order
  joinsRepeatKeys : Bool
  chunkSize : ℕ
  callback : List (List Row) → List Row → Except Error Unit

namespace ChunkCall

def fetch (c : ChunkCall Row K) (cursor : Option (K × Bool)) (limit : ℕ) : List Row :=
  (c.rows.filter fun row => passesCursor c.order cursor (c.key row)).take limit

def fetchRun (c : ChunkCall Row K) (key : K) (limit : ℕ) : List Row :=
  (c.rows.filter fun row => decide (c.key row = key)).take limit

/-- A full batch that may end inside a run of one key gives that run back, to
start the next batch; a batch that is one run reads the whole of it. Returns the
batch and whether the next one starts at its last key. -/
def settleLastRun (c : ChunkCall Row K) (batch : List Row) (lastKey : K) (batchLimit : ℕ)
    (moreMayFollow : Bool) : Except Error (List Row × Bool) :=
  if c.joinsRepeatKeys && decide (batch.length = batchLimit) && moreMayFollow then
    let tail := (batch.reverse.takeWhile fun row => decide (c.key row = lastKey)).length
    if tail = batch.length then
      let run := c.fetchRun lastKey (saturatingAdd c.chunkSize 1)
      if c.chunkSize < run.length then
        let size := c.chunkSize
        let shown := c.displayKey lastKey
        .error (.query s!"chunk({size}) found more rows with the key {shown} than a batch holds: the join repeats it, so pass a larger chunk size")
      else .ok (run, false)
    else .ok (batch.take (batch.length - tail), true)
  else .ok (batch, false)

/-- The batch loop, with the batches handed out so far; none when the fuel runs
out before the loop ends. -/
def loop (c : ChunkCall Row K) :
    ℕ → List (List Row) → Option ℕ → Option (K × Bool) → Option (List (List Row) × Except Error Unit)
  | 0, _, _, _ => none
  | fuel + 1, delivered, remaining, cursor =>
    let batchLimit := remaining.elim c.chunkSize fun limit => min limit c.chunkSize
    if batchLimit = 0 then some (delivered, .ok ())
    else
      let batch := c.fetch cursor batchLimit
      match batch.getLast? with
      | none => some (delivered, .ok ())
      | some last =>
        let lastKey := c.key last
        let moreMayFollow := remaining.all fun limit => decide (batchLimit < limit)
        match c.settleLastRun batch lastKey batchLimit moreMayFollow with
        | .error e => some (delivered, .error e)
        | .ok (settled, startsAtLastKey) =>
          match c.callback delivered settled with
          | .error e => some (delivered ++ [settled], .error e)
          | .ok () =>
            let remaining := remaining.map fun limit => limit - settled.length
            if remaining = some 0 ∨ batch.length < batchLimit then some (delivered ++ [settled], .ok ())
            else c.loop fuel (delivered ++ [settled]) remaining (some (lastKey, startsAtLastKey))

end ChunkCall

/-- `chunk()` on a query whose rows, in each direction, are `rows`. -/
def ChunkQuery.chunk (q : ChunkQuery) (rows : Order → List Row) (key : Row → K)
    (displayKey : K → String) (chunkSize : ℕ)
    (callback : List (List Row) → List Row → Except Error Unit) (fuel : ℕ) :
    Option (List (List Row) × Except Error Unit) :=
  match q.prepare chunkSize with
  | .error e => some ([], .error e)
  | .ok order =>
    ChunkCall.loop ⟨rows order, key, displayKey, order, q.hasJoins, chunkSize, callback⟩
      fuel [] q.limitValue none

end

end TideOrm
