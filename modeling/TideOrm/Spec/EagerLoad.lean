import TideOrm.Lib.Grouping
import TideOrm.Spec.Error
import Mathlib.Data.List.DropRight
import Mathlib.Data.List.Dedup

/-! How an eager load matches related rows with the keys of their parents, and the filter of
the lazy relation (`relations/eager.rs`, `relations/helpers.rs`). -/

namespace TideOrm

open Lib

/-- The characters of a JSON number. -/
def numberChars : List Char := ['0', '1', '2', '3', '4', '5', '6', '7', '8', '9', '-', '+', '.', 'e']

/-- A scalar as JSON; a number is the text it prints as. -/
inductive KeyValue where
  | null
  | bool (b : Bool)
  | number (text : { text : String // ∀ c ∈ text.toList, c ∈ numberChars })
  | string (text : String)
deriving DecidableEq

/-- A JSON value as text: a string's contents, anything else as JSON. -/
def jsonText : KeyValue → String
  | .null => "null"
  | .bool b => if b then "true" else "false"
  | .number text => text
  | .string text => text

def sameType : KeyValue → KeyValue → Bool
  | .null, _ => true
  | _, .null => true
  | .bool _, .bool _ => true
  | .number _, .number _ => true
  | .string _, .string _ => true
  | _, _ => false

/-- All keys have one type; any of them may be null. -/
def OneType (keys : List KeyValue) : Prop := ∀ a ∈ keys, ∀ b ∈ keys, sameType a b = true

def relationKey (key : KeyValue) : String := jsonText key

/-- The table of the related model. -/
structure RelatedTable (Row : Type) where
  name : String
  /-- in the order in which a query returns them -/
  rows : List Row
  /-- what the model's own scope leaves in -/
  inScope : Row → Bool
  column : String → Row → KeyValue
  /-- whether the database compares a value of the column equal to a key -/
  equal : String → KeyValue → KeyValue → Bool

namespace RelatedTable

variable {Row : Type} (t : RelatedTable Row)

def query : List Row := t.rows.filter t.inScope

/-- A null is read as `IS NULL`. -/
def holds (column : String) (key : KeyValue) (row : Row) : Bool :=
  match key, t.column column row with
  | .null, stored => stored == .null
  | _, .null => false
  | key, stored => t.equal column stored key

def whereEq (column : String) (key : KeyValue) (rows : List Row) : List Row := rows.filter (t.holds column key)

def whereIn (column : String) (keys : List KeyValue) (rows : List Row) : List Row :=
  rows.filter fun row => keys.any fun key => key != .null && t.holds column key row

/-- The rows whose column holds the key; a NULL key relates to no row. -/
def whereKey (column : String) (key : KeyValue) (rows : List Row) : List Row :=
  if key = .null then t.whereIn column [] rows else t.whereEq column key rows

/-- A polymorphic relation's type discriminator. -/
def ofType (morphType : Option (String × String)) (rows : List Row) : List Row :=
  match morphType with
  | none => rows
  | some (typeColumn, typeValue) => t.whereEq typeColumn (.string typeValue) rows

/-- The rows of the lazy relation of one parent. -/
def lazyRows (foreignKey : String) (morphType : Option (String × String)) (key : KeyValue) : List Row :=
  t.whereKey foreignKey key (t.ofType morphType t.query)

end RelatedTable

/-- Every byte is from a space to `~`. -/
def isPrintableAscii (text : String) : Bool := text.toList.all fun c => 32 ≤ c.toNat && c.toNat ≤ 126

/-- `trim_end_matches(' ')` and `to_ascii_lowercase`. -/
def foldedText (text : String) : List Char := (text.toList.rdropWhile (· == ' ')).map Char.toLower

/-- What is known of how a database compares values: how it compares numbers, say, is left
open. -/
structure DatabaseEquality (equal : KeyValue → KeyValue → Bool) : Prop where
  refl : ∀ a, equal a a = true
  symm : ∀ a b, equal a b = true → equal b a = true
  trans : ∀ a b c, equal a b = true → equal b c = true → equal a c = true
  ascii : ∀ a b, isPrintableAscii a = true → isPrintableAscii b = true →
    equal (.string a) (.string b) = true → foldedText a = foldedText b

/-- Whether a text is inserted twice. -/
def anyRepeated {α : Type} [DecidableEq α] (seen : List α) : List α → Bool
  | [] => false
  | a :: rest => a ∈ seen || anyRepeated (a :: seen) rest

/-- Whether the database could match two of the keys to the same stored key. -/
def foldTogether (keys : List KeyValue) : Bool :=
  let texts := keys.filterMap fun
    | .string text => some text
    | _ => none
  if texts.length < 2 then false
  else if texts.any fun text => !isPrintableAscii text then true
  else anyRepeated [] (texts.map foldedText)

def pairedKeysPerQuery : ℕ := 200

section EagerLoad

variable {Row : Type} (t : RelatedTable Row) (foreignKey : String) (morphType : Option (String × String))

/-- One member of a pairing query: the stored keys equal to a key, each once, with the key's
index. -/
def pairLookup (indexed : KeyValue × ℕ) : List (KeyValue × ℕ) :=
  ((t.ofType morphType (t.whereEq foreignKey indexed.1 t.query)).map (t.column foreignKey)).dedup.map (·, indexed.2)

abbrev Pairs := HashMap String (List String) × List (String × String)

def addPair (keys : List KeyValue) (pairs : Pairs) (row : KeyValue × ℕ) : Except Error Pairs :=
  match keys[row.2]? with
  | none => .error (.query ("an eager load of " ++ t.name ++ " paired a key it did not look up"))
  | some index =>
    let stored := relationKey row.1
    let key := relationKey index
    if (stored, key) ∈ pairs.2 then .ok pairs else .ok (pairs.1.push stored key, (stored, key) :: pairs.2)

/-- Which of the keys each stored foreign key matches, as the database compares them. -/
def matchingKeys (keys : List KeyValue) : Except Error (HashMap String (List String)) := do
  let pairs ← (chunks pairedKeysPerQuery keys).zipIdx.foldlM (fun (pairs : Pairs) (chunk, batch) =>
    ((chunk.zipIdx (batch * pairedKeysPerQuery)).flatMap (pairLookup t foreignKey morphType)).foldlM
      (addPair t keys) pairs) (∅, [])
  return pairs.1

/-- Each key that is not null once, by its text. -/
def lookupKeys (seen : List String) : List KeyValue → List KeyValue
  | [] => []
  | key :: rest =>
    if key = .null then lookupKeys seen rest
    else if relationKey key ∈ seen then lookupKeys seen rest
    else key :: lookupKeys (relationKey key :: seen) rest

/-- The rows of one query's keys join their groups. -/
def loadChunk (grouped : HashMap String (List Row)) (chunk : List KeyValue) : Except Error (HashMap String (List Row)) :=
  let rows := t.ofType morphType (t.whereIn foreignKey chunk t.query)
  let requested := chunk.map relationKey
  let keyed := rows.map fun row => (relationKey (t.column foreignKey row), row)
  if keyed.all (fun (key, _) => key ∈ requested) && !foldTogether chunk then
    .ok (keyed.foldl (fun grouped (key, row) => grouped.push key row) grouped)
  else do
    let pairs ← matchingKeys t foreignKey morphType chunk
    return keyed.foldl (fun grouped (key, row) =>
      match pairs.lookup key with
      | some matched => matched.foldl (fun grouped key => grouped.push key row) grouped
      -- a key the pairing read back in another form
      | none => if key ∈ requested then grouped.push key row else grouped) grouped

/-- Every row whose foreign key is one of the keys, grouped by that key. -/
def loadGroupedByKey (keys : List KeyValue) : Except Error (HashMap String (List Row)) :=
  (chunks 5000 (lookupKeys [] keys)).foldlM (loadChunk t foreignKey morphType) ∅

/-- A value moves out at its key's last occurrence. -/
def takePerKey {V : Type} (last : HashMap String ℕ) (byKey : HashMap String V) : List (String × ℕ) → List (Option V)
  | [] => []
  | (key, position) :: rest =>
    byKey.lookup key ::
      takePerKey last (if last.lookup key = some position then byKey.erase key else byKey) rest

def perParentKey {V : Type} (parentKeys : List KeyValue) (byKey : HashMap String V) : List (Option V) :=
  let keys := parentKeys.map relationKey
  let last := keys.zipIdx.foldl (fun (last : HashMap String ℕ) (key, position) => last.insert key position) ∅
  takePerKey last byKey keys.zipIdx

/-- One group per parent key, in order. -/
def eagerKeyedMany (parentKeys : List KeyValue) : Except Error (List (List Row)) := do
  let byKey ← loadGroupedByKey t foreignKey morphType parentKeys
  return (perParentKey parentKeys byKey).map (·.getD [])

end EagerLoad

end TideOrm
