import Mathlib.Logic.Relation
import TideOrm.Spec.Filters
import TideOrm.Spec.QueryCache
import TideOrm.Spec.Validation

/-! What a value's JSON loses (`internal/json_loss.rs`), found by one walk over the value, and its
two uses: cache payloads (`cache/query_cache.rs`) and filter values (`query/filters/finite.rs`). -/

namespace TideOrm

open Lib

/-- A value as its `Serialize` presents it. The integer types, and the length hints, are all written alike. -/
inductive SerdeValue where
  | bool (b : Bool)
  | int (n : ℤ)
  | f32 (x : Binary32)
  | f64 (x : Binary64)
  | char (c : Char)
  | str (s : String)
  | bytes (data : List UInt8)
  | none
  | some (value : SerdeValue)
  | unit
  | unitStruct (name : String)
  | unitVariant (name : String) (index : UInt32) (variant : String)
  | newtypeStruct (name : String) (value : SerdeValue)
  | newtypeVariant (name : String) (index : UInt32) (variant : String) (value : SerdeValue)
  | seq (items : List SerdeValue)
  | tuple (items : List SerdeValue)
  | tupleStruct (name : String) (items : List SerdeValue)
  | tupleVariant (name : String) (index : UInt32) (variant : String) (items : List SerdeValue)
  | map (entries : List (SerdeValue × SerdeValue))
  | struct (name : String) (fields : List (String × SerdeValue))
  | structVariant (name : String) (index : UInt32) (variant : String) (fields : List (String × SerdeValue))

instance : Inhabited JsonLoss := ⟨⟨false, false, false⟩⟩

def JsonLoss.merge (loss other : JsonLoss) : JsonLoss :=
  ⟨loss.nonFinite || other.nonFinite, loss.none || other.none, loss.nullInSome || other.nullInSome⟩

/-- A serializer that writes nothing and notes what `JsonLoss` holds. -/
structure Probe where
  top : Bool
  inSome : Bool
deriving DecidableEq

namespace Probe

/-- A member of a sequence, a map or a struct. -/
def member : Probe := ⟨false, false⟩

def null (probe : Probe) : JsonLoss := { (default : JsonLoss) with nullInSome := probe.inSome }

def float (value : Binary64) : JsonLoss := { (default : JsonLoss) with nonFinite := !value.isFinite }

mutual

def serialize : Probe → SerdeValue → JsonLoss
  | _, .bool _ | _, .int _ | _, .char _ | _, .str _ | _, .bytes _ => default
  | _, .f32 value => float (value.cast binary64)
  | _, .f64 value => float value
  | probe, .none => { probe.null with none := probe.top }
  | probe, .some value => serialize { probe with inSome := true } value
  | probe, .unit | probe, .unitStruct _ => probe.null
  | _, .unitVariant _ _ _ => default
  -- `serde_json` writes a newtype struct as its content
  | probe, .newtypeStruct _ value => serialize probe value
  -- and a newtype variant inside an object
  | probe, .newtypeVariant _ _ _ value => serialize { probe with inSome := false } value
  | _, .seq items | _, .tuple items | _, .tupleStruct _ items | _, .tupleVariant _ _ _ items => visitAll default items
  | _, .map entries => visitEntries default entries
  | _, .struct _ fields | _, .structVariant _ _ _ fields => visitFields default fields

/-- The loss of a compound value: its members'. -/
def visitAll : JsonLoss → List SerdeValue → JsonLoss
  | loss, [] => loss
  | loss, item :: items => visitAll (loss.merge (serialize member item)) items

/-- A key is visited like its value. -/
def visitEntries : JsonLoss → List (SerdeValue × SerdeValue) → JsonLoss
  | loss, [] => loss
  | loss, (key, value) :: entries =>
    visitEntries ((loss.merge (serialize member key)).merge (serialize member value)) entries

def visitFields : JsonLoss → List (String × SerdeValue) → JsonLoss
  | loss, [] => loss
  | loss, (_, value) :: fields => visitFields (loss.merge (serialize member value)) fields

end

end Probe

def jsonLoss (value : SerdeValue) : JsonLoss := Probe.serialize ⟨true, false⟩ value

namespace SerdeValue

/-- The values a value is made of. -/
def members : SerdeValue → List SerdeValue
  | .some value | .newtypeStruct _ value | .newtypeVariant _ _ _ value => [value]
  | .seq items | .tuple items | .tupleStruct _ items | .tupleVariant _ _ _ items => items
  | .map entries => entries.flatMap fun entry => [entry.1, entry.2]
  | .struct _ fields | .structVariant _ _ _ fields => fields.map Prod.snd
  | _ => []

/-- `part` occurs anywhere in a value, the value itself included. -/
def Within (part value : SerdeValue) : Prop := Relation.ReflTransGen (fun whole inner => inner ∈ whole.members) value part

/-- The content of a value through `Some`s and newtype structs. -/
def content : SerdeValue → SerdeValue
  | .some value | .newtypeStruct _ value => value.content
  | value => value

def isFloat : SerdeValue → Bool
  | .f32 _ | .f64 _ => true
  | _ => false

/-- A NaN or infinite float. -/
def isNonFinite : SerdeValue → Bool
  | .f32 x => !x.isFinite
  | .f64 x => !x.isFinite
  | _ => false

/-- What is a `null` in JSON by itself. -/
def isNull : SerdeValue → Bool
  | .none | .unit | .unitStruct _ => true
  | value => value.isNonFinite

/-- What an object's key may be. -/
def isKey : SerdeValue → Bool
  | .some value | .newtypeStruct _ value => value.isKey
  | .bool _ | .int _ | .char _ | .str _ | .unitVariant _ _ _ => true
  | .f32 x => x.isFinite
  | .f64 x => x.isFinite
  | _ => false

/-- A compound value's members that are written, in the text of which theirs is found. -/
def written : SerdeValue → List SerdeValue
  | .map entries => entries.map Prod.snd
  | value => value.members

end SerdeValue

open SerdeValue in
/-- The writers of `serde_json`, by what is documented of them. -/
structure SerdeJson where
  toVec : SerdeValue → Except String (List UInt8)
  toValue : SerdeValue → Except String Json
  -- the text of an object's key
  keyText : SerdeValue → Except String String
  toVec_some (value : SerdeValue) : toVec (.some value) = toVec value
  toVec_newtypeStruct (name : String) (value : SerdeValue) : toVec (.newtypeStruct name value) = toVec value
  toVec_null {value : SerdeValue} : value.isNull → toVec value = .ok nullBytes
  -- what is not written as its content starts with a quote, a bracket, a sign, a digit or a truth value's letter
  toVec_ne_null {value : SerdeValue} : value.content = value → value.isNull = false → toVec value ≠ .ok nullBytes
  toVec_written {value : SerdeValue} {text : List UInt8} :
    toVec value = .ok text → ∀ part ∈ value.written, ∃ inner, toVec part = .ok inner ∧ inner <:+: text
  toVec_keys {entries : List (SerdeValue × SerdeValue)} {text : List UInt8} :
    toVec (.map entries) = .ok text → ∀ entry ∈ entries, entry.1.isKey
  toValue_some (value : SerdeValue) : toValue (.some value) = toValue value
  toValue_newtypeStruct (name : String) (value : SerdeValue) : toValue (.newtypeStruct name value) = toValue value
  toValue_null {value : SerdeValue} : value.isNull → toValue value = .ok .null
  toValue_ne_null {value : SerdeValue} : value.content = value → value.isNull = false → toValue value ≠ .ok .null
  toValue_seq {items : List SerdeValue} {document : Json} : toValue (.seq items) = .ok document →
    ∃ documents, List.Forall₂ (fun item document => toValue item = .ok document) items documents ∧ document = .array documents
  toValue_tuple (items : List SerdeValue) : toValue (.tuple items) = toValue (.seq items)
  toValue_tupleStruct (name : String) (items : List SerdeValue) : toValue (.tupleStruct name items) = toValue (.seq items)
  -- a key written again replaces what it had
  toValue_map {entries : List (SerdeValue × SerdeValue)} {document : Json} : toValue (.map entries) = .ok document →
    ∃ members fields, List.Forall₂ (fun entry member =>
        entry.1.isKey ∧ keyText entry.1 = .ok member.1 ∧ toValue entry.2 = .ok member.2) entries members ∧
      document = .object fields ∧ ∀ name, fields.lookup name = members.reverse.lookup name
  toValue_struct {name : String} {entries : List (String × SerdeValue)} {document : Json} :
    toValue (.struct name entries) = .ok document →
    ∃ members fields, List.Forall₂ (fun entry member => entry.1 = member.1 ∧ toValue entry.2 = .ok member.2) entries members ∧
      document = .object fields ∧ ∀ name, fields.lookup name = members.reverse.lookup name
  toValue_newtypeVariant (name : String) (index : UInt32) (variant : String) (value : SerdeValue) :
    toValue (.newtypeVariant name index variant value) = (toValue value).map fun document => .object [(variant, document)]
  toValue_tupleVariant (name : String) (index : UInt32) (variant : String) (items : List SerdeValue) :
    toValue (.tupleVariant name index variant items) = (toValue (.seq items)).map fun document => .object [(variant, document)]
  toValue_structVariant (name : String) (index : UInt32) (variant : String) (fields : List (String × SerdeValue)) :
    toValue (.structVariant name index variant fields) =
      (toValue (.struct variant fields)).map fun document => .object [(variant, document)]

mutual

def holdsNull : Json → Bool
  | .null => true
  | .array items => anyHoldsNull items
  | .object members => anyMemberHoldsNull members
  | _ => false

def anyHoldsNull : List Json → Bool
  | [] => false
  | item :: items => holdsNull item || anyHoldsNull items

def anyMemberHoldsNull : List (String × Json) → Bool
  | [] => false
  | (_, value) :: members => holdsNull value || anyMemberHoldsNull members

end

namespace SerdeJson

variable (json : SerdeJson)

/-- A value as it is handed to the cache. -/
def serialized (value : SerdeValue) : Serialized := ⟨json.toVec value, .ok (jsonLoss value)⟩

/-- The JSON a filter carries, or why it cannot be one. -/
def checkedFilterValue (value : SerdeValue) : Except String Json :=
  match json.toValue value with
  | .error error => .error ("a filter value cannot be bound: " ++ error)
  | .ok document =>
    if holdsNull document && (jsonLoss value).nonFinite then
      .error "a filter value holds a NaN or infinite float, which SQL cannot compare"
    else .ok document

/-- The JSON an assignment carries, and whether it is SQL's `NULL`. -/
def checkedAssignmentValue (value : SerdeValue) : Except String (Json × Bool) :=
  match json.checkedFilterValue value with
  | .error error => .error error
  | .ok document => .ok (document, document.isNull && (jsonLoss value).none)

end SerdeJson

end TideOrm
