import TideOrm.Spec.Base64
import TideOrm.Spec.Error
import Mathlib.Data.List.Infix

/-! Record tokens (`tokenization.rs`). The cipher is a third-party one, given by `Aead`; the
random nonce of a `seal` is an argument of what calls it. -/

namespace TideOrm

abbrev EncryptionKey := Vector UInt8 32

abbrev Nonce := Vector UInt8 24

/-- Authenticated encryption with associated data, the source's `seal` and `open`. -/
structure Aead where
  sealBytes : EncryptionKey → Nonce → List UInt8 → List UInt8 → Option (List UInt8)
  openBytes : EncryptionKey → List UInt8 → List UInt8 → Option (List UInt8)

/-- Authenticated encryption as it should be: everything can be sealed, a sealed text opens under
its own key and associated data only, and nothing else opens. -/
structure IdealAead extends Aead where
  seals : ∀ key nonce plaintext aad, (sealBytes key nonce plaintext aad).isSome
  opens : ∀ {key nonce plaintext aad sealed}, sealBytes key nonce plaintext aad = some sealed →
    ∀ key' aad' plaintext', openBytes key' sealed aad' = some plaintext' ↔ key' = key ∧ aad' = aad ∧ plaintext' = plaintext
  authentic : ∀ {key sealed aad plaintext}, openBytes key sealed aad = some plaintext →
    ∃ nonce, sealBytes key nonce plaintext aad = some sealed

/-- `str::as_bytes` -/
def asBytes (text : List Char) : List UInt8 := text.flatMap String.utf8EncodeChar

/-- `String::from_utf8` -/
def fromUtf8 (bytes : List UInt8) : Option (List Char) := bytes.toByteArray.utf8Decode?.map Array.toList

/-- `recordId` and the model's name to a token -/
abbrev TokenEncoder := Nonce → List Char → List Char → Except Error (List Char)

/-- a token and the model's name to the record's id, none for an invalid token -/
abbrev TokenDecoder := List Char → List Char → Except Error (Option (List Char))

/-- The schema, when the model names one, and the table. -/
abbrev TokenTable := Option (List Char) × List Char

structure TokenizationState where
  encryptionKey : Option EncryptionKey
  encoder : Option TokenEncoder
  decoder : Option TokenDecoder

/-- What a model says of its tokens; `toJson` and `fromJson` are its key's serializer. -/
structure Tokenizable (PrimaryKey : Type) where
  tokenModelName : List Char
  tokenTable : Option TokenTable
  tokenEncoder : Option TokenEncoder
  tokenDecoder : Option TokenDecoder
  toJson : PrimaryKey → Except String (List Char)
  fromJson : List Char → Except String PrimaryKey

section

variable (aead : Aead) (state : TokenizationState)

def getDerivedEncryptionKey : Except Error EncryptionKey :=
  match state.encryptionKey with
  | some key => .ok key
  | none => .error (.tokenization "No encryption key configured")

/-- `recordId` sealed with `aad`, as base64url. -/
def sealToken (nonce : Nonce) (recordId : List Char) (aad : List UInt8) : Except Error (List Char) := do
  let key ← getDerivedEncryptionKey state
  match aead.sealBytes key nonce (asBytes recordId) aad with
  | some sealed => .ok (base64UrlEncode sealed)
  | none => .error (.tokenization "Failed to encrypt token payload")

/-- Open a base64url token sealed with `aad`. -/
def openToken (token : List Char) (aad : List UInt8) : Except Error (Option (List Char)) := do
  let key ← getDerivedEncryptionKey state
  return (base64UrlDecode token).bind fun sealed => (aead.openBytes key sealed aad).bind fromUtf8

def defaultEncode (nonce : Nonce) (recordId modelName : List Char) : Except Error (List Char) :=
  sealToken aead state nonce recordId (asBytes modelName)

def defaultDecode (token modelName : List Char) : Except Error (Option (List Char)) :=
  openToken aead state token (asBytes modelName)

/-- What a table-bound token starts with. -/
def TABLE_TOKEN_PREFIX : List Char := ['v', '2', '.']

/-- The text a table-bound token's associated data spell. -/
def tableBindingText (table : TokenTable) : List Char :=
  "tideorm-token-v2".toList ++ '\x00' :: table.1.getD [] ++ '\x00' :: table.2

def tableBinding (table : TokenTable) : List UInt8 := asBytes (tableBindingText table)

def encodeForTable (nonce : Nonce) (recordId : List Char) (table : TokenTable) : Except Error (List Char) := do
  let token ← sealToken aead state nonce recordId (tableBinding table)
  return TABLE_TOKEN_PREFIX ++ token

/-- `str::strip_prefix` -/
def stripPrefix (head text : List Char) : Option (List Char) :=
  if head.isPrefixOf text then some (text.drop head.length) else none

/-- A token without the mark of a table was issued bound to the struct name. -/
def decodeForTable (token : List Char) (table : TokenTable) (modelName : List Char) :
    Except Error (Option (List Char)) :=
  match stripPrefix TABLE_TOKEN_PREFIX token with
  | some sealed => openToken aead state sealed (tableBinding table)
  | none => defaultDecode aead state token modelName

variable {PrimaryKey : Type} (model : Tokenizable PrimaryKey)

/-- The encoder and decoder in effect: the model's, else the global ones. -/
def tokenCodecs : Option TokenEncoder × Option TokenDecoder :=
  (model.tokenEncoder.or state.encoder, model.tokenDecoder.or state.decoder)

def tokenizeId (nonce : Nonce) (id : PrimaryKey) : Except Error (List Char) :=
  match model.toJson id with
  | .error error => .error (.tokenization s!"Failed to serialize token primary key: {error}")
  | .ok payload =>
    match tokenCodecs state model, model.tokenTable with
    | (none, none), some table => encodeForTable aead state nonce payload table
    | (encoder, _), _ => (encoder.getD (defaultEncode aead state)) nonce payload model.tokenModelName

/-- The payload of a token, none for one that does not decode for the model. -/
def decodePayload (token : List Char) : Except Error (Option (List Char)) :=
  match tokenCodecs state model, model.tokenTable with
  | (none, none), some table => decodeForTable aead state token table model.tokenModelName
  | (_, decoder), _ => (decoder.getD (defaultDecode aead state)) token model.tokenModelName

def decodeToken (token : List Char) : Except Error PrimaryKey := do
  match ← decodePayload aead state model token with
  | none => .error (.invalidToken "Failed to decode token")
  | some payload =>
    match model.fromJson payload with
    | .ok id => .ok id
    | .error _ => .error (.invalidToken ("The decoded token does not hold a primary key of model " ++
        String.ofList model.tokenModelName))

end

end TideOrm
