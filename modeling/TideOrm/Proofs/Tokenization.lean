import TideOrm.Spec.Tokenization
import TideOrm.Sanity.Base64

/-! Tokens are bound to what issued them. A table's binding is an injective text with two NULs in
it, base64 is canonical and never writes the dot of the mark, and the cipher opens a sealed text
under its own associated data alone. -/

namespace TideOrm

theorem fromUtf8_asBytes (text : List Char) : fromUtf8 (asBytes text) = some text := by
  rw [fromUtf8, asBytes]
  change text.utf8Encode.utf8Decode?.map Array.toList = some text
  rw [List.utf8Decode?_utf8Encode]
  rfl

theorem asBytes_inj {text text' : List Char} (h : asBytes text = asBytes text') : text = text' := by
  have hsome := fromUtf8_asBytes text
  rw [h, fromUtf8_asBytes] at hsome
  exact (Option.some.inj hsome).symm

/-- The same table, an absent schema counting as the empty one. -/
def SameTable (table table' : TokenTable) : Prop := table.1.getD [] = table'.1.getD [] ∧ table.2 = table'.2

theorem append_cons_inj {α : Type} {a : α} {l l' r r' : List α} (hl : a ∉ l) (hl' : a ∉ l')
    (h : l ++ a :: r = l' ++ a :: r') : l = l' ∧ r = r' := by
  induction l generalizing l' with
  | nil =>
    cases l' with
    | nil => exact ⟨rfl, (List.cons.inj h).2⟩
    | cons b l' =>
      have hhead := (List.cons.inj h).1
      exact absurd (hhead ▸ List.mem_cons_self ..) hl'
  | cons b l ih =>
    cases l' with
    | nil =>
      have hhead := (List.cons.inj h).1
      exact absurd (hhead ▸ List.mem_cons_self ..) hl
    | cons b' l' =>
      obtain ⟨hhead, htail⟩ := List.cons.inj h
      obtain ⟨hl, hr⟩ := ih (fun hmem => hl (List.mem_cons_of_mem _ hmem))
        (fun hmem => hl' (List.mem_cons_of_mem _ hmem)) htail
      exact ⟨by rw [hhead, hl], hr⟩

/-- The parts of a binding cannot run together. -/
theorem tableBinding_inj {table table' : TokenTable} (hschema : '\x00' ∉ table.1.getD [])
    (hschema' : '\x00' ∉ table'.1.getD []) (h : tableBinding table = tableBinding table') : SameTable table table' := by
  have htext := asBytes_inj h
  unfold tableBindingText at htext
  generalize "tideorm-token-v2".toList = head at htext
  rw [List.append_assoc, List.append_assoc] at htext
  exact append_cons_inj hschema hschema' (List.cons.inj (List.append_cancel_left htext)).2

theorem dot_not_mem {encoded : List Char} {sealed : List UInt8} (h : base64UrlDecode encoded = some sealed) :
    '.' ∉ encoded := by
  obtain ⟨sextets, -, hchars, hlt, -⟩ := base64UrlDecode_spec h
  rw [hchars, List.mem_map]
  rintro ⟨v, hv, hdot⟩
  have hall : ∀ v < 64, alphabetChar v ≠ '.' := by decide +kernel
  exact hall v (hlt v hv) hdot

theorem dot_mem_mark (text : List Char) : '.' ∈ TABLE_TOKEN_PREFIX ++ text :=
  List.mem_append_left _ (by decide)

theorem base64UrlDecode_marked (text : List Char) : base64UrlDecode (TABLE_TOKEN_PREFIX ++ text) = none := by
  cases h : base64UrlDecode (TABLE_TOKEN_PREFIX ++ text) with
  | none => rfl
  | some sealed => exact absurd (dot_mem_mark text) (dot_not_mem h)

theorem stripPrefix_append (head text : List Char) : stripPrefix head (head ++ text) = some text := by
  rw [stripPrefix, if_pos (List.isPrefixOf_iff_prefix.2 (List.prefix_append _ _)), List.drop_left]

theorem stripPrefix_some {head text rest : List Char} (h : stripPrefix head text = some rest) : text = head ++ rest := by
  rw [stripPrefix] at h
  split_ifs at h with hhead
  obtain ⟨tail, rfl⟩ := List.isPrefixOf_iff_prefix.1 hhead
  rw [List.drop_left] at h
  rw [Option.some.inj h]

theorem stripPrefix_encode (sealed : List UInt8) : stripPrefix TABLE_TOKEN_PREFIX (base64UrlEncode sealed) = none := by
  cases h : stripPrefix TABLE_TOKEN_PREFIX (base64UrlEncode sealed) with
  | none => rfl
  | some rest =>
    have hdot := dot_not_mem (base64UrlDecode_encode sealed)
    rw [stripPrefix_some h] at hdot
    exact absurd (dot_mem_mark rest) hdot

/-- The sealed bytes that a token's text stands for. -/
def sealedBytes (text : List Char) : Option (List UInt8) :=
  base64UrlDecode ((stripPrefix TABLE_TOKEN_PREFIX text).getD text)

theorem decodeForTable_marked (aead : Aead) (state : TokenizationState) (text : List Char) (table : TokenTable) (modelName : List Char) :
    decodeForTable aead state (TABLE_TOKEN_PREFIX ++ text) table modelName =
      openToken aead state text (tableBinding table) := by
  rw [decodeForTable, stripPrefix_append]

section

variable (aead : IdealAead) {state : TokenizationState} {key : EncryptionKey} (hkey : state.encryptionKey = some key)

include hkey

theorem sealToken_ok (nonce : Nonce) (recordId : List Char) (aad : List UInt8) :
    ∃ sealed, aead.sealBytes key nonce (asBytes recordId) aad = some sealed ∧
      sealToken aead.toAead state nonce recordId aad = .ok (base64UrlEncode sealed) := by
  obtain ⟨sealed, hsealed⟩ := Option.isSome_iff_exists.1 (aead.seals key nonce (asBytes recordId) aad)
  refine ⟨sealed, hsealed, ?_⟩
  rw [sealToken, getDerivedEncryptionKey, hkey]
  dsimp only [bind, Except.bind]
  rw [hsealed]

theorem openToken_eq (token : List Char) (aad : List UInt8) :
    openToken aead.toAead state token aad =
      .ok ((base64UrlDecode token).bind fun sealed => (aead.openBytes key sealed aad).bind fromUtf8) := by
  rw [openToken, getDerivedEncryptionKey, hkey]
  rfl

/-- A sealed token opens with its own associated data alone. -/
theorem openToken_sealed {nonce : Nonce} {recordId : List Char} {aad sealed : List UInt8}
    (hsealed : aead.sealBytes key nonce (asBytes recordId) aad = some sealed) (aad' : List UInt8) :
    openToken aead.toAead state (base64UrlEncode sealed) aad' = .ok (if aad' = aad then some recordId else none) := by
  rw [openToken_eq aead hkey, base64UrlDecode_encode, Option.bind_some]
  split_ifs with haad
  · rw [(aead.opens hsealed key aad' (asBytes recordId)).2 ⟨rfl, haad, rfl⟩, Option.bind_some, fromUtf8_asBytes]
  · cases hopen : aead.openBytes key sealed aad' with
    | none => rfl
    | some plaintext => exact absurd ((aead.opens hsealed key aad' plaintext).1 hopen).2.1 haad

theorem openToken_some {nonce : Nonce} {recordId payload : List Char} {aad aad' sealed : List UInt8}
    (hsealed : aead.sealBytes key nonce (asBytes recordId) aad = some sealed)
    (h : openToken aead.toAead state (base64UrlEncode sealed) aad' = .ok (some payload)) : aad' = aad := by
  rw [openToken_sealed aead hkey hsealed] at h
  by_contra haad
  rw [if_neg haad] at h
  cases h

theorem defaultDecode_marked (text modelName : List Char) :
    defaultDecode aead.toAead state (TABLE_TOKEN_PREFIX ++ text) modelName = .ok none := by
  rw [defaultDecode, openToken_eq aead hkey, base64UrlDecode_marked]
  rfl

end

/-- A model whose codecs are the default ones, and whose schema and table hold no NUL. -/
structure DefaultModel (state : TokenizationState) {PrimaryKey : Type} (model : Tokenizable PrimaryKey) : Prop where
  codecs : tokenCodecs state model = (none, none)
  nulFree : ∀ table ∈ model.tokenTable, '\x00' ∉ table.1.getD [] ∧ '\x00' ∉ table.2

section

variable (aead : IdealAead) {state : TokenizationState} {key : EncryptionKey} (hkey : state.encryptionKey = some key)
  {PrimaryKey : Type} {model : Tokenizable PrimaryKey} (hmodel : DefaultModel state model)

include hmodel

theorem decodePayload_table {table : TokenTable} (htable : model.tokenTable = some table) (token : List Char) :
    decodePayload aead.toAead state model token = decodeForTable aead.toAead state token table model.tokenModelName := by
  rw [decodePayload, hmodel.codecs, htable]

theorem decodePayload_name (htable : model.tokenTable = none) (token : List Char) :
    decodePayload aead.toAead state model token = defaultDecode aead.toAead state token model.tokenModelName := by
  rw [decodePayload, hmodel.codecs, htable]
  rfl

/-- Any other token's payload is read with the model's name. -/
theorem decodePayload_unmarked {text : List Char} (hmark : stripPrefix TABLE_TOKEN_PREFIX text = none) :
    decodePayload aead.toAead state model text = defaultDecode aead.toAead state text model.tokenModelName := by
  cases htable : model.tokenTable with
  | none => exact decodePayload_name aead hmodel htable text
  | some table => rw [decodePayload_table aead hmodel htable, decodeForTable, hmark]

include hkey

/-- A marked token's payload is read with the model's table. -/
theorem decodePayload_marked {text : List Char} {payload : List Char}
    (h : decodePayload aead.toAead state model (TABLE_TOKEN_PREFIX ++ text) = .ok (some payload)) :
    ∃ table, model.tokenTable = some table ∧ openToken aead.toAead state text (tableBinding table) = .ok (some payload) := by
  cases htable : model.tokenTable with
  | none =>
    rw [decodePayload_name aead hmodel htable, defaultDecode_marked aead hkey] at h
    cases h
  | some table =>
    rw [decodePayload_table aead hmodel htable, decodeForTable_marked] at h
    exact ⟨table, rfl, h⟩

end

theorem decodeToken_ok {aead : Aead} {state : TokenizationState} {PrimaryKey : Type} {model : Tokenizable PrimaryKey}
    {token : List Char} {id : PrimaryKey} (h : decodeToken aead state model token = .ok id) :
    ∃ payload, decodePayload aead state model token = .ok (some payload) := by
  rw [decodeToken] at h
  cases hpayload : decodePayload aead state model token with
  | error error => rw [hpayload] at h; cases h
  | ok payload =>
    cases payload with
    | none => rw [hpayload] at h; cases h
    | some payload => exact ⟨payload, rfl⟩

/-- Tokens are bound to the schema and table of the model that issued them. The issuing model
reads its key back; a model of another table reads none; the token has one spelling, unless a
model's name spells the binding; and tokens bound to a name and to a table do not mix. -/
theorem token_bound_to_table (aead : IdealAead) (state : TokenizationState) (key : EncryptionKey)
    (hkey : state.encryptionKey = some key) {PrimaryKey : Type} (model : Tokenizable PrimaryKey)
    (hmodel : DefaultModel state model) (table : TokenTable) (htable : model.tokenTable = some table) (nonce : Nonce)
    (id : PrimaryKey) (payload : List Char) (hto : model.toJson id = .ok payload)
    (hfrom : model.fromJson payload = .ok id) :
    ∃ token, tokenizeId aead.toAead state model nonce id = .ok token ∧
      decodeToken aead.toAead state model token = .ok id ∧
      (∀ (K : Type) (other : Tokenizable K), DefaultModel state other → ∀ id',
        decodeToken aead.toAead state other token = .ok id' →
          ∃ table', other.tokenTable = some table' ∧ SameTable table' table) ∧
      (∀ (K : Type) (other : Tokenizable K), DefaultModel state other → ∀ text payload',
        sealedBytes text = sealedBytes token → decodePayload aead.toAead state other text = .ok (some payload') →
          text = token ∨ other.tokenModelName = tableBindingText table) ∧
      (∀ name, defaultDecode aead.toAead state token name = .ok none) ∧
      ∀ nonce' recordId name, ∃ named, defaultEncode aead.toAead state nonce' recordId name = .ok named ∧
        stripPrefix TABLE_TOKEN_PREFIX named = none ∧
        ∀ table', name ≠ tableBindingText table' →
          openToken aead.toAead state named (tableBinding table') = .ok none := by
  obtain ⟨sealed, hsealed, htoken⟩ := sealToken_ok aead hkey nonce payload (tableBinding table)
  refine ⟨TABLE_TOKEN_PREFIX ++ base64UrlEncode sealed, ?_, ?_, ?_, ?_, ?_, ?_⟩
  · rw [tokenizeId, hto]
    dsimp only
    rw [hmodel.codecs, htable]
    dsimp only
    rw [encodeForTable, htoken]
    rfl
  · rw [decodeToken, decodePayload_table aead hmodel htable, decodeForTable_marked,
      openToken_sealed aead hkey hsealed, if_pos rfl]
    dsimp only [bind, Except.bind]
    rw [hfrom]
  · intro K other hother id' hdecode
    obtain ⟨payload', hpayload⟩ := decodeToken_ok hdecode
    obtain ⟨table', htable', hopen⟩ := decodePayload_marked aead hkey hother hpayload
    have hbinding := openToken_some aead hkey hsealed hopen
    exact ⟨table', htable', tableBinding_inj (hother.nulFree table' htable').1 (hmodel.nulFree table htable).1 hbinding⟩
  · intro K other hother text payload' hsame hdecode
    rw [sealedBytes, sealedBytes, stripPrefix_append, Option.getD_some, base64UrlDecode_encode] at hsame
    cases hmark : stripPrefix TABLE_TOKEN_PREFIX text with
    | some rest =>
      rw [hmark, Option.getD_some] at hsame
      exact Or.inl (by rw [stripPrefix_some hmark, base64UrlEncode_of_decode hsame])
    | none =>
      rw [hmark, Option.getD_none] at hsame
      rw [decodePayload_unmarked aead hother hmark, base64UrlEncode_of_decode hsame, defaultDecode] at hdecode
      exact Or.inr (asBytes_inj (openToken_some aead hkey hsealed hdecode))
  · exact fun name => defaultDecode_marked aead hkey _ name
  · intro nonce' recordId name
    obtain ⟨named, hnamed, hencode⟩ := sealToken_ok aead hkey nonce' recordId (asBytes name)
    refine ⟨base64UrlEncode named, hencode, stripPrefix_encode named, fun table' hname => ?_⟩
    have hbinding : tableBinding table' ≠ asBytes name := fun hbinding => hname (asBytes_inj hbinding).symm
    rw [openToken_sealed aead hkey hnamed, if_neg hbinding]

/-- A cipher that writes key and associated data, the data's length in front, before the text. -/
def boxHead (key : EncryptionKey) (aad : List UInt8) : List UInt8 :=
  key.toList ++ (List.replicate aad.length 1 ++ 0 :: aad)

def boxSeal (key : EncryptionKey) (nonce : Nonce) (plaintext aad : List UInt8) : List UInt8 :=
  nonce.toList ++ (boxHead key aad ++ plaintext)

def boxOpen (key : EncryptionKey) (sealed aad : List UInt8) : Option (List UInt8) :=
  let body := sealed.drop 24
  if 24 ≤ sealed.length ∧ boxHead key aad <+: body then some (body.drop (boxHead key aad).length) else none

theorem boxSeal_inj {key key' : EncryptionKey} {nonce nonce' : Nonce} {plaintext plaintext' aad aad' : List UInt8}
    (h : boxSeal key nonce plaintext aad = boxSeal key' nonce' plaintext' aad') :
    key = key' ∧ aad = aad' ∧ plaintext = plaintext' := by
  have hbody := (List.append_inj h (by simp)).2
  simp only [boxHead, List.append_assoc, List.cons_append] at hbody
  obtain ⟨hkey, hrest⟩ := List.append_inj hbody (by simp)
  obtain ⟨hlen, hdata⟩ := append_cons_inj (by simp [List.mem_replicate]) (by simp [List.mem_replicate]) hrest
  have hlen : aad.length = aad'.length := by simpa using congrArg List.length hlen
  obtain ⟨haad, hplain⟩ := List.append_inj hdata hlen
  exact ⟨Vector.toList_inj.1 hkey, haad, hplain⟩

theorem boxOpen_iff {key : EncryptionKey} {sealed aad plaintext : List UInt8} :
    boxOpen key sealed aad = some plaintext ↔ ∃ nonce, boxSeal key nonce plaintext aad = sealed := by
  constructor
  · intro h
    rw [boxOpen] at h
    split_ifs at h with hopen
    obtain ⟨hlen, tail, htail⟩ := hopen
    rw [← htail, List.drop_left] at h
    refine ⟨⟨(sealed.take 24).toArray, by simpa using hlen⟩, ?_⟩
    rw [boxSeal, ← Option.some.inj h, htail]
    exact List.take_append_drop 24 sealed
  · rintro ⟨nonce, rfl⟩
    have hdrop : (boxSeal key nonce plaintext aad).drop 24 = boxHead key aad ++ plaintext := by
      rw [boxSeal]
      exact List.drop_left' (by simp)
    rw [boxOpen, hdrop, if_pos ⟨by simp [boxSeal], List.prefix_append _ _⟩, List.drop_left]

def boxAead : IdealAead where
  sealBytes key nonce plaintext aad := some (boxSeal key nonce plaintext aad)
  openBytes := boxOpen
  seals _ _ _ _ := rfl
  opens h key' aad' plaintext' := by
    cases h
    rw [boxOpen_iff]
    constructor
    · rintro ⟨nonce', h⟩
      exact boxSeal_inj h
    · rintro ⟨rfl, rfl, rfl⟩
      exact ⟨_, rfl⟩
  authentic h := by
    obtain ⟨nonce, h⟩ := boxOpen_iff.1 h
    exact ⟨nonce, congrArg some h⟩

/-- A model of users, keyed by digits. -/
def userTokens (name : List Char) : Tokenizable (List Char) where
  tokenModelName := name
  tokenTable := some (none, "users".toList)
  tokenEncoder := none
  tokenDecoder := none
  toJson id := .ok id
  fromJson payload := .ok payload

def keyedState : TokenizationState := ⟨some (Vector.replicate 32 7), none, none⟩

theorem userTokens_default (name : List Char) : DefaultModel keyedState (userTokens name) := by
  refine ⟨rfl, fun table htable => ?_⟩
  cases htable
  exact ⟨by decide, by decide⟩

theorem user_token_bound :
    ∃ token, tokenizeId boxAead.toAead keyedState (userTokens "User".toList) (Vector.replicate 24 1) ['4', '2'] = .ok token ∧
      decodeToken boxAead.toAead keyedState (userTokens "User".toList) token = .ok ['4', '2'] := by
  obtain ⟨token, htoken, hdecode, -⟩ := token_bound_to_table boxAead keyedState _ rfl (userTokens "User".toList)
    (userTokens_default _) _ rfl (Vector.replicate 24 1) ['4', '2'] ['4', '2'] rfl rfl
  exact ⟨token, htoken, hdecode⟩

/-- A model named like the binding of its table reads its token with the mark left out as well. -/
theorem token_respelled :
    DefaultModel keyedState (userTokens (tableBindingText (none, "users".toList))) ∧
    ∃ token text, tokenizeId boxAead.toAead keyedState (userTokens (tableBindingText (none, "users".toList)))
        (Vector.replicate 24 1) ['4', '2'] = .ok token ∧ text ≠ token ∧ sealedBytes text = sealedBytes token ∧
      decodeToken boxAead.toAead keyedState (userTokens (tableBindingText (none, "users".toList))) text = .ok ['4', '2'] := by
  have hkey : keyedState.encryptionKey = some (Vector.replicate 32 7) := rfl
  obtain ⟨sealed, hsealed, htoken⟩ := sealToken_ok boxAead hkey (Vector.replicate 24 1) ['4', '2']
    (tableBinding (none, "users".toList))
  have hunmarked := stripPrefix_encode sealed
  refine ⟨userTokens_default _, TABLE_TOKEN_PREFIX ++ base64UrlEncode sealed, base64UrlEncode sealed, ?_, ?_, ?_, ?_⟩
  · change encodeForTable boxAead.toAead keyedState (Vector.replicate 24 1) ['4', '2'] (none, "users".toList) = _
    rw [encodeForTable, htoken]
    rfl
  · intro h
    rw [h, stripPrefix_append] at hunmarked
    cases hunmarked
  · rw [sealedBytes, sealedBytes, hunmarked, stripPrefix_append]
    rfl
  · have hname : asBytes (userTokens (tableBindingText (none, "users".toList))).tokenModelName =
        tableBinding (none, "users".toList) := rfl
    rw [decodeToken, decodePayload_unmarked boxAead (userTokens_default _) hunmarked, defaultDecode, hname,
      openToken_sealed boxAead hkey hsealed, if_pos rfl]
    rfl

end TideOrm
