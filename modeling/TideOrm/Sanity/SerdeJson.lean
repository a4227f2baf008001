import TideOrm.Lib.Traverse
import TideOrm.Lib.Utf8
import TideOrm.Spec.JsonLoss

/-! A writer that does what is documented of `serde_json`'s: it writes JSON without the finite floats
and the strings that need an escape, which it refuses. -/

namespace TideOrm.JsonWriter

open Lib

def refused : String := "not written"

def quoted (s : String) : Except String (List Char) :=
  if s.toList.all fun ch => ch != '"' && ch != '\\' && ' '.toNat ≤ ch.toNat then .ok ('"' :: (s.toList ++ ['"']))
  else .error refused

/-- A key, and what is written of it. -/
def keyText : SerdeValue → Except String String
  | .some value | .newtypeStruct _ value => keyText value
  | .bool b => .ok (if b then "true" else "false")
  | .int n => .ok (String.ofList (signedDecimal n))
  | .char c => .ok (String.singleton c)
  | .str s => .ok s
  | .unitVariant _ _ variant => .ok variant
  | _ => .error refused

def joined (texts : List (List Char)) : List Char := [','].intercalate texts

def field (name : String) (text : List Char) : Except String (List Char) := (quoted name).map (· ++ ':' :: text)

def object (texts : List (List Char)) : List Char := '{' :: (joined texts ++ ['}'])

def array (texts : List (List Char)) : List Char := '[' :: (joined texts ++ [']'])

def both {A B C : Type} (f : A → B → C) (x : Except String A) (y : Except String B) : Except String C := do
  let a ← x
  let b ← y
  return f a b

mutual

def write : SerdeValue → Except String (List Char)
  | .bool b => .ok (if b then "true".toList else "false".toList)
  | .int n => .ok (signedDecimal n)
  | .f32 x => if x.isFinite then .error refused else .ok "null".toList
  | .f64 x => if x.isFinite then .error refused else .ok "null".toList
  | .char c => quoted (String.singleton c)
  | .str s => quoted s
  | .bytes data => .ok (array (data.map fun byte => signedDecimal byte.toNat))
  | .none | .unit | .unitStruct _ => .ok "null".toList
  | .some value | .newtypeStruct _ value => write value
  | .unitVariant _ _ variant => quoted variant
  | .newtypeVariant _ _ variant value => ((write value).bind (field variant)).map fun text => object [text]
  | .seq items | .tuple items | .tupleStruct _ items => (writeAll items).map array
  | .tupleVariant _ _ variant items => (((writeAll items).map array).bind (field variant)).map fun text => object [text]
  | .map entries => (writeEntries entries).map object
  | .struct _ fields => (writeFields fields).map object
  | .structVariant _ _ variant fields => (((writeFields fields).map object).bind (field variant)).map fun text => object [text]

def writeAll : List SerdeValue → Except String (List (List Char))
  | [] => .ok []
  | item :: items => both .cons (write item) (writeAll items)

def writeEntries : List (SerdeValue × SerdeValue) → Except String (List (List Char))
  | [] => .ok []
  | (key, value) :: entries =>
    both .cons ((keyText key).bind fun name => (write value).bind (field name)) (writeEntries entries)

def writeFields : List (String × SerdeValue) → Except String (List (List Char))
  | [] => .ok []
  | (name, value) :: fields => both .cons ((write value).bind (field name)) (writeFields fields)

end

/-- Of each name the first value. -/
def firstOf : List (String × Json) → List (String × Json)
  | [] => []
  | member :: members => member :: (firstOf members).filter (·.1 != member.1)

/-- An object's members: of each name the last value. -/
def lastOf (members : List (String × Json)) : Json := .object (firstOf members.reverse)

def integer (n : ℤ) : Except String Json :=
  if 0 ≤ n ∧ n < 2 ^ 64 then .ok (.number (.posInt n.toNat))
  else if -2 ^ 63 ≤ n ∧ n < 0 then .ok (.number (.negInt n))
  else .error "number out of range"

mutual

def document : SerdeValue → Except String Json
  | .bool b => .ok (.bool b)
  | .int n => integer n
  | .f32 x => if x.isFinite then .error refused else .ok .null
  | .f64 x => if x.isFinite then .error refused else .ok .null
  | .char c => .ok (.string (String.singleton c))
  | .str s => .ok (.string s)
  | .bytes data => .ok (.array (data.map fun byte => .number (.posInt byte.toNat)))
  | .none | .unit | .unitStruct _ => .ok .null
  | .some inner | .newtypeStruct _ inner => document inner
  | .unitVariant _ _ variant => .ok (.string variant)
  | .newtypeVariant _ _ variant inner => (document inner).map fun content => .object [(variant, content)]
  | .seq items | .tuple items | .tupleStruct _ items => (documents items).map .array
  | .tupleVariant _ _ variant items => ((documents items).map .array).map fun content => .object [(variant, content)]
  | .map entries => (entryDocuments entries).map lastOf
  | .struct _ fields => (fieldDocuments fields).map lastOf
  | .structVariant _ _ variant fields => ((fieldDocuments fields).map lastOf).map fun content => .object [(variant, content)]

def documents : List SerdeValue → Except String (List Json)
  | [] => .ok []
  | item :: items => both .cons (document item) (documents items)

def entryDocuments : List (SerdeValue × SerdeValue) → Except String (List (String × Json))
  | [] => .ok []
  | (key, inner) :: entries => both .cons (both .mk (keyText key) (document inner)) (entryDocuments entries)

def fieldDocuments : List (String × SerdeValue) → Except String (List (String × Json))
  | [] => .ok []
  | (name, inner) :: fields => both .cons ((document inner).map (.mk name)) (fieldDocuments fields)

end

section Results

variable {A B C : Type}

theorem both_eq_ok {f : A → B → C} {x : Except String A} {y : Except String B} {c : C} (h : both f x y = .ok c) :
    ∃ a b, x = .ok a ∧ y = .ok b ∧ c = f a b := by
  obtain ⟨a, hx, hrest⟩ := bind_eq_ok h
  obtain ⟨b, hy, hc⟩ := bind_eq_ok hrest
  exact ⟨a, b, hx, hy, (Except.ok.inj hc).symm⟩

end Results

section Text

theorem infix_joined {text : List Char} {texts : List (List Char)} (h : text ∈ texts) : text <:+: joined texts := by
  induction texts with
  | nil => cases h
  | cons first rest ih =>
    cases rest with
    | nil =>
      obtain rfl := List.mem_singleton.1 h
      rw [joined, List.intercalate_singleton]
    | cons second rest =>
      rw [joined, List.intercalate_cons_cons, List.append_assoc]
      rcases List.mem_cons.1 h with rfl | hrest
      · exact (List.prefix_append _ _).isInfix
      · exact (ih hrest).trans ((List.suffix_append _ _).trans (List.suffix_append _ _)).isInfix

theorem infix_array {text : List Char} {texts : List (List Char)} (h : text ∈ texts) : text <:+: array texts :=
  (infix_joined h).trans ⟨['['], [']'], rfl⟩

theorem infix_object {text : List Char} {texts : List (List Char)} (h : text ∈ texts) : text <:+: object texts :=
  (infix_joined h).trans ⟨['{'], ['}'], rfl⟩

theorem suffix_field {name : String} {text whole : List Char} (h : field name text = .ok whole) : text <:+ whole := by
  obtain ⟨quotedName, -, rfl⟩ := map_eq_ok h
  exact ⟨quotedName ++ [':'], by simp⟩

theorem writeAll_mem {items : List SerdeValue} {texts : List (List Char)} (h : writeAll items = .ok texts) {part : SerdeValue}
    (hpart : part ∈ items) : ∃ text ∈ texts, write part = .ok text := by
  induction items generalizing texts with
  | nil => cases hpart
  | cons item items ih =>
    rw [writeAll] at h
    obtain ⟨text, rest, htext, hrest, rfl⟩ := both_eq_ok h
    rcases List.mem_cons.1 hpart with rfl | hlater
    · exact ⟨text, List.mem_cons_self .., htext⟩
    · obtain ⟨inner, hinner, hwrite⟩ := ih hrest hlater
      exact ⟨inner, List.mem_cons_of_mem _ hinner, hwrite⟩

theorem writeEntries_mem {entries : List (SerdeValue × SerdeValue)} {texts : List (List Char)}
    (h : writeEntries entries = .ok texts) {entry : SerdeValue × SerdeValue} (hentry : entry ∈ entries) :
    (∃ name, keyText entry.1 = .ok name) ∧ ∃ text ∈ texts, ∃ inner, write entry.2 = .ok inner ∧ inner <:+ text := by
  induction entries generalizing texts with
  | nil => cases hentry
  | cons first entries ih =>
    rw [writeEntries] at h
    obtain ⟨text, rest, htext, hrest, rfl⟩ := both_eq_ok h
    rcases List.mem_cons.1 hentry with rfl | hlater
    · obtain ⟨name, hname, hvalue⟩ := bind_eq_ok htext
      obtain ⟨inner, hinner, hfield⟩ := bind_eq_ok hvalue
      exact ⟨⟨name, hname⟩, text, List.mem_cons_self .., inner, hinner, suffix_field hfield⟩
    · obtain ⟨hkey, found, hfound, hwrite⟩ := ih hrest hlater
      exact ⟨hkey, found, List.mem_cons_of_mem _ hfound, hwrite⟩

theorem writeFields_mem {fields : List (String × SerdeValue)} {texts : List (List Char)} (h : writeFields fields = .ok texts)
    {part : String × SerdeValue} (hpart : part ∈ fields) : ∃ text ∈ texts, ∃ inner, write part.2 = .ok inner ∧ inner <:+ text := by
  induction fields generalizing texts with
  | nil => cases hpart
  | cons first fields ih =>
    rw [writeFields] at h
    obtain ⟨text, rest, htext, hrest, rfl⟩ := both_eq_ok h
    rcases List.mem_cons.1 hpart with rfl | hlater
    · obtain ⟨inner, hinner, hfield⟩ := bind_eq_ok htext
      exact ⟨text, List.mem_cons_self .., inner, hinner, suffix_field hfield⟩
    · obtain ⟨found, hfound, hwrite⟩ := ih hrest hlater
      exact ⟨found, List.mem_cons_of_mem _ hfound, hwrite⟩

theorem write_written {value : SerdeValue} {text : List Char} (h : write value = .ok text) :
    ∀ part ∈ value.written, ∃ inner, write part = .ok inner ∧ inner <:+: text := by
  intro part hpart
  cases value with
  | some value | newtypeStruct _ value =>
    obtain rfl := List.mem_singleton.1 hpart
    exact ⟨text, h, List.infix_refl text⟩
  | newtypeVariant _ _ variant value =>
    obtain rfl := List.mem_singleton.1 hpart
    obtain ⟨whole, hwhole, rfl⟩ := map_eq_ok h
    obtain ⟨inner, hinner, hfield⟩ := bind_eq_ok hwhole
    exact ⟨inner, hinner, (suffix_field hfield).isInfix.trans (infix_object (List.mem_singleton_self _))⟩
  | seq items | tuple items | tupleStruct _ items =>
    obtain ⟨texts, htexts, rfl⟩ := map_eq_ok h
    obtain ⟨inner, hmem, hinner⟩ := writeAll_mem htexts hpart
    exact ⟨inner, hinner, infix_array hmem⟩
  | tupleVariant _ _ variant items =>
    obtain ⟨whole, hwhole, rfl⟩ := map_eq_ok h
    obtain ⟨content, hcontent, hfield⟩ := bind_eq_ok hwhole
    obtain ⟨texts, htexts, rfl⟩ := map_eq_ok hcontent
    obtain ⟨inner, hmem, hinner⟩ := writeAll_mem htexts hpart
    exact ⟨inner, hinner, (infix_array hmem).trans ((suffix_field hfield).isInfix.trans (infix_object (List.mem_singleton_self _)))⟩
  | map entries =>
    obtain ⟨texts, htexts, rfl⟩ := map_eq_ok h
    obtain ⟨entry, hentry, rfl⟩ := List.mem_map.1 hpart
    obtain ⟨-, found, hfound, inner, hinner, hsuffix⟩ := writeEntries_mem htexts hentry
    exact ⟨inner, hinner, hsuffix.isInfix.trans (infix_object hfound)⟩
  | struct _ fields =>
    obtain ⟨texts, htexts, rfl⟩ := map_eq_ok h
    obtain ⟨entry, hentry, rfl⟩ := List.mem_map.1 hpart
    obtain ⟨found, hfound, inner, hinner, hsuffix⟩ := writeFields_mem htexts hentry
    exact ⟨inner, hinner, hsuffix.isInfix.trans (infix_object hfound)⟩
  | structVariant _ _ variant fields =>
    obtain ⟨whole, hwhole, rfl⟩ := map_eq_ok h
    obtain ⟨content, hcontent, hfield⟩ := bind_eq_ok hwhole
    obtain ⟨texts, htexts, rfl⟩ := map_eq_ok hcontent
    obtain ⟨entry, hentry, rfl⟩ := List.mem_map.1 hpart
    obtain ⟨found, hfound, inner, hinner, hsuffix⟩ := writeFields_mem htexts hentry
    exact ⟨inner, hinner, hsuffix.isInfix.trans ((infix_object hfound).trans
      ((suffix_field hfield).isInfix.trans (infix_object (List.mem_singleton_self _))))⟩
  | _ => cases hpart

theorem isKey_of_keyText {value : SerdeValue} {name : String} (h : keyText value = .ok name) : value.isKey = true := by
  induction value using keyText.induct with
  | case1 value ih | case2 _ value ih => exact ih h
  | case3 | case4 | case5 | case6 | case7 => rfl
  | case8 value => simp_all [keyText]

theorem content_ne (value inner : SerdeValue) : value.content ≠ .some inner ∧ ∀ name, value.content ≠ .newtypeStruct name inner := by
  induction value using SerdeValue.content.induct with
  | case1 value ih | case2 _ value ih => exact ih
  | case3 value hsome hnewtype =>
    rw [SerdeValue.content]
    · exact ⟨hsome inner, fun name => hnewtype name inner⟩
    · exact hsome
    · exact hnewtype

theorem quoted_head {s : String} {text : List Char} (h : quoted s = .ok text) : text.head? = some '"' := by
  rw [quoted] at h
  split at h
  · rw [← Except.ok.inj h, List.head?_cons]
  · cases h

theorem signedDecimal_ne_null (n : ℤ) : signedDecimal n ≠ "null".toList := by
  rw [signedDecimal]
  split_ifs
  · exact fun h => absurd (List.cons.inj h).1 (by decide)
  · intro h
    have hmem : 'n' ∈ decimal n.natAbs := h ▸ List.mem_cons_self ..
    exact absurd (isDigit_toDigits n.natAbs 'n' hmem) (by decide)

/-- What is not written as its content does not begin as `null` does. -/
theorem write_ne_null {value : SerdeValue} (hcontent : value.content = value) (hnull : value.isNull = false) :
    write value ≠ .ok "null".toList := by
  intro h
  have hmap {A : Type} {first : Char} {close : A → List Char} {x : Except String A} (hfirst : first ≠ 'n')
      (h : x.map (fun a => first :: close a) = .ok "null".toList) : False := by
    obtain ⟨a, -, heq⟩ := map_eq_ok h
    exact hfirst (List.cons.inj heq).1.symm
  cases value with
  | some inner => exact (content_ne _ inner).1 hcontent
  | newtypeStruct name inner => exact (content_ne _ inner).2 name hcontent
  | bool b => cases b <;> cases Except.ok.inj h
  | int n => exact signedDecimal_ne_null n (Except.ok.inj h)
  | f32 x | f64 x =>
    rw [write, if_pos (Bool.not_eq_false' .. ▸ hnull)] at h
    cases h
  | char _ | str _ | unitVariant _ _ _ => cases quoted_head h
  | bytes data => cases Except.ok.inj h
  | none | unit | unitStruct _ => cases hnull
  | seq _ | tuple _ | tupleStruct _ _ => exact hmap (by decide) h
  | map _ | struct _ _ | newtypeVariant _ _ _ _ | tupleVariant _ _ _ _ | structVariant _ _ _ _ => exact hmap (by decide) h

end Text

section Documents

theorem documents_forall₂ {items : List SerdeValue} {out : List Json} (h : documents items = .ok out) :
    List.Forall₂ (fun item content => document item = .ok content) items out := by
  induction items generalizing out with
  | nil =>
    obtain rfl := Except.ok.inj h
    exact .nil
  | cons item items ih =>
    rw [documents] at h
    obtain ⟨content, rest, hcontent, hrest, rfl⟩ := both_eq_ok h
    exact .cons hcontent (ih hrest)

theorem entryDocuments_forall₂ {entries : List (SerdeValue × SerdeValue)} {members : List (String × Json)}
    (h : entryDocuments entries = .ok members) :
    List.Forall₂ (fun entry member => entry.1.isKey ∧ keyText entry.1 = .ok member.1 ∧ document entry.2 = .ok member.2)
      entries members := by
  induction entries generalizing members with
  | nil =>
    obtain rfl := Except.ok.inj h
    exact .nil
  | cons entry entries ih =>
    rw [entryDocuments] at h
    obtain ⟨member, rest, hmember, hrest, rfl⟩ := both_eq_ok h
    obtain ⟨name, content, hname, hcontent, rfl⟩ := both_eq_ok hmember
    exact .cons ⟨isKey_of_keyText hname, hname, hcontent⟩ (ih hrest)

theorem fieldDocuments_forall₂ {fields : List (String × SerdeValue)} {members : List (String × Json)}
    (h : fieldDocuments fields = .ok members) :
    List.Forall₂ (fun field member => field.1 = member.1 ∧ document field.2 = .ok member.2) fields members := by
  induction fields generalizing members with
  | nil =>
    obtain rfl := Except.ok.inj h
    exact .nil
  | cons field fields ih =>
    rw [fieldDocuments] at h
    obtain ⟨member, rest, hmember, hrest, rfl⟩ := both_eq_ok h
    obtain ⟨content, hcontent, rfl⟩ := map_eq_ok hmember
    exact .cons ⟨rfl, hcontent⟩ (ih hrest)

theorem lookup_filter_ne {name other : String} (hne : name ≠ other) (members : List (String × Json)) :
    (members.filter (·.1 != other)).lookup name = members.lookup name := by
  induction members with
  | nil => rfl
  | cons member members ih =>
    rw [List.filter_cons]
    split_ifs with hkept
    · rw [List.lookup_cons, List.lookup_cons, ih]
    · have hother : member.1 = other := by simpa using hkept
      have hdiffers : (name == member.1) = false := by rw [hother]; exact beq_false_of_ne hne
      rw [ih, List.lookup_cons, hdiffers]

theorem lookup_firstOf (members : List (String × Json)) (name : String) : (firstOf members).lookup name = members.lookup name := by
  induction members with
  | nil => rfl
  | cons member members ih =>
    rw [firstOf, List.lookup_cons, List.lookup_cons]
    cases hsame : name == member.1 with
    | true => rfl
    | false => exact (lookup_filter_ne (ne_of_beq_false hsame) _).trans ih

theorem document_ne_null {value : SerdeValue} (hcontent : value.content = value) (hnull : value.isNull = false) :
    document value ≠ .ok .null := by
  intro h
  have hmap {A : Type} {build : A → Json} {x : Except String A} (hbuild : ∀ a, build a ≠ .null)
      (h : x.map build = .ok .null) : False := by
    obtain ⟨a, -, heq⟩ := map_eq_ok h
    exact hbuild a heq.symm
  cases value with
  | some inner => exact (content_ne _ inner).1 hcontent
  | newtypeStruct name inner => exact (content_ne _ inner).2 name hcontent
  | int n =>
    rw [document, integer] at h
    split_ifs at h <;> cases h
  | f32 x | f64 x =>
    rw [document, if_pos (Bool.not_eq_false' .. ▸ hnull)] at h
    cases h
  | bool _ | char _ | str _ | bytes _ | unitVariant _ _ _ => cases h
  | none | unit | unitStruct _ => cases hnull
  | _ => exact hmap (fun _ hbuild => by cases hbuild) h

end Documents

theorem utf8_null : utf8Bytes "null".toList = nullBytes := by decide

/-- The writer as one of `serde_json`'s. -/
def writer : SerdeJson where
  toVec value := (write value).map utf8Bytes
  toValue := document
  keyText := keyText
  toVec_some _ := rfl
  toVec_newtypeStruct _ _ := rfl
  toVec_null {value} h := by
    cases value with
    | none | unit | unitStruct _ => rw [write, Except.map, utf8_null]
    | f32 x | f64 x =>
      rw [write, if_neg (Bool.eq_false_iff.1 (Bool.not_eq_true' _ ▸ h)), Except.map, utf8_null]
    | _ => cases h
  toVec_ne_null {value} hcontent hnull h := by
    obtain ⟨text, htext, heq⟩ := map_eq_ok h
    rw [← utf8_null] at heq
    exact write_ne_null hcontent hnull (utf8Bytes_inj heq ▸ htext)
  toVec_written {value text} h part hpart := by
    obtain ⟨whole, hwhole, rfl⟩ := map_eq_ok h
    obtain ⟨inner, hinner, hwithin⟩ := write_written hwhole part hpart
    exact ⟨utf8Bytes inner, by rw [hinner, Except.map], utf8Bytes_infix_iff.2 hwithin⟩
  toVec_keys {entries text} h entry hentry := by
    obtain ⟨whole, hwhole, rfl⟩ := map_eq_ok h
    obtain ⟨texts, htexts, rfl⟩ := map_eq_ok hwhole
    obtain ⟨⟨name, hname⟩, -⟩ := writeEntries_mem htexts hentry
    exact isKey_of_keyText hname
  toValue_some _ := rfl
  toValue_newtypeStruct _ _ := rfl
  toValue_null {value} h := by
    cases value with
    | none | unit | unitStruct _ => rfl
    | f32 x | f64 x => rw [document, if_neg (Bool.eq_false_iff.1 (Bool.not_eq_true' _ ▸ h))]
    | _ => cases h
  toValue_ne_null := document_ne_null
  toValue_seq {items out} h := by
    obtain ⟨contents, hcontents, rfl⟩ := map_eq_ok h
    exact ⟨contents, documents_forall₂ hcontents, rfl⟩
  toValue_tuple _ := rfl
  toValue_tupleStruct _ _ := rfl
  toValue_map {entries out} h := by
    obtain ⟨members, hmembers, rfl⟩ := map_eq_ok h
    exact ⟨members, _, entryDocuments_forall₂ hmembers, rfl, lookup_firstOf _⟩
  toValue_struct {name fields out} h := by
    obtain ⟨members, hmembers, rfl⟩ := map_eq_ok h
    exact ⟨members, _, fieldDocuments_forall₂ hmembers, rfl, lookup_firstOf _⟩
  toValue_newtypeVariant _ _ _ _ := rfl
  toValue_tupleVariant _ _ _ _ := rfl
  toValue_structVariant _ _ _ _ := rfl

end TideOrm.JsonWriter
