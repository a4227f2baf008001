import TideOrm.Spec.EagerLoad

/-! An eager load gives each parent the rows of its lazy relation, unless a parent without a key
stands beside one whose key is the text `null`. -/

namespace TideOrm

open Lib

section Texts

theorem anyRepeated_eq_false {α : Type} [DecidableEq α] (l : List α) : ∀ seen : List α,
    anyRepeated seen l = false → l.Nodup ∧ ∀ a ∈ l, a ∉ seen := by
  induction l with
  | nil => intro seen _; simp
  | cons a rest ih =>
    intro seen h
    rw [anyRepeated, Bool.or_eq_false_iff, decide_eq_false_iff_not] at h
    obtain ⟨hnodup, hseen⟩ := ih (a :: seen) h.2
    refine ⟨List.nodup_cons.2 ⟨fun hmem => hseen a hmem List.mem_cons_self, hnodup⟩, fun b hb => ?_⟩
    rcases List.mem_cons.1 hb with rfl | hb
    · exact h.1
    · exact fun hmem => hseen b hb (List.mem_cons_of_mem a hmem)

/-- Two keys of one type have one text only if they are one key. -/
theorem relationKey_inj {a b : KeyValue} (ha : a ≠ .null) (hb : b ≠ .null) (htype : sameType a b = true)
    (h : relationKey a = relationKey b) : a = b := by
  cases a with
  | null => exact absurd rfl ha
  | bool x =>
    cases b with
    | null => exact absurd rfl hb
    | bool y =>
      revert h
      cases x <;> cases y <;> decide
    | number y => cases htype
    | string y => cases htype
  | number x =>
    cases b with
    | null => exact absurd rfl hb
    | bool y => cases htype
    | number y => exact congrArg KeyValue.number (Subtype.ext h)
    | string y => cases htype
  | string x =>
    cases b with
    | null => exact absurd rfl hb
    | bool y => cases htype
    | number y => cases htype
    | string y => exact congrArg KeyValue.string h

theorem mem_texts {keys : List KeyValue} {text : String} :
    text ∈ (keys.filterMap fun | .string text => some text | _ => none) ↔ .string text ∈ keys := by
  rw [List.mem_filterMap]
  refine ⟨fun ⟨key, hmem, hkey⟩ => ?_, fun hmem => ⟨_, hmem, rfl⟩⟩
  cases key with
  | string text' =>
    obtain rfl := Option.some.inj hkey
    exact hmem
  | null => cases hkey
  | bool b => cases hkey
  | number n => cases hkey

/-- Texts that the code takes apart are not equal for the database. -/
theorem eq_of_not_foldTogether {equal : KeyValue → KeyValue → Bool} (hequal : DatabaseEquality equal)
    {keys : List KeyValue} (hfold : foldTogether keys = false) {a b : String} (ha : .string a ∈ keys)
    (hb : .string b ∈ keys) (h : equal (.string a) (.string b) = true) : a = b := by
  rw [← mem_texts] at ha hb
  unfold foldTogether at hfold
  dsimp only at hfold
  generalize (keys.filterMap fun | .string text => some text | _ => none) = texts at ha hb hfold
  split_ifs at hfold with hlen hascii
  · -- a single text
    obtain ⟨text, rfl⟩ : ∃ text, texts = [text] := List.length_eq_one_iff.1 (by
      have hpos := List.length_pos_of_mem ha
      omega)
    rw [List.mem_singleton.1 ha, List.mem_singleton.1 hb]
  · have hprintable {text : String} (hmem : text ∈ texts) : isPrintableAscii text = true := by
      by_contra hnot
      exact hascii (List.any_eq_true.2 ⟨text, hmem, by simpa using hnot⟩)
    have hfolded : foldedText a = foldedText b := hequal.ascii _ _ (hprintable ha) (hprintable hb) h
    exact List.inj_on_of_nodup_map (anyRepeated_eq_false _ _ hfold).1 ha hb hfolded

end Texts

section Rows

variable {Row : Type} (t : RelatedTable Row) (foreignKey : String) (morphType : Option (String × String))

def isOfType (row : Row) : Bool :=
  match morphType with
  | none => true
  | some (typeColumn, typeValue) => t.holds typeColumn (.string typeValue) row

def keyEqual (key : KeyValue) (row : Row) : Bool :=
  t.column foreignKey row != .null && t.equal foreignKey (t.column foreignKey row) key

/-- The rows whose foreign key is equal to a key. -/
def matchedRows (key : KeyValue) : List Row :=
  t.rows.filter fun row => t.inScope row && isOfType t morphType row && keyEqual t foreignKey key row

/-- The rows of one query's keys. -/
def queryRows (chunk : List KeyValue) : List Row := t.ofType morphType (t.whereIn foreignKey chunk t.query)

variable {t foreignKey morphType}

theorem holds_eq {key : KeyValue} (hkey : key ≠ .null) (row : Row) :
    t.holds foreignKey key row = keyEqual t foreignKey key row := by
  unfold RelatedTable.holds keyEqual
  cases key with
  | null => exact absurd rfl hkey
  | bool b => cases t.column foreignKey row <;> simp
  | number n => cases t.column foreignKey row <;> simp
  | string s => cases t.column foreignKey row <;> simp

theorem keyEqual_iff {key : KeyValue} {row : Row} : keyEqual t foreignKey key row = true ↔
    t.column foreignKey row ≠ .null ∧ t.equal foreignKey (t.column foreignKey row) key = true := by
  rw [keyEqual, Bool.and_eq_true, bne_iff_ne]

theorem ofType_eq (rows : List Row) : t.ofType morphType rows = rows.filter (isOfType t morphType) := by
  cases morphType with
  | none => exact (List.filter_eq_self.2 fun _ _ => rfl).symm
  | some type => rfl

theorem ofType_whereEq {key : KeyValue} (hkey : key ≠ .null) :
    t.ofType morphType (t.whereEq foreignKey key t.query) = matchedRows t foreignKey morphType key := by
  rw [ofType_eq, RelatedTable.whereEq, RelatedTable.query, List.filter_filter, List.filter_filter, matchedRows]
  refine List.filter_congr fun row _ => ?_
  rw [holds_eq hkey]
  ac_rfl

theorem lazyRows_of_ne_null {key : KeyValue} (hkey : key ≠ .null) :
    t.lazyRows foreignKey morphType key = matchedRows t foreignKey morphType key := by
  rw [RelatedTable.lazyRows, RelatedTable.whereKey, if_neg hkey, ofType_eq, RelatedTable.query, RelatedTable.whereEq,
    List.filter_filter, List.filter_filter, matchedRows]
  refine List.filter_congr fun row _ => ?_
  rw [holds_eq hkey]
  ac_rfl

theorem lazyRows_null : t.lazyRows foreignKey morphType .null = [] := by
  rw [RelatedTable.lazyRows, RelatedTable.whereKey, if_pos rfl, RelatedTable.whereIn]
  exact List.filter_eq_nil_iff.2 fun row _ => by simp

/-- A row of one query is equal to one of its keys. -/
theorem mem_queryRows {chunk : List KeyValue} (hnull : .null ∉ chunk) {row : Row} :
    row ∈ queryRows t foreignKey morphType chunk ↔ ∃ key ∈ chunk, row ∈ matchedRows t foreignKey morphType key := by
  simp only [queryRows, ofType_eq, RelatedTable.whereIn, RelatedTable.query, matchedRows, List.mem_filter,
    List.any_eq_true, Bool.and_eq_true, bne_iff_ne]
  refine ⟨fun ⟨⟨⟨hrow, hscope⟩, key, hkey, hne, hholds⟩, htype⟩ => ?_, fun ⟨key, hkey, hrow, ⟨hscope, htype⟩, hequal⟩ => ?_⟩
  · exact ⟨key, hkey, hrow, ⟨hscope, htype⟩, holds_eq hne row ▸ hholds⟩
  · have hne : key ≠ .null := fun h => hnull (h ▸ hkey)
    exact ⟨⟨⟨hrow, hscope⟩, key, hkey, hne, (holds_eq hne row).trans hequal⟩, htype⟩

/-- Of the rows of one query, those equal to one of its keys are all there are. -/
theorem filter_queryRows {chunk : List KeyValue} (hnull : .null ∉ chunk) {key : KeyValue} (hkey : key ∈ chunk) :
    (queryRows t foreignKey morphType chunk).filter (keyEqual t foreignKey key) = matchedRows t foreignKey morphType key := by
  have hne : key ≠ .null := fun h => hnull (h ▸ hkey)
  rw [queryRows, ofType_eq, RelatedTable.whereIn, RelatedTable.query, List.filter_filter, List.filter_filter,
    List.filter_filter, matchedRows]
  refine List.filter_congr fun row _ => ?_
  by_cases hequal : keyEqual t foreignKey key row = true
  · have hany : (chunk.any fun key => key != .null && t.holds foreignKey key row) = true := by
      refine List.any_eq_true.2 ⟨key, hkey, ?_⟩
      rw [holds_eq hne, hequal, Bool.and_true]
      exact bne_iff_ne.2 hne
    rw [hequal, hany]
    ac_rfl
  · simp only [Bool.eq_false_iff.2 hequal, Bool.false_and, Bool.and_false]

/-- A row of one query is among those of each key it is equal to. -/
theorem mem_matchedRows {chunk : List KeyValue} (hnull : .null ∉ chunk) {row : Row}
    (hrow : row ∈ queryRows t foreignKey morphType chunk) {key : KeyValue} (hkey : key ∈ chunk) :
    row ∈ matchedRows t foreignKey morphType key ↔ keyEqual t foreignKey key row = true := by
  rw [← filter_queryRows hnull hkey, List.mem_filter]
  exact and_iff_right hrow

end Rows

section Pairs

variable {Row : Type} {t : RelatedTable Row} {foreignKey : String} {morphType : Option (String × String)}

/-- The map of the pairs seen so far, each once. -/
structure Paired (pairs : Pairs) : Prop where
  mem : ∀ stored key, key ∈ pairs.1.group stored ↔ (stored, key) ∈ pairs.2
  nodup : ∀ stored, (pairs.1.group stored).Nodup

theorem addPair_spec {keys : List KeyValue} {pairs : Pairs} (h : Paired pairs) {row : KeyValue × ℕ} {key : KeyValue}
    (hkey : keys[row.2]? = some key) : ∃ pairs', addPair t keys pairs row = .ok pairs' ∧ Paired pairs' ∧
      ∀ pair, pair ∈ pairs'.2 ↔ pair ∈ pairs.2 ∨ pair = (relationKey row.1, relationKey key) := by
  rw [addPair, hkey]
  dsimp only
  by_cases hseen : (relationKey row.1, relationKey key) ∈ pairs.2
  · refine ⟨pairs, if_pos hseen, h, fun pair => ⟨Or.inl, ?_⟩⟩
    rintro (hpair | rfl)
    · exact hpair
    · exact hseen
  · refine ⟨_, if_neg hseen, ⟨fun stored key' => ?_, fun stored => ?_⟩, fun pair => ?_⟩
    · rw [AList.group_push, List.mem_append, h.mem, List.mem_cons, Prod.mk.injEq, or_comm]
      by_cases hstored : stored = relationKey row.1
      · simp [hstored]
      · simp [hstored]
    · rw [AList.group_push]
      by_cases hstored : stored = relationKey row.1
      · rw [if_pos hstored, List.nodup_append]
        refine ⟨h.nodup stored, List.nodup_singleton _, fun a ha b hb => ?_⟩
        rw [List.mem_singleton.1 hb]
        rintro rfl
        exact hseen (hstored ▸ (h.mem _ _).1 ha)
      · rw [if_neg hstored, List.append_nil]
        exact h.nodup stored
    · rw [List.mem_cons, or_comm]

/-- The pairs of a run of rows, whose indices are those of looked up keys. -/
theorem addPairs_spec {keys : List KeyValue} (rows : List (KeyValue × ℕ)) : ∀ {pairs : Pairs}, Paired pairs →
    (∀ row ∈ rows, ∃ key, keys[row.2]? = some key) → ∃ pairs', rows.foldlM (addPair t keys) pairs = .ok pairs' ∧
      Paired pairs' ∧ ∀ stored key, (stored, key) ∈ pairs'.2 ↔ (stored, key) ∈ pairs.2 ∨
        ∃ row ∈ rows, relationKey row.1 = stored ∧ (keys[row.2]?).map relationKey = some key := by
  induction rows with
  | nil => exact fun h _ => ⟨_, rfl, h, by simp⟩
  | cons row rest ih =>
    intro pairs h hindex
    obtain ⟨key, hkey⟩ := hindex row List.mem_cons_self
    obtain ⟨pairs₁, hstep, h₁, hmem₁⟩ := addPair_spec (t := t) h hkey
    obtain ⟨pairs₂, hrest, h₂, hmem₂⟩ := ih h₁ fun row' hrow' => hindex row' (List.mem_cons_of_mem row hrow')
    refine ⟨pairs₂, ?_, h₂, fun stored key' => ?_⟩
    · rw [List.foldlM_cons, hstep]
      exact hrest
    · rw [hmem₂, hmem₁, or_assoc]
      simp only [List.mem_cons, exists_eq_or_imp, hkey, Option.map_some, Option.some_inj, Prod.mk.injEq]
      rw [eq_comm (a := stored), eq_comm (a := key')]

/-- The batches together look up each key under its own index. -/
theorem matchingKeys_eq (keys : List KeyValue) :
    matchingKeys t foreignKey morphType keys =
      ((keys.zipIdx.flatMap (pairLookup t foreignKey morphType)).foldlM (addPair t keys) (∅, [])).map Prod.fst := by
  have hindex := flatMap_chunks_zipIdx (n := pairedKeysPerQuery) (by decide) keys 0
  rw [Nat.zero_mul] at hindex
  rw [← hindex, List.flatMap_assoc, foldlM_flatMap]
  rfl

theorem mem_pairLookup {indexed row : KeyValue × ℕ} (hkey : indexed.1 ≠ .null) :
    row ∈ pairLookup t foreignKey morphType indexed ↔
      row.2 = indexed.2 ∧ ∃ r ∈ matchedRows t foreignKey morphType indexed.1, t.column foreignKey r = row.1 := by
  rw [pairLookup, ofType_whereEq hkey]
  simp only [List.mem_map, List.mem_dedup, Prod.ext_iff]
  grind

theorem matchingKeys_spec (t : RelatedTable Row) (foreignKey : String) (morphType : Option (String × String))
    {keys : List KeyValue} (hnull : .null ∉ keys) :
    ∃ pairs, matchingKeys t foreignKey morphType keys = .ok pairs ∧ (∀ stored, (pairs.group stored).Nodup) ∧
      ∀ stored text, text ∈ pairs.group stored ↔ ∃ key ∈ keys, relationKey key = text ∧
        ∃ row ∈ matchedRows t foreignKey morphType key, relationKey (t.column foreignKey row) = stored := by
  have hindexed {indexed : KeyValue × ℕ} (hmem : indexed ∈ keys.zipIdx) :
      keys[indexed.2]? = some indexed.1 ∧ indexed.1 ∈ keys ∧ indexed.1 ≠ .null := by
    have hget := List.mem_zipIdx_iff_getElem?.1 hmem
    have hin := List.mem_of_getElem? hget
    exact ⟨hget, hin, fun h => hnull (h ▸ hin)⟩
  have hempty : Paired (∅, []) := ⟨fun stored key => by simp [AList.group], fun stored => by simp [AList.group]⟩
  obtain ⟨pairs, hok, hpaired, hmem⟩ := addPairs_spec (t := t)
    (keys.zipIdx.flatMap (pairLookup t foreignKey morphType)) hempty fun row hrow => by
      obtain ⟨indexed, hmem, hrow⟩ := List.mem_flatMap.1 hrow
      rw [((mem_pairLookup (hindexed hmem).2.2).1 hrow).1]
      exact ⟨_, (hindexed hmem).1⟩
  refine ⟨pairs.1, ?_, hpaired.nodup, fun stored text => ?_⟩
  · rw [matchingKeys_eq, hok]
    rfl
  · rw [hpaired.mem, hmem]
    constructor
    · rintro (hnone | ⟨row, hrow, hstored, hkey⟩)
      · exact absurd hnone List.not_mem_nil
      · obtain ⟨indexed, hmem, hrow⟩ := List.mem_flatMap.1 hrow
        obtain ⟨hget, hin, hne⟩ := hindexed hmem
        obtain ⟨hindex, r, hr, hcolumn⟩ := (mem_pairLookup hne).1 hrow
        rw [hindex, hget, Option.map_some, Option.some_inj] at hkey
        exact ⟨indexed.1, hin, hkey, r, hr, hcolumn ▸ hstored⟩
    · rintro ⟨k, hk, hkey, r, hr, hstored⟩
      obtain ⟨i, hi⟩ := List.mem_iff_getElem?.1 hk
      have hmem : (k, i) ∈ keys.zipIdx := List.mem_zipIdx_iff_getElem?.2 hi
      refine Or.inr ⟨(t.column foreignKey r, i), List.mem_flatMap.2 ⟨(k, i), hmem, ?_⟩, hstored, ?_⟩
      · exact (mem_pairLookup (hindexed hmem).2.2).2 ⟨rfl, r, hr, rfl⟩
      · rw [hi, Option.map_some, hkey]

end Pairs

section Groups

variable {Row : Type} (t : RelatedTable Row) (foreignKey : String) (morphType : Option (String × String))

/-- The rows of one query are grouped by their own keys' texts, with no pairing. -/
def groupsByText (chunk : List KeyValue) : Bool :=
  (queryRows t foreignKey morphType chunk).all (fun row => relationKey (t.column foreignKey row) ∈ chunk.map relationKey) &&
    !foldTogether chunk

/-- The row joins the group of the text. -/
def Picked (chunk : List KeyValue) (text : String) (row : Row) : Prop :=
  if groupsByText t foreignKey morphType chunk then text = relationKey (t.column foreignKey row)
  else ∃ key ∈ chunk, relationKey key = text ∧
    ∃ row' ∈ matchedRows t foreignKey morphType key, relationKey (t.column foreignKey row') = relationKey (t.column foreignKey row)

variable {t foreignKey morphType}

/-- The group of a text is that of a key of the query. -/
theorem Picked.mem {chunk : List KeyValue} {text : String} {row : Row} (h : Picked t foreignKey morphType chunk text row)
    (hrow : row ∈ queryRows t foreignKey morphType chunk) : text ∈ chunk.map relationKey := by
  unfold Picked at h
  split_ifs at h with hgroups
  · rw [groupsByText, Bool.and_eq_true, List.all_eq_true] at hgroups
    rw [h]
    exact of_decide_eq_true (hgroups.1 row hrow)
  · obtain ⟨key, hkey, rfl, -⟩ := h
    exact List.mem_map_of_mem hkey

open Classical in
theorem loadChunk_spec (morphType : Option (String × String)) {chunk : List KeyValue} (hnull : .null ∉ chunk)
    (grouped : HashMap String (List Row)) :
    ∃ grouped', loadChunk t foreignKey morphType grouped chunk = .ok grouped' ∧ ∀ text, grouped'.group text =
      grouped.group text ++ (queryRows t foreignKey morphType chunk).filter fun row => Picked t foreignKey morphType chunk text row := by
  unfold loadChunk
  dsimp only
  rw [List.all_map, List.foldl_map]
  split_ifs with hgroups
  · have hgroups' : groupsByText t foreignKey morphType chunk = true := hgroups
    refine ⟨_, rfl, AList.group_foldl _ (fun grouped row hrow text => ?_) grouped⟩
    rw [AList.group_push]
    simp only [Picked, hgroups', if_true, decide_eq_true_eq]
  · have hgroups' : ¬groupsByText t foreignKey morphType chunk = true := hgroups
    obtain ⟨pairs, hpairs, hnodup, hmem⟩ := matchingKeys_spec t foreignKey morphType hnull
    rw [hpairs]
    refine ⟨_, rfl, ?_⟩
    rw [List.foldl_map]
    refine AList.group_foldl _ (fun grouped row hrow text => ?_) grouped
    obtain ⟨key, hkey, hmatched⟩ := (mem_queryRows hnull).1 hrow
    have hpair : relationKey key ∈ pairs.group (relationKey (t.column foreignKey row)) :=
      (hmem _ _).2 ⟨key, hkey, rfl, row, hmatched, rfl⟩
    dsimp only
    cases hlookup : pairs.lookup (relationKey (t.column foreignKey row)) with
    | none =>
      rw [AList.group, hlookup] at hpair
      exact absurd hpair List.not_mem_nil
    | some matched =>
      have hgroup : matched = pairs.group (relationKey (t.column foreignKey row)) := by
        rw [AList.group, hlookup, Option.getD_some]
      dsimp only
      rw [AList.group_foldl_push _ _ _ _ (hgroup ▸ hnodup _), hgroup]
      simp only [Picked, if_neg hgroups', hmem, decide_eq_true_eq]

/-- The keys that are looked up: each text of a key that is not null once. -/
theorem lookupKeys_spec (keys : List KeyValue) : ∀ seen : List String,
    .null ∉ lookupKeys seen keys ∧ (∀ key ∈ lookupKeys seen keys, key ∈ keys) ∧
    ((lookupKeys seen keys).map relationKey).Nodup ∧
    ∀ text, text ∈ (lookupKeys seen keys).map relationKey ↔ text ∉ seen ∧ ∃ key ∈ keys, key ≠ .null ∧ relationKey key = text := by
  induction keys with
  | nil => intro seen; simp [lookupKeys]
  | cons key rest ih =>
    intro seen
    rw [lookupKeys]
    split_ifs with hnull hseen
    · obtain ⟨hno, hsub, hnodup, htexts⟩ := ih seen
      refine ⟨hno, fun k hk => List.mem_cons_of_mem key (hsub k hk), hnodup, fun text => ?_⟩
      rw [htexts]
      simp [hnull]
    · obtain ⟨hno, hsub, hnodup, htexts⟩ := ih seen
      refine ⟨hno, fun k hk => List.mem_cons_of_mem key (hsub k hk), hnodup, fun text => ?_⟩
      rw [htexts, List.exists_mem_cons_iff]
      refine and_congr_right fun htext => ⟨Or.inr, ?_⟩
      rintro (⟨-, rfl⟩ | h)
      · exact absurd hseen htext
      · exact h
    · obtain ⟨hno, hsub, hnodup, htexts⟩ := ih (relationKey key :: seen)
      refine ⟨?_, ?_, ?_, fun text => ?_⟩
      · rw [List.mem_cons, not_or]
        exact ⟨Ne.symm hnull, hno⟩
      · intro k hk
        rcases List.mem_cons.1 hk with rfl | hk
        · exact List.mem_cons_self
        · exact List.mem_cons_of_mem key (hsub k hk)
      · rw [List.map_cons, List.nodup_cons, htexts]
        exact ⟨fun h => h.1 List.mem_cons_self, hnodup⟩
      · rw [List.map_cons, List.mem_cons, htexts, List.mem_cons, List.exists_mem_cons_iff]
        by_cases htext : text = relationKey key
        · simp [htext, hnull, hseen]
        · simp [htext, Ne.symm htext]

open Classical in
theorem loadChunks_spec (morphType : Option (String × String)) (pieces : List (List KeyValue)) :
    ∀ grouped : HashMap String (List Row), .null ∉ pieces.flatten →
    ∃ grouped', pieces.foldlM (loadChunk t foreignKey morphType) grouped = .ok grouped' ∧ ∀ text, grouped'.group text =
      grouped.group text ++ pieces.flatMap fun chunk =>
        (queryRows t foreignKey morphType chunk).filter fun row => Picked t foreignKey morphType chunk text row := by
  induction pieces with
  | nil => exact fun grouped _ => ⟨grouped, rfl, by simp⟩
  | cons chunk rest ih =>
    intro grouped hnull
    rw [List.flatten_cons, List.mem_append, not_or] at hnull
    obtain ⟨grouped₁, hchunk, hgroup₁⟩ := loadChunk_spec morphType hnull.1 grouped
    obtain ⟨grouped₂, hrest, hgroup₂⟩ := ih grouped₁ hnull.2
    refine ⟨grouped₂, ?_, fun text => ?_⟩
    · rw [List.foldlM_cons, hchunk]
      exact hrest
    · rw [hgroup₂, hgroup₁, List.flatMap_cons, List.append_assoc]

open Classical in
/-- Only the query of its key fills a text's group. -/
theorem flatMap_joins {pieces : List (List KeyValue)} (hnodup : (pieces.flatten.map relationKey).Nodup)
    {chunk : List KeyValue} (hchunk : chunk ∈ pieces) {key : KeyValue} (hkey : key ∈ chunk) :
    (pieces.flatMap fun chunk => (queryRows t foreignKey morphType chunk).filter fun row =>
        Picked t foreignKey morphType chunk (relationKey key) row) =
      (queryRows t foreignKey morphType chunk).filter fun row => Picked t foreignKey morphType chunk (relationKey key) row := by
  have hempty : ∀ pieces : List (List KeyValue), relationKey key ∉ pieces.flatten.map relationKey →
      (pieces.flatMap fun chunk => (queryRows t foreignKey morphType chunk).filter fun row =>
        Picked t foreignKey morphType chunk (relationKey key) row) = [] := by
    intro pieces hno
    refine List.flatMap_eq_nil_iff.2 fun chunk hchunk => List.filter_eq_nil_iff.2 fun row hrow hjoins => hno ?_
    rw [List.map_flatten]
    exact List.mem_flatten.2 ⟨_, List.mem_map_of_mem hchunk, (of_decide_eq_true hjoins).mem hrow⟩
  obtain ⟨before, after, rfl⟩ := List.append_of_mem hchunk
  rw [List.flatten_append, List.flatten_cons, List.map_append, List.map_append, List.nodup_append, List.nodup_append] at hnodup
  obtain ⟨-, ⟨-, -, hafter⟩, hbefore⟩ := hnodup
  have hmem : relationKey key ∈ chunk.map relationKey := List.mem_map_of_mem hkey
  rw [List.flatMap_append, List.flatMap_cons, hempty before fun h => hbefore _ h _ (List.mem_append_left _ hmem) rfl,
    hempty after fun h => hafter _ hmem _ h rfl, List.nil_append, List.append_nil]

open Classical in
theorem loadGroupedByKey_spec (t : RelatedTable Row) (foreignKey : String) (morphType : Option (String × String))
    (keys : List KeyValue) :
    ∃ grouped, loadGroupedByKey t foreignKey morphType keys = .ok grouped ∧
      (∀ text, (∀ key ∈ keys, key ≠ .null → relationKey key ≠ text) → grouped.group text = []) ∧
      ∀ chunk ∈ chunks 5000 (lookupKeys [] keys), ∀ key ∈ chunk, grouped.group (relationKey key) =
        (queryRows t foreignKey morphType chunk).filter fun row => Picked t foreignKey morphType chunk (relationKey key) row := by
  obtain ⟨hnull, hsub, hnodup, htexts⟩ := lookupKeys_spec keys []
  have hflatten := flatten_chunks (n := 5000) (by decide) (lookupKeys [] keys)
  obtain ⟨grouped, hok, hgroup⟩ := @loadChunks_spec _ t foreignKey morphType
    (chunks 5000 (lookupKeys [] keys)) ∅ (by rw [hflatten]; exact hnull)
  have hgroup' : ∀ text, grouped.group text = (chunks 5000 (lookupKeys [] keys)).flatMap fun chunk =>
      (queryRows t foreignKey morphType chunk).filter fun row => Picked t foreignKey morphType chunk text row := hgroup
  refine ⟨grouped, hok, fun text hno => ?_, fun chunk hchunk key hkey => ?_⟩
  · rw [hgroup']
    refine List.flatMap_eq_nil_iff.2 fun chunk hchunk => List.filter_eq_nil_iff.2 fun row hrow hjoins => ?_
    obtain ⟨key, hkey, rfl⟩ := List.mem_map.1 ((of_decide_eq_true hjoins).mem hrow)
    have hmem : key ∈ lookupKeys [] keys := hflatten ▸ List.mem_flatten.2 ⟨chunk, hchunk, hkey⟩
    exact hno key (hsub key hmem) (fun h => hnull (h ▸ hmem)) rfl
  · rw [hgroup', flatMap_joins (by rw [hflatten]; exact hnodup) hchunk hkey]

end Groups

section Parents

theorem lookup_foldl_insert_of_notMem {V : Type} (l : List (String × V)) : ∀ (m : HashMap String V) {key : String},
    key ∉ l.map Prod.fst → (l.foldl (fun (m : HashMap String V) (key, v) => m.insert key v) m).lookup key = m.lookup key := by
  induction l with
  | nil => exact fun m key _ => rfl
  | cons e rest ih =>
    intro m key hkey
    rw [List.map_cons, List.mem_cons, not_or] at hkey
    rw [List.foldl_cons, ih _ hkey.2]
    exact AList.lookup_insert_ne hkey.1

/-- The last entry of a key is the one that stays. -/
theorem lookup_foldl_insert {V : Type} (l : List (String × V)) : ∀ (m : HashMap String V) {key : String}, key ∈ l.map Prod.fst →
    ∃ v, (key, v) ∈ l ∧ (l.foldl (fun (m : HashMap String V) (key, v) => m.insert key v) m).lookup key = some v := by
  induction l with
  | nil => exact fun m key hkey => absurd hkey List.not_mem_nil
  | cons e rest ih =>
    intro m key hkey
    by_cases hrest : key ∈ rest.map Prod.fst
    · obtain ⟨v, hmem, hlookup⟩ := ih (m.insert e.1 e.2) hrest
      exact ⟨v, List.mem_cons_of_mem e hmem, hlookup⟩
    · obtain rfl : key = e.1 := (List.mem_cons.1 hkey).resolve_right hrest
      refine ⟨e.2, List.mem_cons_self, ?_⟩
      rw [List.foldl_cons, lookup_foldl_insert_of_notMem rest _ hrest]
      exact AList.lookup_insert m

theorem takePerKey_eq {V : Type} (last : HashMap String ℕ) (byKey : HashMap String V) (l : List (String × ℕ)) :
    ∀ left : HashMap String V, (∀ e ∈ l, left.lookup e.1 = byKey.lookup e.1) →
    (∀ before key position after, l = before ++ (key, position) :: after → last.lookup key = some position →
      key ∉ after.map Prod.fst) →
    takePerKey last left l = l.map fun e => byKey.lookup e.1 := by
  induction l with
  | nil => exact fun left _ _ => rfl
  | cons e rest ih =>
    intro left hleft hlast
    obtain ⟨key, position⟩ := e
    rw [takePerKey, List.map_cons, hleft _ List.mem_cons_self]
    congr 1
    refine ih _ (fun e he => ?_) fun before key' position' after hsplit => ?_
    · split_ifs with hposition
      · have hnotin := hlast [] key position rest rfl hposition
        rw [AList.lookup_erase_cases, if_neg]
        · exact hleft e (List.mem_cons_of_mem _ he)
        · rintro rfl
          exact hnotin (List.mem_map_of_mem he)
      · exact hleft e (List.mem_cons_of_mem _ he)
    · exact hlast ((key, position) :: before) key' position' after (by rw [hsplit, List.cons_append])

theorem perParentKey_eq {V : Type} (parentKeys : List KeyValue) (byKey : HashMap String V) :
    perParentKey parentKeys byKey = parentKeys.map fun key => byKey.lookup (relationKey key) := by
  unfold perParentKey
  dsimp only
  rw [takePerKey_eq _ byKey _ byKey (fun _ _ => rfl)]
  · rw [show (fun e : String × ℕ => byKey.lookup e.1) = (fun key => byKey.lookup key) ∘ Prod.fst from rfl, ← List.map_map,
      List.zipIdx_map_fst, List.map_map]
    rfl
  · intro before key position after hsplit hlast hmem
    rw [hsplit, List.foldl_append, List.foldl_cons] at hlast
    obtain ⟨v, hv, hlookup⟩ := lookup_foldl_insert after _ hmem
    obtain rfl := Option.some.inj (hlookup.symm.trans hlast)
    have hnodup := List.nodup_zipIdx_map_snd (parentKeys.map relationKey)
    rw [hsplit, List.map_append, List.map_cons, List.nodup_append, List.nodup_cons] at hnodup
    exact hnodup.2.1.1 (List.mem_map_of_mem hv)

theorem eagerKeyedMany_eq {Row : Type} {t : RelatedTable Row} {foreignKey : String} {morphType : Option (String × String)}
    {parentKeys : List KeyValue} {grouped : HashMap String (List Row)}
    (h : loadGroupedByKey t foreignKey morphType parentKeys = .ok grouped) :
    eagerKeyedMany t foreignKey morphType parentKeys = .ok (parentKeys.map fun key => grouped.group (relationKey key)) := by
  rw [eagerKeyedMany, h]
  refine congrArg Except.ok ?_
  rw [perParentKey_eq, List.map_map]
  rfl

theorem numberChars_ne_n : ∀ c ∈ numberChars, c ≠ 'n' := by simp [numberChars]

/-- No other key has the text of a null. -/
theorem eq_string_null {key : KeyValue} (hnull : key ≠ .null) (h : relationKey key = "null") : key = .string "null" := by
  cases key with
  | null => exact absurd rfl hnull
  | bool b => cases b <;> exact absurd h (by decide)
  | number n =>
    have hn : 'n' ∈ n.1.toList := by
      rw [show n.1 = "null" from h]
      decide
    exact absurd rfl (numberChars_ne_n _ (n.2 _ hn))
  | string s => rw [show s = "null" from h]

def KeyValue.isText : KeyValue → Bool
  | .string _ => true
  | _ => false

theorem KeyValue.isText_iff {key : KeyValue} : key.isText = true ↔ ∃ text, key = .string text := by
  cases key <;> simp [isText]

/-- Of the rows of one query, those grouped by their texts are equal, where not both sides
are texts, to the key of their own text and to no other, and those that are paired are
equal to the same keys if their texts are the same. -/
def TextsTellKeys {Row : Type} (t : RelatedTable Row) (foreignKey : String) (morphType : Option (String × String))
    (chunk : List KeyValue) : Prop :=
  if groupsByText t foreignKey morphType chunk then
    ∀ row ∈ queryRows t foreignKey morphType chunk, ∀ key ∈ chunk,
      ¬((t.column foreignKey row).isText = true ∧ key.isText = true) →
      (t.equal foreignKey (t.column foreignKey row) key = true ↔ relationKey key = relationKey (t.column foreignKey row))
  else
    ∀ row ∈ queryRows t foreignKey morphType chunk, ∀ row' ∈ queryRows t foreignKey morphType chunk,
      relationKey (t.column foreignKey row) = relationKey (t.column foreignKey row') → ∀ key ∈ chunk,
      t.equal foreignKey (t.column foreignKey row) key = true → t.equal foreignKey (t.column foreignKey row') key = true

/-- Texts that are not folded together are equal to themselves only. -/
theorem equal_text_iff {Row : Type} {t : RelatedTable Row} {foreignKey : String} {morphType : Option (String × String)}
    (hequal : DatabaseEquality (t.equal foreignKey)) {chunk : List KeyValue} (hnull : .null ∉ chunk) (htype : OneType chunk)
    (hgroups : groupsByText t foreignKey morphType chunk = true) {row : Row}
    (hrow : row ∈ queryRows t foreignKey morphType chunk) {key : KeyValue} (hkey : key ∈ chunk)
    (hstored : (t.column foreignKey row).isText = true) (htext : key.isText = true) :
    t.equal foreignKey (t.column foreignKey row) key = true ↔ relationKey key = relationKey (t.column foreignKey row) := by
  rw [groupsByText, Bool.and_eq_true, List.all_eq_true, Bool.not_eq_true'] at hgroups
  obtain ⟨stored, hstored⟩ := KeyValue.isText_iff.1 hstored
  obtain ⟨text, rfl⟩ := KeyValue.isText_iff.1 htext
  -- the stored text is that of a key, which is a text as this one is
  obtain ⟨other, hother, hsame⟩ := List.mem_map.1 (of_decide_eq_true (hgroups.1 row hrow))
  have hothertype := htype _ hkey _ hother
  rw [hstored] at hsame ⊢
  cases other with
  | null => exact absurd hother hnull
  | bool b => cases hothertype
  | number n => cases hothertype
  | string s =>
    obtain rfl : s = stored := hsame
    refine ⟨fun h => (eq_of_not_foldTogether hequal hgroups.2 hother hkey h).symm, fun h => ?_⟩
    obtain rfl : text = s := h
    exact hequal.refl _

open Classical in
/-- The groups that one query fills are the lazy ones exactly if texts tell its keys as
the database does. -/
theorem textsTellKeys_iff {Row : Type} {t : RelatedTable Row} {foreignKey : String} {morphType : Option (String × String)}
    (hequal : DatabaseEquality (t.equal foreignKey)) {chunk : List KeyValue} (hnull : .null ∉ chunk) (htype : OneType chunk) :
    (∀ key ∈ chunk, ((queryRows t foreignKey morphType chunk).filter fun row =>
        Picked t foreignKey morphType chunk (relationKey key) row) = matchedRows t foreignKey morphType key) ↔
      TextsTellKeys t foreignKey morphType chunk := by
  have hstored : ∀ row ∈ queryRows t foreignKey morphType chunk, t.column foreignKey row ≠ .null := by
    intro row hrow
    obtain ⟨key, hkey, hmatched⟩ := (mem_queryRows hnull).1 hrow
    exact (keyEqual_iff.1 ((mem_matchedRows hnull hrow hkey).1 hmatched)).1
  have hpoint : (∀ key ∈ chunk, ((queryRows t foreignKey morphType chunk).filter fun row =>
        Picked t foreignKey morphType chunk (relationKey key) row) = matchedRows t foreignKey morphType key) ↔
      ∀ row ∈ queryRows t foreignKey morphType chunk, ∀ key ∈ chunk, (Picked t foreignKey morphType chunk (relationKey key) row ↔
        t.equal foreignKey (t.column foreignKey row) key = true) := by
    refine ⟨fun h row hrow key hkey => ?_, fun h key hkey => ?_⟩
    · have hmem : row ∈ (queryRows t foreignKey morphType chunk).filter (fun row =>
          Picked t foreignKey morphType chunk (relationKey key) row) ↔ row ∈ matchedRows t foreignKey morphType key := by
        rw [h key hkey]
      rw [mem_matchedRows hnull hrow hkey, keyEqual_iff, List.mem_filter, and_iff_right hrow, decide_eq_true_eq,
        and_iff_right (hstored row hrow)] at hmem
      exact hmem
    · rw [← filter_queryRows hnull hkey]
      refine List.filter_congr fun row hrow => ?_
      rw [Bool.eq_iff_iff, decide_eq_true_eq, h row hrow key hkey, keyEqual_iff]
      exact (and_iff_right (hstored row hrow)).symm
  rw [hpoint, TextsTellKeys]
  split_ifs with hgroups
  · refine forall_congr' fun row => forall_congr' fun hrow => forall_congr' fun key => forall_congr' fun hkey => ?_
    rw [Picked, if_pos hgroups]
    by_cases htexts : (t.column foreignKey row).isText = true ∧ key.isText = true
    · have hiff := equal_text_iff hequal hnull htype hgroups hrow hkey htexts.1 htexts.2
      simp only [hiff, htexts, not_true, false_imp_iff, and_self]
    · simp only [htexts, not_false_eq_true, true_imp_iff]
      exact Iff.comm
  · -- a key of the same text is the same key
    have hjoins : ∀ row ∈ queryRows t foreignKey morphType chunk, ∀ key ∈ chunk,
        (Picked t foreignKey morphType chunk (relationKey key) row ↔ ∃ row' ∈ queryRows t foreignKey morphType chunk,
          relationKey (t.column foreignKey row') = relationKey (t.column foreignKey row) ∧
            t.equal foreignKey (t.column foreignKey row') key = true) := by
      intro row hrow key hkey
      rw [Picked, if_neg hgroups]
      constructor
      · rintro ⟨other, hother, htext, row', hrow', hsame⟩
        obtain rfl := relationKey_inj (fun h => hnull (h ▸ hother)) (fun h => hnull (h ▸ hkey))
          (htype other hother key hkey) htext
        have hmem := (mem_queryRows hnull).2 ⟨other, hother, hrow'⟩
        exact ⟨row', hmem, hsame, (keyEqual_iff.1 ((mem_matchedRows hnull hmem hother).1 hrow')).2⟩
      · rintro ⟨row', hrow', hsame, hmatch⟩
        exact ⟨key, hkey, rfl, row', (mem_matchedRows hnull hrow' hkey).2 (keyEqual_iff.2 ⟨hstored row' hrow', hmatch⟩), hsame⟩
    refine ⟨fun h row hrow row' hrow' hsame key hkey hmatch => ?_, fun h row hrow key hkey => ?_⟩
    · exact (h row' hrow' key hkey).1 ((hjoins row' hrow' key hkey).2 ⟨row, hrow, hsame, hmatch⟩)
    · rw [hjoins row hrow key hkey]
      refine ⟨fun ⟨row', hrow', hsame, hmatch⟩ => h row' hrow' row hrow hsame key hkey hmatch, fun hmatch => ?_⟩
      exact ⟨row, hrow, rfl, hmatch⟩

/-- Every parent has the rows of its lazy relation, unless a null key stands beside the text
`null` and that text has a row, or in some query the keys' texts do not tell what the
database does. -/
theorem eager_agrees_with_lazy_iff {Row : Type} (t : RelatedTable Row) (foreignKey : String)
    (morphType : Option (String × String)) (hequal : DatabaseEquality (t.equal foreignKey)) (parentKeys : List KeyValue)
    (htype : OneType parentKeys) :
    eagerKeyedMany t foreignKey morphType parentKeys = .ok (parentKeys.map (t.lazyRows foreignKey morphType)) ↔
      ¬(.null ∈ parentKeys ∧ .string "null" ∈ parentKeys ∧ t.lazyRows foreignKey morphType (.string "null") ≠ []) ∧
      ∀ chunk ∈ chunks 5000 (lookupKeys [] parentKeys), TextsTellKeys t foreignKey morphType chunk := by
  obtain ⟨grouped, hok, hno, hgroup⟩ := loadGroupedByKey_spec t foreignKey morphType parentKeys
  obtain ⟨hnull, hsub, hnodup, htexts⟩ := lookupKeys_spec parentKeys []
  have hflatten := flatten_chunks (n := 5000) (by decide) (lookupKeys [] parentKeys)
  have hchunk : ∀ chunk ∈ chunks 5000 (lookupKeys [] parentKeys), .null ∉ chunk ∧ ∀ key ∈ chunk, key ∈ parentKeys := by
    intro chunk hchunk
    have hmem : ∀ key ∈ chunk, key ∈ lookupKeys [] parentKeys := fun key hkey =>
      hflatten ▸ List.mem_flatten.2 ⟨chunk, hchunk, hkey⟩
    exact ⟨fun h => hnull (hmem _ h), fun key hkey => hsub key (hmem key hkey)⟩
  have hkeys : ∀ key ∈ parentKeys, key ≠ .null → ∃ chunk ∈ chunks 5000 (lookupKeys [] parentKeys), key ∈ chunk := by
    intro key hkey hne
    obtain ⟨other, hother, htext⟩ := List.mem_map.1 ((htexts (relationKey key)).2 ⟨List.not_mem_nil, key, hkey, hne, rfl⟩)
    obtain rfl := relationKey_inj (fun h => hnull (h ▸ hother)) hne (htype other (hsub other hother) key hkey) htext
    rw [← hflatten] at hother
    exact List.mem_flatten.1 hother
  have hgroups : (∀ chunk ∈ chunks 5000 (lookupKeys [] parentKeys), TextsTellKeys t foreignKey morphType chunk) ↔
      ∀ key ∈ parentKeys, key ≠ .null → grouped.group (relationKey key) = t.lazyRows foreignKey morphType key := by
    refine ⟨fun h key hkey hne => ?_, fun h chunk hmem => ?_⟩
    · obtain ⟨chunk, hmem, hin⟩ := hkeys key hkey hne
      obtain ⟨hnull, hsub⟩ := hchunk chunk hmem
      rw [hgroup chunk hmem key hin, lazyRows_of_ne_null hne]
      exact (textsTellKeys_iff hequal hnull fun a ha b hb => htype a (hsub a ha) b (hsub b hb)).2 (h chunk hmem) key hin
    · obtain ⟨hnull, hsub⟩ := hchunk chunk hmem
      refine (textsTellKeys_iff hequal hnull fun a ha b hb => htype a (hsub a ha) b (hsub b hb)).1 fun key hin => ?_
      have hne : key ≠ .null := fun h => hnull (h ▸ hin)
      rw [← hgroup chunk hmem key hin, h key (hsub key hin) hne, lazyRows_of_ne_null hne]
  rw [eagerKeyedMany_eq hok, Except.ok.injEq, List.map_inj_left, hgroups]
  constructor
  · refine fun h => ⟨?_, fun key hkey _ => h key hkey⟩
    rintro ⟨hnull, hstring, hne⟩
    have hrows := h .null hnull
    rw [lazyRows_null] at hrows
    exact hne ((h (.string "null") hstring).symm.trans hrows)
  · rintro ⟨hnulls, h⟩ key hkey
    rcases eq_or_ne key .null with rfl | hne
    · rw [lazyRows_null]
      by_cases hstring : .string "null" ∈ parentKeys
      · have hrows : grouped.group (relationKey .null) = t.lazyRows foreignKey morphType (.string "null") :=
          h (.string "null") hstring (by simp)
        rw [hrows]
        by_contra hsome
        exact hnulls ⟨hkey, hstring, hsome⟩
      · exact hno _ fun other hother hother' htext => hstring (eq_string_null hother' htext ▸ hother)
    · exact h key hkey hne

def zeros : List KeyValue := [.number ⟨"0.0", by simp [numberChars]⟩, .number ⟨"-0.0", by simp [numberChars]⟩]

/-- A table of one row, whose key is the first of two zeros that are equal. -/
def zeroTable : RelatedTable KeyValue :=
  { name := "t", rows := zeros.take 1, inScope := fun _ => true, column := fun _ row => row,
    equal := fun _ a b => a == b || (a ∈ zeros && b ∈ zeros) }

/-- The row is the second zero's as well, but is grouped under its own text. -/
example : ¬TextsTellKeys zeroTable "k" none zeros := by
  rw [TextsTellKeys, if_pos (by decide)]
  decide

/-- A table of one row, whose key is the text `null`. -/
def nullTable : RelatedTable KeyValue :=
  { name := "t", rows := [.string "null"], inScope := fun _ => true, column := fun _ row => row,
    equal := fun _ a b => a == b }

theorem nullTable_equality (column : String) : DatabaseEquality (nullTable.equal column) := by
  refine ⟨fun a => beq_self_eq_true a, fun a b h => ?_, fun a b c h h' => ?_, fun a b _ _ h => ?_⟩
  · exact beq_iff_eq.2 (beq_iff_eq.1 h).symm
  · exact beq_iff_eq.2 ((beq_iff_eq.1 h).trans (beq_iff_eq.1 h'))
  · rw [KeyValue.string.inj (beq_iff_eq.1 h)]

theorem eager_of_repeated_keys :
    eagerKeyedMany nullTable "k" none [.string "null", .string "b", .string "null"] =
      .ok ([.string "null", .string "b", .string "null"].map (nullTable.lazyRows "k" none)) := by
  refine (eager_agrees_with_lazy_iff nullTable "k" none (nullTable_equality "k") _ ?_).2 ⟨?_, ?_⟩
  · simp [OneType, sameType]
  · simp
  · have hkeys : lookupKeys [] [.string "null", .string "b", .string "null"] = [.string "null", .string "b"] := by decide
    rw [hkeys, chunks_cons (by decide) (by simp), List.take_of_length_le (by simp), List.drop_of_length_le (by simp), chunks_nil]
    intro chunk hchunk
    rw [List.mem_singleton.1 hchunk, TextsTellKeys, if_pos (by decide)]
    decide

/-- The parent without a key is given the row of the text `null`. -/
theorem eager_of_null_and_text :
    DatabaseEquality (nullTable.equal "k") ∧ OneType [.null, .string "null"] ∧
      eagerKeyedMany nullTable "k" none [.null, .string "null"] ≠
        .ok ([.null, .string "null"].map (nullTable.lazyRows "k" none)) := by
  have htype : OneType [.null, .string "null"] := by simp [OneType, sameType]
  refine ⟨nullTable_equality "k", htype, fun h => ?_⟩
  obtain ⟨grouped, hok, -, hgroup⟩ := loadGroupedByKey_spec nullTable "k" none [.null, .string "null"]
  rw [eagerKeyedMany_eq hok, Except.ok.injEq, List.map_inj_left] at h
  have hrows : nullTable.lazyRows "k" none .null = nullTable.lazyRows "k" none (.string "null") :=
    (h .null List.mem_cons_self).symm.trans (h (.string "null") (by simp))
  revert hrows
  decide

end Parents

end TideOrm
