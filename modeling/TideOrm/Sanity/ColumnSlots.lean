import TideOrm.Lib.Words
import TideOrm.Spec.ColumnSlots
import TideOrm.Sanity.Placeholders
import TideOrm.Sanity.Subquery

/-! References of dotted plain names: how they are cut, and what the model makes of them. -/

namespace TideOrm

/-- What the checks of a reference look for in it. -/
def isMark (ch : Char) : Bool := isWhitespace ch || isQuote ch || ch == '(' || ch == ')' || ch == '*'

theorem mark_of_wordChar {ch : Char} (h : isWordChar ch = true) : isMark ch = false ∧ ch ≠ '.' := by
  have hall : ∀ n < 128, isWordChar (Char.ofNat n) = true → isMark (Char.ofNat n) = false ∧ Char.ofNat n ≠ '.' := by
    decide +kernel
  simpa using hall ch.toNat (wordChar_lt h) (by simpa using h)

theorem safeSegment_chars {seg : List Char} (h : safeIdentifierSegment seg = true) :
    ∀ ch ∈ seg, isWordChar ch = true := by
  cases seg with
  | nil => simp
  | cons first rest =>
    simp only [safeIdentifierSegment, Bool.and_eq_true, Bool.or_eq_true, beq_iff_eq, List.all_eq_true] at h
    intro ch hch
    rcases List.mem_cons.1 hch with rfl | hch
    · rcases h.1 with rfl | halpha
      · decide
      · simp [isWordChar, Char.isAlphanum, halpha]
    · simpa [isWordChar] using h.2 ch hch

theorem safeSegment_ne_nil {seg : List Char} (h : safeIdentifierSegment seg = true) : seg ≠ [] := by
  rintro rfl
  simp [safeIdentifierSegment] at h

theorem safeSegment_no_dot {seg : List Char} (h : safeIdentifierSegment seg = true) : '.' ∉ seg :=
  fun hdot => (mark_of_wordChar (safeSegment_chars h '.' hdot)).2 rfl

/-- One to three plain identifiers. -/
structure PlainParts (segs : List (List Char)) : Prop where
  ne_nil : segs ≠ []
  length_le : segs.length ≤ 3
  safe : ∀ seg ∈ segs, safeIdentifierSegment seg = true

/-- One to three plain identifiers joined by dots. -/
def PlainReference (text : List Char) : Prop := ∃ segs, PlainParts segs ∧ text = ['.'].intercalate segs

section

variable {segs : List (List Char)} {text : List Char}

theorem PlainParts.splitOn (h : PlainParts segs) : (['.'].intercalate segs).splitOn '.' = segs :=
  List.splitOn_intercalate '.' (fun seg hseg => safeSegment_no_dot (h.safe seg hseg)) h.ne_nil

theorem plainReference_iff {kind : String} :
    validateIdentifierReference kind text = .ok () ↔ PlainReference text := by
  simp only [validateIdentifierReference]
  constructor
  · intro h
    split at h
    · next hparts =>
      refine ⟨text.splitOn '.', ⟨List.splitOn_ne_nil _ _, hparts.1, ?_⟩, (List.intercalate_splitOn '.').symm⟩
      simpa using hparts.2
    · cases h
  · rintro ⟨segs, hsegs, rfl⟩
    rw [hsegs.splitOn]
    refine if_pos ⟨hsegs.length_le, ?_⟩
    simpa using hsegs.safe

theorem PlainParts.shape (h : PlainParts segs) :
    (∃ column, segs = [column]) ∨ (∃ table column, segs = [table, column]) ∨
      ∃ schema table column, segs = [schema, table, column] := by
  obtain ⟨hne, hlength, -⟩ := h
  match segs with
  | [] => exact absurd rfl hne
  | [column] => exact .inl ⟨column, rfl⟩
  | [table, column] => exact .inr (.inl ⟨table, column, rfl⟩)
  | [schema, table, column] => exact .inr (.inr ⟨schema, table, column, rfl⟩)
  | _ :: _ :: _ :: _ :: _ =>
    simp only [List.length_cons] at hlength
    omega

theorem intercalate_chars (h : ∀ seg ∈ segs, safeIdentifierSegment seg = true) :
    ∀ ch ∈ ['.'].intercalate segs, isMark ch = false := by
  have hseg : ∀ seg ∈ segs, ∀ ch ∈ seg, isMark ch = false := fun seg hmem ch hch =>
    (mark_of_wordChar (safeSegment_chars (h seg hmem) ch hch)).1
  have hdot : isMark '.' = false := by decide
  have hjoin (left right : List Char) (hleft : ∀ ch ∈ left, isMark ch = false) (hright : ∀ ch ∈ right, isMark ch = false) :
      ∀ ch ∈ left ++ ['.'] ++ right, isMark ch = false :=
    List.forall_mem_append.2 ⟨List.forall_mem_append.2 ⟨hleft, List.forall_mem_singleton.2 hdot⟩, hright⟩
  cases segs with
  | nil => exact fun _ hch => (List.not_mem_nil hch).elim
  | cons seg rest => exact Lib.intercalate_induction hjoin (List.cons_ne_nil _ _) hseg

theorem any_eq_false_of_mark {p : Char → Bool} (h : ∀ ch ∈ text, isMark ch = false)
    (hp : ∀ ch, p ch = true → isMark ch = true) : text.any p = false := by
  rw [List.any_eq_false]
  intro ch hch hpch
  exact absurd (hp ch hpch) (by simp [h ch hch])

theorem PlainParts.no_whitespace (h : PlainParts segs) : (['.'].intercalate segs).any isWhitespace = false :=
  any_eq_false_of_mark (intercalate_chars h.safe) fun ch hch => by simp [isMark, hch]

theorem PlainParts.intercalate_ne_nil (h : PlainParts segs) : ['.'].intercalate segs ≠ [] := by
  intro hnil
  have hsplit := h.splitOn
  rw [hnil, List.splitOn_nil] at hsplit
  exact safeSegment_ne_nil (h.safe [] (by simp [← hsplit])) rfl

theorem isIdentifierQuote_of_mark {ch : Option Char} (h : ∀ c ∈ ch, isMark c = false) : isIdentifierQuote ch = false := by
  cases ch with
  | none => rfl
  | some c =>
    have hc := h c rfl
    simp only [isMark, isQuote, Bool.or_eq_false_iff, beq_eq_false_iff_ne] at hc
    simp [isIdentifierQuote, hc.1.1.1.2.1.2, hc.1.1.1.2.2]

/-- The parts of a dotted reference are read back. -/
theorem identifierReferenceParts_intercalate (h : PlainParts segs) :
    identifierReferenceParts (['.'].intercalate segs) = some segs := by
  have hchars := intercalate_chars h.safe
  have htrim := trim_eq_self h.no_whitespace
  have hempty : (['.'].intercalate segs).isEmpty = false := by simpa using h.intercalate_ne_nil
  have hhead := isIdentifierQuote_of_mark fun c hc => hchars c (List.mem_of_mem_head? hc)
  have hlast := isIdentifierQuote_of_mark fun c hc => hchars c (List.mem_of_getLast? hc)
  have hany : (['.'].intercalate segs).any (fun ch => ch == '(' || ch == ')' || ch == '*' || ch == ' ') = false := by
    refine any_eq_false_of_mark hchars fun ch hch => ?_
    simp only [Bool.or_eq_true, beq_iff_eq] at hch
    rcases hch with ((rfl | rfl) | rfl) | rfl <;> decide
  have hparts : segs.any List.isEmpty = false := by
    rw [List.any_eq_false]
    intro seg hseg
    simpa using safeSegment_ne_nil (h.safe seg hseg)
  simp [identifierReferenceParts, htrim, hempty, hhead, hlast, hany, h.splitOn, hparts]

theorem identifierReferenceParts_eq_some (h : identifierReferenceParts text = some segs) :
    trim text = ['.'].intercalate segs ∧ (∀ ch ∈ (trim text).head?, isIdentifierQuote (some ch) = false) := by
  simp only [identifierReferenceParts] at h
  split at h
  · cases h
  · next hmarks =>
    split at h
    · cases h
    · obtain rfl := Option.some.inj h
      refine ⟨(List.intercalate_splitOn '.').symm, fun ch hch => ?_⟩
      simp only [Bool.or_eq_true, not_or, Bool.not_eq_true] at hmarks
      rw [← hmarks.1.1.2, Option.mem_def.1 hch]

theorem isWhitespace_of_isAliasSpace {ch : Char} (h : isAliasSpace ch = true) : isWhitespace ch = true := by
  simp only [isAliasSpace, Bool.or_eq_true, beq_iff_eq] at h
  rcases h with ((rfl | rfl) | rfl) | rfl <;> decide

theorem lastAs_none {skip position : ℕ} {depth : ℤ} {quote : Option Char} {last : Option ℕ}
    (h : text.any isWhitespace = false) : lastAs skip depth quote position last text = last := by
  fun_induction lastAs skip depth quote position last text with
  | case1 => rfl
  | case9 depth position last ch rest hquote hopen hclose has ih =>
    simp [isWhitespace_of_isAliasSpace has.1] at h
  | _ => simp_all

theorem splitAlias_of_none (h : (splitAlias text).2 = none) : splitAlias text = (trim text, none) := by
  simp only [splitAlias] at h ⊢
  split
  · rfl
  · next hlast =>
    simp only [hlast] at h
    split at h
    · next hempty => rw [if_pos hempty]
    · cases h

/-- What an alias follows begins as the text does. -/
theorem splitAlias_of_some (h : (splitAlias text).2 ≠ none) :
    (trim text).any isWhitespace = true ∧ (splitAlias text).1 ≠ [] ∧ (splitAlias text).1.head? = (trim text).head? := by
  have hspace : (trim text).any isWhitespace = true := by
    by_contra hno
    rw [Bool.not_eq_true] at hno
    exact h (by simp [splitAlias, lastAs_none hno])
  refine ⟨hspace, ?_⟩
  simp only [splitAlias] at h ⊢
  split
  · next hlast => simp [hlast] at h
  · next start hlast =>
    simp only [hlast] at h
    split at h
    · simp at h
    · next hempty =>
      rw [if_neg hempty]
      simp only [Bool.or_eq_true, List.isEmpty_iff, not_or] at hempty
      refine ⟨hempty.1, ?_⟩
      have htake : ∀ ch, ((trim text).take start).head? = some ch → isWhitespace ch = false := by
        intro ch hch
        cases htrim : trim text with
        | nil => simp [htrim] at hch
        | cons c rest =>
          cases start with
          | zero => simp at hch
          | succ start =>
            obtain rfl : c = ch := by simpa [htrim] using hch
            exact trim_head (by rw [htrim]; rfl)
      have hprefix := (trim_front htake).trans (List.take_prefix start (trim text))
      cases hexpression : trim ((trim text).take start) with
      | nil => exact absurd hexpression hempty.1
      | cons c rest =>
        obtain ⟨tail, htail⟩ := hprefix
        rw [← htail, hexpression]
        rfl

theorem textRsplitOnce_of_not_mem {ch : Char} (h : ch ∉ text) : textRsplitOnce ch text = none := by
  simp [textRsplitOnce, textSplitOnce, h]

theorem textRsplitOnce_append {ch : Char} {front back : List Char} (h : ch ∉ back) :
    textRsplitOnce ch (front ++ ch :: back) = some (front, back) := by
  have hback : ∀ c ∈ back.reverse, (c != ch) = true := by
    intro c hc
    simpa using fun heq : c = ch => h (heq ▸ List.mem_reverse.1 hc)
  simp only [textRsplitOnce, textSplitOnce, List.reverse_append, List.reverse_cons, List.append_assoc,
    List.singleton_append, List.mem_append, List.mem_cons, true_or, or_true, if_true, Option.map_some,
    List.takeWhile_append_of_pos hback, List.dropWhile_append_of_pos hback]
  simp

end

/-- The model's schema, table and column names are plain identifiers. -/
structure PlainModel (m : ModelMeta) : Prop where
  schema : ∀ schema ∈ m.schemaName, safeIdentifierSegment schema = true
  table : safeIdentifierSegment m.tableName = true
  columns : ∀ column ∈ m.columnNames, safeIdentifierSegment column = true

section

variable {m : ModelMeta} (hm : PlainModel m)
include hm

theorem canonicalColumnName_safe {name column : List Char} (h : m.canonicalColumnName name = some column) :
    safeIdentifierSegment column = true := by
  rw [ModelMeta.canonicalColumnName, Option.or_eq_some_iff] at h
  rcases h with hfind | ⟨-, hfield⟩
  · exact hm.columns column (List.mem_of_find?_eq_some hfind)
  · obtain ⟨names, hmem, hnames⟩ := List.exists_of_findSome?_eq_some hfield
    split at hnames
    · obtain rfl := Option.some.inj hnames
      exact hm.columns _ (List.of_mem_zip hmem).2
    · cases hnames

theorem columnNamed_safe {name : List Char} (h : safeIdentifierSegment name = true) :
    safeIdentifierSegment (m.columnNamed name) = true := by
  unfold ModelMeta.columnNamed
  cases hname : m.canonicalColumnName name with
  | none => exact h
  | some column => exact canonicalColumnName_safe hm hname

omit hm in
theorem relatedAlias_safe (depth : ℕ) : safeIdentifierSegment (relatedAlias depth) = true := by
  unfold relatedAlias
  split
  · decide +kernel
  · have hdigits : (decimal depth).all (fun ch => ch == '_' || ch.isAlphanum) = true := by
      rw [List.all_eq_true]
      intro ch hch
      simp [Char.isAlphanum, List.all_eq_true.1 (decimal_digits depth) ch hch]
    have hhead : "tideorm_related_".toList = 't' :: "ideorm_related_".toList := by decide +kernel
    have htail : ("ideorm_related_".toList).all (fun ch => ch == '_' || ch.isAlphanum) = true := by decide +kernel
    rw [hhead, List.cons_append, safeIdentifierSegment, List.all_append, hdigits, htail]
    decide

theorem ownTableRef_safe (depth : ℕ) : safeIdentifierSegment (ownTableRef m depth) = true := by
  unfold ownTableRef
  split
  · exact hm.table
  · exact relatedAlias_safe depth

end

theorem plainParts_pair {table column : List Char} (htable : safeIdentifierSegment table = true)
    (hcolumn : safeIdentifierSegment column = true) : PlainParts [table, column] :=
  ⟨by simp, by simp, by simp [htable, hcolumn]⟩

section

variable {q : SlotQuery} (hm : PlainModel q.model)
include hm

/-- A plain reference is one after the model's own names replaced its parts. -/
theorem canonicalModelIdentifier_plain {text : List Char} (h : PlainReference text) :
    PlainReference (q.canonicalModelIdentifier text) := by
  have hown := ownTableRef_safe hm q.selfJoinDepth
  have hqualified : ∀ table column, safeIdentifierSegment table = true → safeIdentifierSegment column = true →
      PlainReference (table ++ '.' :: column) := fun table column htable hcolumn =>
    ⟨_, plainParts_pair htable hcolumn, by simp [List.intercalate_cons_cons]⟩
  obtain ⟨segs, hsegs, rfl⟩ := h
  obtain ⟨column, hcolumn, hparts⟩ : ∃ column, safeIdentifierSegment column = true ∧
      (['.'].intercalate segs = column ∨ ∃ table, ['.'].intercalate segs = table ++ '.' :: column) := by
    rcases hsegs.shape with ⟨column, rfl⟩ | ⟨table, column, rfl⟩ | ⟨schema, table, column, rfl⟩
    · exact ⟨column, hsegs.safe column (by simp), .inl (by simp)⟩
    · exact ⟨column, hsegs.safe column (by simp), .inr ⟨table, by simp [List.intercalate_cons_cons]⟩⟩
    · exact ⟨column, hsegs.safe column (by simp), .inr ⟨schema ++ '.' :: table, by simp [List.intercalate_cons_cons]⟩⟩
  have hdot := safeSegment_no_dot hcolumn
  have hnamed := columnNamed_safe hm hcolumn
  rcases hparts with htext | ⟨table, htext⟩
  · -- an unqualified column
    rw [htext]
    simp only [SlotQuery.canonicalModelIdentifier, modelIdentifier, ModelMeta.canonicalColumnParts,
      textRsplitOnce_of_not_mem hdot]
    split
    · next heq =>
      split at heq
      · cases heq
        exact hqualified _ _ hown hnamed
      · cases heq
    · next heq =>
      split at heq
      · cases heq
      · cases heq
        exact ⟨[q.model.columnNamed column], ⟨by simp, by simp, by simp [hnamed]⟩, by simp⟩
  · have hplain : PlainReference (table ++ '.' :: column) := ⟨segs, hsegs, htext.symm⟩
    rw [htext]
    simp only [SlotQuery.canonicalModelIdentifier, modelIdentifier, ModelMeta.canonicalColumnParts,
      textRsplitOnce_append hdot]
    split
    · next heq =>
      split at heq
      · next hparts =>
        cases heq
        split at hparts
        · cases hparts
          simpa using hqualified _ _ hown hnamed
        · cases hparts
          split
          · exact hqualified _ _ hown hcolumn
          · exact hplain
      · next hparts => split at hparts <;> cases hparts
    · next heq =>
      split at heq
      · cases heq
      · next hparts => split at hparts <;> cases hparts

theorem formatColumnForDb_plain (db : DatabaseType) {text : List Char} (h : PlainReference (trim text)) :
    ∃ segs, PlainParts segs ∧ q.formatColumnForDb db text = ['.'].intercalate (segs.map (quoteIdent db)) := by
  obtain ⟨segs, hsegs, htext⟩ := h
  obtain ⟨parts, hparts, hcanonical⟩ := canonicalModelIdentifier_plain hm ⟨segs, hsegs, htext⟩
  refine ⟨parts, hparts, ?_⟩
  have hspaces : (trim text).any isWhitespace = false := htext ▸ hsegs.no_whitespace
  simp only [SlotQuery.formatColumnForDb, hspaces, hcanonical, trim_eq_self hparts.no_whitespace,
    formatIdentifierReference, identifierReferenceParts_intercalate hparts]
  simp

end

end TideOrm
