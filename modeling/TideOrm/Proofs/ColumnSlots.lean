import TideOrm.Sanity.ColumnSlots

/-! What the column slots of a query render of a string that validation accepts. -/

namespace TideOrm

theorem not_mem_of_mem_splitOn {ch : Char} {text part : List Char} (h : part ∈ text.splitOn ch) : ch ∉ part := by
  -- one separator after the other
  induction hlength : text.length using Nat.strong_induction_on generalizing text with
  | h length ih =>
    by_cases hmem : ch ∈ text
    · obtain ⟨front, back, rfl, hfront⟩ := List.eq_append_cons_of_mem hmem
      rw [List.splitOn_append_cons_self_of_not_mem hfront] at h
      rcases List.mem_cons.1 h with rfl | h
      · exact hfront
      · exact ih back.length (by simp at hlength; omega) h rfl
    · rw [List.splitOn_eq_singleton hmem] at h
      rwa [List.mem_singleton.1 h]

theorem identifierReferenceParts_parts {text : List Char} {parts : List (List Char)}
    (h : identifierReferenceParts text = some parts) : ∀ part ∈ parts, part ≠ [] ∧ '.' ∉ part := by
  simp only [identifierReferenceParts] at h
  split at h
  · cases h
  · split at h
    · cases h
    · next hempty =>
      obtain rfl := Option.some.inj h
      intro part hpart
      refine ⟨fun hnil => hempty (List.any_eq_true.2 ⟨part, hpart, by simp [hnil]⟩), ?_⟩
      exact not_mem_of_mem_splitOn hpart

theorem identifierReferenceParts_star {text : List Char} (h : '*' ∈ trim text) : identifierReferenceParts text = none := by
  have hany : (trim text).any (fun ch => ch == '(' || ch == ')' || ch == '*' || ch == ' ') = true :=
    List.any_eq_true.2 ⟨'*', h, by decide⟩
  simp [identifierReferenceParts, hany]

theorem splitAlias_trimmed {text : List Char} : trim (splitAlias text).1 = (splitAlias text).1 := by
  simp only [splitAlias]
  split
  · exact trim_trim _
  · split
    · exact trim_trim _
    · exact trim_trim _

theorem PlainReference.safe {text : List Char} (h : PlainReference text) :
    ∀ seg ∈ text.splitOn '.', safeIdentifierSegment seg = true := by
  obtain ⟨segs, hsegs, rfl⟩ := h
  rw [hsegs.splitOn]
  exact hsegs.safe

theorem textSplitOnce_append {ch : Char} {front back : List Char} (h : ch ∉ front) :
    textSplitOnce ch (front ++ ch :: back) = some (front, back) := by
  have hfront : ∀ c ∈ front, (c != ch) = true := by
    intro c hc
    simpa using fun heq : c = ch => h (heq ▸ hc)
  simp [textSplitOnce, List.takeWhile_append_of_pos hfront, List.dropWhile_append_of_pos hfront]

section

variable {q : SlotQuery} (hm : PlainModel q.model)
include hm

/-- A column reference that validation resolves is plain, up to its alias. -/
theorem reference_plain {kind : String} {text : List Char} (hsimple : (q.simpleColumnReference text).isSome)
    (hvalid : q.validateModelColumnReference kind text = .ok ()) : PlainReference (splitAlias text).1 := by
  obtain ⟨⟨table, column⟩, hreference⟩ := Option.isSome_iff_exists.1 hsimple
  have hplain : PlainReference (if table.isEmpty then column else table ++ '.' :: column) := by
    refine (@plainReference_iff _ kind).1 ?_
    simp only [SlotQuery.validateModelColumnReference, hreference] at hvalid
    cases hcheck : validateIdentifierReference kind (if table.isEmpty then column else table ++ '.' :: column) with
    | ok => rfl
    | error e => rw [hcheck] at hvalid; cases hvalid
  simp only [SlotQuery.simpleColumnReference] at hreference
  split at hreference
  · next part hparts =>
    obtain ⟨rfl, rfl⟩ := Prod.mk.inj (Option.some.inj hreference)
    rw [← splitAlias_trimmed, (identifierReferenceParts_eq_some hparts).1]
    simpa using hplain
  · next first part hparts =>
    obtain ⟨rfl, rfl⟩ := Prod.mk.inj (Option.some.inj hreference)
    rw [← splitAlias_trimmed, (identifierReferenceParts_eq_some hparts).1]
    have hne := (identifierReferenceParts_parts hparts first (by simp)).1
    simpa [hne, List.intercalate_cons_cons] using hplain
  · next schema first part hparts =>
    obtain ⟨htable, rfl⟩ := Prod.mk.inj (Option.some.inj hreference)
    rw [← splitAlias_trimmed, (identifierReferenceParts_eq_some hparts).1]
    have hno := identifierReferenceParts_parts hparts
    split at htable
    · next howns =>
      -- the schema and table are the model's own
      subst htable
      rw [ModelMeta.ownsTableReference, textSplitOnce_append (hno schema (by simp)).2] at howns
      simp only [Bool.and_eq_true, beq_iff_eq] at howns
      have hpart := hplain.safe part
      rw [if_neg (by simpa using safeSegment_ne_nil hm.table), List.splitOn_append_cons_self_of_not_mem
        (safeSegment_no_dot hm.table), List.splitOn_eq_singleton (hno part (by simp)).2] at hpart
      refine ⟨[schema, first, part], ⟨by simp, by simp, ?_⟩, rfl⟩
      simp only [List.mem_cons, List.not_mem_nil, or_false]
      rintro seg (rfl | rfl | rfl)
      · exact hm.schema seg howns.1.symm
      · exact howns.2 ▸ hm.table
      · exact hpart (by simp)
    · subst htable
      simpa [List.intercalate_cons_cons] using hplain
  · cases hreference

end

/-- A name that needs no escape in any quotes. -/
def PlainName (name : List Char) : Prop := name ≠ [] ∧ ∀ ch ∈ name, isQuote ch = false

def quoted (db : DatabaseType) (name : List Char) : List Char := db.quoteChar :: name ++ [db.quoteChar]

/-- One to three quoted identifiers, with no quote inside, joined by dots. -/
def QuotedReference (db : DatabaseType) (text : List Char) : Prop :=
  ∃ names : List (List Char), names ≠ [] ∧ names.length ≤ 3 ∧ (∀ name ∈ names, PlainName name) ∧
    text = ['.'].intercalate (names.map (quoted db))

/-- What a slot may render. -/
def SlotShape (db : DatabaseType) (slot : SlotQuery.ColumnSlot) (text : List Char) : Prop :=
  match slot with
  | .whereColumn | .groupBy => QuotedReference db text
  | .orderBy _ | .sort => ∃ reference, QuotedReference db reference ∧
      (text = reference ∨ ∃ direction : Order, text = reference ++ ' ' :: direction.asStr.toList)
  | .select => QuotedReference db text ∨
      (∃ reference name, QuotedReference db reference ∧ PlainName name ∧
        text = reference ++ " AS ".toList ++ quoted db name) ∨
      text = ['*'] ∨ ∃ name, safeIdentifierSegment name = true ∧ text = name ++ ['.', '*']

section

variable {db : DatabaseType}

theorem isQuote_quoteChar : isQuote db.quoteChar = true := by cases db <;> decide

theorem quoteIdent_plain {name : List Char} (h : ∀ ch ∈ name, isQuote ch = false) :
    quoteIdent db name = quoted db name := by
  have hne : ∀ ch ∈ name, ch ≠ db.quoteChar := by
    rintro ch hch rfl
    exact absurd (h _ hch) (by simp [isQuote_quoteChar])
  have hsame : (name.flatMap fun ch => if ch = db.quoteChar then [ch, ch] else [ch]) = name := by
    clear h
    induction name with
    | nil => rfl
    | cons ch name ih =>
      rw [List.flatMap_cons, if_neg (hne ch (List.mem_cons_self ..)),
        ih fun c hc => hne c (List.mem_cons_of_mem _ hc), List.singleton_append]
  rw [quoteIdent, hsame, quoted]

theorem plainName_of_safe {name : List Char} (h : safeIdentifierSegment name = true) : PlainName name := by
  refine ⟨safeSegment_ne_nil h, fun ch hch => ?_⟩
  have hmark := (mark_of_wordChar (safeSegment_chars h ch hch)).1
  simp only [isMark, Bool.or_eq_false_iff] at hmark
  exact hmark.1.1.1.2

theorem quotedReference_of_plainParts {segs : List (List Char)} (h : PlainParts segs) :
    QuotedReference db (['.'].intercalate (segs.map (quoteIdent db))) := by
  refine ⟨segs, h.ne_nil, h.length_le, fun seg hseg => plainName_of_safe (h.safe seg hseg), ?_⟩
  rw [List.map_congr_left fun seg hseg => quoteIdent_plain (plainName_of_safe (h.safe seg hseg)).2]

/-- A quoted reference is its first name in quotes, and a dot if there are more. -/
theorem QuotedReference.head {text : List Char} (h : QuotedReference db text) :
    ∃ name tail, PlainName name ∧ text = quoted db name ++ tail ∧ (tail = [] ∨ tail.head? = some '.') := by
  obtain ⟨names, hne, -, hplain, rfl⟩ := h
  match names with
  | [] => exact absurd rfl hne
  | [name] => exact ⟨name, [], hplain name (by simp), by simp, .inl rfl⟩
  | name :: next :: rest =>
    exact ⟨name, '.' :: ['.'].intercalate ((next :: rest).map (quoted db)), hplain name (by simp),
      by simp [List.intercalate_cons_cons], .inr rfl⟩

/-- The first quote in a text of doubled quotes is doubled, or ends it. -/
theorem doubled_split {name output tail : List Char} {quote : Char} (hname : quote ∉ name)
    (h : (output.flatMap fun ch => if ch = quote then [ch, ch] else [ch]) ++ [quote] = name ++ quote :: tail) :
    output = name ∨ tail.head? = some quote := by
  induction output generalizing name with
  | nil =>
    cases name with
    | nil => exact .inl rfl
    | cons c name =>
      have hhead := (List.cons.inj h).1
      exact absurd (hhead ▸ List.mem_cons_self ..) hname
  | cons c output ih =>
    rw [List.flatMap_cons] at h
    cases name with
    | nil =>
      split at h
      · next hc =>
        subst hc
        right
        have htail := (List.cons.inj h).2
        rw [← htail]
        rfl
      · next hc => exact absurd (List.cons.inj h).1 hc
    | cons d name =>
      split at h
      · next hc =>
        have hhead := (List.cons.inj h).1
        exact absurd (List.mem_cons.2 (.inl (hc.symm.trans hhead))) hname
      · obtain ⟨rfl, htail⟩ := List.cons.inj h
        rcases ih (fun hmem => hname (List.mem_cons_of_mem _ hmem)) htail with rfl | hdoubled
        · exact .inl rfl
        · exact .inr hdoubled

theorem quotedReference_quoteIdent_iff {output : List Char} :
    QuotedReference db (quoteIdent db output) ↔ PlainName output := by
  constructor
  · intro h
    obtain ⟨name, tail, hname, htext, htail⟩ := h.head
    have hquote : db.quoteChar ∉ name := fun hmem =>
      absurd (hname.2 _ hmem) (by simp [isQuote_quoteChar])
    have hsplit : (output.flatMap fun ch => if ch = db.quoteChar then [ch, ch] else [ch]) ++ [db.quoteChar] =
        name ++ db.quoteChar :: tail := by
      simpa [quoteIdent, quoted] using htext
    rcases doubled_split hquote hsplit with rfl | hdoubled
    · exact hname
    · rcases htail with rfl | hdot
      · simp at hdoubled
      · rw [hdot, Option.some.injEq] at hdoubled
        cases db <;> exact absurd hdoubled (by decide)
  · intro h
    exact ⟨[output], by simp, by simp, by simpa using h, by simp [quoteIdent_plain h.2]⟩

end

section

variable {q : SlotQuery} (hm : PlainModel q.model)
include hm

theorem formatColumnForDb_quoted (db : DatabaseType) {text : List Char} (hplain : PlainReference (splitAlias text).1)
    (h : (splitAlias text).2 = none) : QuotedReference db (q.formatColumnForDb db text) := by
  rw [splitAlias_of_none h] at hplain
  obtain ⟨segs, hsegs, htext⟩ := formatColumnForDb_plain hm db hplain
  exact htext ▸ quotedReference_of_plainParts hsegs

omit hm in
/-- A reference with an alias is written as it is, and does not begin with a quote. -/
theorem formatColumnForDb_aliased (db : DatabaseType) {text : List Char} (hplain : PlainReference (splitAlias text).1)
    (h : (splitAlias text).2 ≠ none) : ∀ ch, (q.formatColumnForDb db text).head? = some ch → isQuote ch = false := by
  obtain ⟨hspace, -, hhead⟩ := splitAlias_of_some h
  have hverbatim : q.formatColumnForDb db text = trim text := by simp [SlotQuery.formatColumnForDb, hspace]
  intro ch hch
  rw [hverbatim, ← hhead] at hch
  obtain ⟨segs, hsegs, htext⟩ := hplain
  have hmark := intercalate_chars hsegs.safe ch (htext ▸ List.mem_of_mem_head? hch)
  simp only [isMark, Bool.or_eq_false_iff] at hmark
  exact hmark.1.1.1.2

theorem formatColumnForDb_quoted_iff (db : DatabaseType) {text : List Char} (hplain : PlainReference (splitAlias text).1) :
    QuotedReference db (q.formatColumnForDb db text) ↔ (splitAlias text).2 = none := by
  refine ⟨fun hquoted => ?_, formatColumnForDb_quoted hm db hplain⟩
  by_contra halias
  obtain ⟨name, tail, -, htext, -⟩ := hquoted.head
  have hhead := formatColumnForDb_aliased (q := q) db hplain halias db.quoteChar (by rw [htext]; rfl)
  rw [isQuote_quoteChar] at hhead
  cases hhead

end

theorem splitDirection_trimmed {term column : List Char} {direction : Order}
    (h : splitDirection term = some (column, direction)) : trim column = column := by
  simp only [splitDirection] at h
  have hcolumn : ∀ k, trim (((trim term).take k).rdropWhile isWhitespace) = ((trim term).take k).rdropWhile isWhitespace := by
    intro k
    have hback : (((trim term).take k).rdropWhile isWhitespace).rdropWhile isWhitespace =
        ((trim term).take k).rdropWhile isWhitespace := List.rdropWhile_idempotent ..
    have hprefix : ((trim term).take k).rdropWhile isWhitespace <+: trim term :=
      (List.rdropWhile_prefix ..).trans (List.take_prefix ..)
    have hfront : (((trim term).take k).rdropWhile isWhitespace).dropWhile isWhitespace =
        ((trim term).take k).rdropWhile isWhitespace := by
      generalize ((trim term).take k).rdropWhile isWhitespace = column at hprefix
      cases column with
      | nil => rfl
      | cons ch rest =>
        obtain ⟨tail, htail⟩ := hprefix
        have hhead : isWhitespace ch = false := @trim_head term ch (by rw [← htail]; rfl)
        rw [List.dropWhile_cons, if_neg (by simp [hhead])]
    rw [trim, hfront]
    exact hback
  split at h
  · split at h
    · obtain ⟨rfl, -⟩ := Prod.mk.inj (Option.some.inj h)
      exact hcolumn _
    · split at h
      · obtain ⟨rfl, -⟩ := Prod.mk.inj (Option.some.inj h)
        exact hcolumn _
      · cases h
  · cases h

theorem orderReference_trimmed {term : List Char} : trim (orderReference term) = orderReference term := by
  simp only [orderReference]
  cases hsplit : splitDirection (trim term) with
  | none => exact trim_trim _
  | some parts =>
    obtain ⟨column, direction⟩ := parts
    exact splitDirection_trimmed hsplit

section

variable {q : SlotQuery} (hm : PlainModel q.model)
include hm

omit hm in
theorem validateOrderOrGroupValue_ok {kind : String} {text : List Char} {allowDirection : Bool}
    (h : q.validateOrderOrGroupValue kind text allowDirection = .ok ()) :
    (allowDirection = false → orderReference text = trim text) ∧
      (q.simpleColumnReference (orderReference text)).isSome ∧
      q.validateModelColumnReference kind (orderReference text) = .ok () := by
  simp only [SlotQuery.validateOrderOrGroupValue, orderReference] at h ⊢
  cases hsplit : splitDirection (trim text) with
  | none =>
    simp only [hsplit, Option.map_none, Option.getD_none] at h ⊢
    split at h
    · cases h
    · next hsimple => exact ⟨fun _ => trivial, Option.isSome_iff_ne_none.2 (by simpa using hsimple), h⟩
  | some parts =>
    simp only [hsplit, Option.map_some, Option.getD_some] at h ⊢
    split at h
    · cases h
    · next hsimple =>
      simp only [Bool.or_eq_true, Bool.not_eq_true', not_or, Bool.not_eq_false] at hsimple
      exact ⟨fun hallow => absurd (hallow ▸ hsimple.1) (by simp), Option.isSome_iff_ne_none.2 (by simpa using hsimple.2), h⟩

theorem formatProjectionColumn_quoted (db : DatabaseType) {identifier : List Char} (h : PlainReference identifier) :
    QuotedReference db (q.formatProjectionColumn db (ownTableRef q.model q.selfJoinDepth) identifier) := by
  obtain ⟨segs, hsegs, rfl⟩ := h
  have htrim := trim_eq_self hsegs.no_whitespace
  unfold SlotQuery.formatProjectionColumn
  split
  · obtain ⟨parts, hparts, hformat⟩ := formatColumnForDb_plain hm db ⟨segs, hsegs, htrim⟩
    exact hformat ▸ quotedReference_of_plainParts hparts
  · next hdot =>
    -- a bare column, after the name of the model's table
    have hbare : segs = [['.'].intercalate segs] := by
      have hsplit := hsegs.splitOn
      rwa [List.splitOn_eq_singleton hdot, eq_comm] at hsplit
    have hsafe := hsegs.safe (['.'].intercalate segs) (hbare ▸ List.mem_singleton.2 (by rw [← hbare]))
    have hparts := plainParts_pair (ownTableRef_safe hm q.selfJoinDepth) (columnNamed_safe hm hsafe)
    simpa [List.intercalate_cons_cons] using @quotedReference_of_plainParts db _ hparts

omit hm in
theorem splitAlias_trim {text : List Char} : splitAlias (trim text) = splitAlias text := by
  simp only [splitAlias, trim_trim]

theorem select_quoted (db : DatabaseType) {text : List Char} (h : q.validateSelectValue text = .ok ()) :
    SlotShape db .select (q.formatSelectColumnForDb db (ownTableRef q.model q.selfJoinDepth) text) := by
  have hformat : ∀ value, (formatIdentifierReference db value).isSome = (identifierReferenceParts value).isSome := by
    intro value
    simp [formatIdentifierReference]
  simp only [SlotQuery.validateSelectValue, splitAlias_trim] at h
  simp only [SlotQuery.formatSelectColumnForDb, hformat]
  have hverbatim : (splitAlias text).2 = none → '*' ∈ (splitAlias text).1 →
      trim text = (splitAlias text).1 ∧ identifierReferenceParts (splitAlias text).1 = none := by
    intro hnone hstar
    have heq := splitAlias_of_none hnone
    exact ⟨by rw [heq], identifierReferenceParts_star (by rwa [splitAlias_trimmed])⟩
  generalize hexpression : (splitAlias text).1 = expression at h hverbatim
  have hparts : splitAlias text = (expression, (splitAlias text).2) := by rw [← hexpression]
  rw [hparts]
  split at h
  · next hall =>
    simp only [Bool.and_eq_true, Option.isNone_iff_eq_none, beq_iff_eq] at hall
    obtain ⟨htrim, hno⟩ := hverbatim hall.1 (by simp [hall.2])
    simp only [hall.1, hno, htrim]
    exact .inr (.inr (.inl hall.2))
  · split at h
    · next hsuffix =>
      simp only [Bool.and_eq_true, Option.isNone_iff_eq_none, List.isSuffixOf_iff_suffix] at hsuffix
      obtain ⟨hnone, front, hfront⟩ := hsuffix
      obtain ⟨htrim, hno⟩ := hverbatim hnone (by simp [← hfront])
      simp only [hnone, hno, htrim]
      have hqualifier : expression.take (expression.length - 2) = front := by simp [← hfront]
      rw [hqualifier, validateIdentifier] at h
      split at h
      · next hsafe => exact .inr (.inr (.inr ⟨front, hsafe, hfront.symm⟩))
      · cases h
    · split at h
      · cases h
      · next hreference =>
        have hplain := plainReference_iff.1 hreference
        obtain ⟨segs, hsegs, htext⟩ := hplain
        have hread : identifierReferenceParts expression = some segs := htext ▸ identifierReferenceParts_intercalate hsegs
        have hquoted := formatProjectionColumn_quoted hm db ⟨segs, hsegs, htext⟩
        cases halias : (splitAlias text).2 with
        | none =>
          simp only [hread]
          exact .inl hquoted
        | some aliased =>
          rw [halias] at h
          have hsafe : safeIdentifierSegment aliased = true := by
            cases hmodel : q.validateModelColumnReference "SELECT column" expression with
            | error e => rw [hmodel] at h; cases h
            | ok =>
              simp only [hmodel, validateIdentifier] at h
              by_contra hunsafe
              rw [if_neg hunsafe] at h
              cases h
          have hname := plainName_of_safe hsafe
          have hone : PlainParts [aliased] := ⟨by simp, by simp, by simpa using hsafe⟩
          have haliased : identifierReferenceParts aliased = some [aliased] := by
            simpa using identifierReferenceParts_intercalate hone
          simp only [hread, haliased]
          exact .inr (.inl ⟨_, aliased, hquoted, hname, by simp [quoteIdent_plain hname.2]⟩)

end

/-- The name in a union's rows of the column that an ORDER BY term refers to. -/
def resultName (q : SlotQuery) (reference : List Char) : List Char :=
  (q.derivedOutputName reference).getD (q.model.canonicalColumnParts reference).2

/-- What an ORDER BY term sorts by, before its direction. -/
def orderBody (q : SlotQuery) (db : DatabaseType) (reference : List Char) : List Char :=
  if q.hasUnions && (reference.splitOn '.').all safeIdentifierSegment then quoteIdent db (resultName q reference)
  else q.formatColumnForDb db reference

/-- The term has no alias, and the column it sorts a union by has a plain name there. -/
def NamesOnly (q : SlotQuery) (term : List Char) : Prop :=
  (splitAlias (orderReference term)).2 = none ∧ (q.hasUnions = true → PlainName (resultName q (orderReference term)))

theorem formatOrderByForDb_eq (q : SlotQuery) (db : DatabaseType) (term : List Char) (direction : Order) :
    ∃ direction' : Order, q.formatOrderByForDb db term direction =
      orderBody q db (orderReference term) ++ ' ' :: direction'.asStr.toList := by
  obtain ⟨direction', hparts⟩ : ∃ direction',
      (splitDirection (trim term)).getD (trim term, direction) = (orderReference term, direction') := by
    unfold orderReference
    cases hsplit : splitDirection (trim term) with
    | none => exact ⟨direction, by simp [hsplit]⟩
    | some parts => exact ⟨parts.2, by simp [hsplit]⟩
  refine ⟨direction', ?_⟩
  simp only [SlotQuery.formatOrderByForDb, hparts, orderBody, resultName]
  split <;> rfl

theorem QuotedReference.last {db : DatabaseType} {text : List Char} (h : QuotedReference db text) :
    text.getLast? = some db.quoteChar := by
  obtain ⟨names, hne, -, -, rfl⟩ := h
  induction names with
  | nil => exact absurd rfl hne
  | cons name rest ih =>
    cases rest with
    | nil =>
      rw [List.map_singleton, List.intercalate_singleton, quoted, List.getLast?_concat]
    | cons next rest =>
      rw [List.map_cons, List.map_cons, List.intercalate_cons_cons, ← List.map_cons, List.getLast?_append,
        ih (by simp), Option.some_or]

theorem order_shape_iff {db : DatabaseType} {body : List Char} {direction : Order} :
    SlotShape db .sort (body ++ ' ' :: direction.asStr.toList) ↔ QuotedReference db body := by
  constructor
  · rintro ⟨reference, hreference, htext | ⟨direction', htext⟩⟩
    · have hlast := hreference.last
      rw [← htext, List.getLast?_append] at hlast
      cases db <;> cases direction <;> exact absurd hlast (by simp [Order.asStr, DatabaseType.quoteChar])
    · have hbody : body = reference := by
        rcases eq_or_ne direction direction' with rfl | hne
        · exact List.append_cancel_right htext
        · have hreversed := congrArg List.reverse htext
          cases direction <;> cases direction' <;> simp [Order.asStr] at hne hreversed
      exact hbody ▸ hreference
  · intro h
    exact ⟨body, h, .inr ⟨direction, rfl⟩⟩

section

variable {q : SlotQuery} (hm : PlainModel q.model)
include hm

theorem orderBody_quoted_iff (db : DatabaseType) {term : List Char}
    (h : q.validateOrderOrGroupValue "ORDER BY column" term true = .ok ()) :
    QuotedReference db (orderBody q db (orderReference term)) ↔ NamesOnly q term := by
  obtain ⟨-, hsimple, hvalid⟩ := validateOrderOrGroupValue_ok h
  have hplain := reference_plain hm hsimple hvalid
  have hcolumn := formatColumnForDb_quoted_iff hm db hplain
  unfold orderBody NamesOnly
  by_cases halias : (splitAlias (orderReference term)).2 = none
  · have hsegs : ((orderReference term).splitOn '.').all safeIdentifierSegment = true := by
      rw [splitAlias_of_none halias, orderReference_trimmed] at hplain
      exact List.all_eq_true.2 hplain.safe
    cases hunions : q.hasUnions with
    | false => simpa [halias] using hcolumn.2 halias
    | true => simpa [halias, hsegs] using quotedReference_quoteIdent_iff
  · -- text with a blank is not one of plain parts
    have hsegs : ((orderReference term).splitOn '.').all safeIdentifierSegment = false := by
      by_contra hall
      rw [Bool.not_eq_false, List.all_eq_true] at hall
      have hmark := intercalate_chars hall
      rw [List.intercalate_splitOn] at hmark
      have hblank := (splitAlias_of_some halias).1
      rw [orderReference_trimmed, any_eq_false_of_mark hmark fun ch hch => by simp [isMark, hch]] at hblank
      cases hblank
    simp [hsegs, hcolumn, halias]

/-- When a string that a column slot accepts is rendered as quoted names only. -/
def SlotNamesOnly (q : SlotQuery) (slot : SlotQuery.ColumnSlot) (text : List Char) : Prop :=
  match slot with
  | .whereColumn | .select => True
  | .groupBy => (splitAlias text).2 = none
  | .orderBy _ | .sort => ∀ term ∈ SlotQuery.orderTerms slot text, NamesOnly q term.1

end

section

variable {q : SlotQuery}

/-- On every backend, an accepted string is rendered as quoted names exactly when no term of an
ordering or grouping has an alias, and no union is sorted by a name that needs escaping. -/
theorem slots_hold_quoted_names_iff (hm : PlainModel q.model) (db : DatabaseType) {slot : SlotQuery.ColumnSlot}
    {text : List Char} (h : q.accepts slot text) :
    (∀ term ∈ q.renders db slot text, SlotShape db slot term) ↔ SlotNamesOnly q slot text := by
  have horder : ∀ term, q.acceptsOrderTerm term →
      (SlotShape db .sort (q.formatOrderByForDb db term.1 term.2) ↔ NamesOnly q term.1) := by
    intro term hterm
    obtain ⟨direction, hformat⟩ := formatOrderByForDb_eq q db term.1 term.2
    rw [hformat, order_shape_iff, orderBody_quoted_iff hm db hterm.2]
  cases slot with
  | whereColumn =>
    have hplain : PlainReference text := by
      simp only [SlotQuery.accepts, SlotQuery.validateWhereColumn] at h
      split at h
      · cases h
      · next hreference => exact plainReference_iff.1 hreference
    obtain ⟨segs, hsegs, rfl⟩ := hplain
    have htrim := trim_eq_self hsegs.no_whitespace
    obtain ⟨parts, hparts, hformat⟩ := formatColumnForDb_plain hm db ⟨segs, hsegs, htrim⟩
    simpa [SlotQuery.renders, SlotNamesOnly, SlotShape, hformat] using quotedReference_of_plainParts hparts
  | orderBy direction =>
    simpa [SlotQuery.renders, SlotQuery.orderTerms, SlotNamesOnly, SlotShape] using horder (text, direction) h
  | sort =>
    simp only [SlotQuery.renders, SlotNamesOnly, List.forall_mem_map]
    exact forall₂_congr fun term hterm => horder term (h.2 term hterm)
  | groupBy =>
    obtain ⟨hnone, hsimple, hvalid⟩ := validateOrderOrGroupValue_ok h
    have hplain := reference_plain hm hsimple hvalid
    rw [hnone rfl, splitAlias_trim] at hplain
    simpa [SlotQuery.renders, SlotNamesOnly, SlotShape] using formatColumnForDb_quoted_iff hm db hplain
  | select => simpa [SlotQuery.renders, SlotNamesOnly] using select_quoted hm db h

end

/-- A query of a table `users` with the columns `id` and `name`, and nothing joined to it. -/
def usersQuery : SlotQuery where
  model := ⟨none, "users".toList, ["id".toList, "name".toList], ["id".toList, "name".toList]⟩
  selfJoinDepth := 0
  joins := []
  hasUnions := false
  projectionOutputs := []
  projectionIsClosed := false

theorem usersQuery_plain : PlainModel usersQuery.model :=
  ⟨by simp [usersQuery], by decide +kernel, by decide +kernel⟩

theorem slots_hold_quoted_names_users :
    (∀ term ∈ usersQuery.renders .postgres (.orderBy .desc) "users.name desc".toList,
      SlotShape .postgres (.orderBy .desc) term) ↔
      SlotNamesOnly usersQuery (.orderBy .desc) "users.name desc".toList :=
  slots_hold_quoted_names_iff usersQuery_plain .postgres ⟨by decide +kernel, by decide +kernel⟩

/-- The text after an alias in a sort is accepted and reaches the statement as it is. -/
theorem order_by_places_sql :
    PlainModel usersQuery.model ∧ usersQuery.accepts (.orderBy .asc) "id AS x, (SELECT 1)".toList ∧
      usersQuery.renders .postgres (.orderBy .asc) "id AS x, (SELECT 1)".toList =
        ["id AS x, (SELECT 1) ASC".toList] ∧
      ¬ ∀ term ∈ usersQuery.renders .postgres (.orderBy .asc) "id AS x, (SELECT 1)".toList,
        SlotShape .postgres (.orderBy .asc) term := by
  have hrendered : usersQuery.renders .postgres (.orderBy .asc) "id AS x, (SELECT 1)".toList =
      ["id AS x, (SELECT 1) ASC".toList] := by decide +kernel
  refine ⟨usersQuery_plain, ⟨by decide +kernel, by decide +kernel⟩, hrendered, fun hshape => ?_⟩
  rw [hrendered] at hshape
  obtain ⟨reference, hreference, htext⟩ := hshape _ (List.mem_singleton_self _)
  obtain ⟨name, tail, -, hhead, -⟩ := hreference.head
  have hfirst : ("id AS x, (SELECT 1) ASC".toList).head? = some 'i' := by decide +kernel
  rcases htext with htext | ⟨direction, htext⟩
  · rw [htext, hhead] at hfirst
    exact absurd (show '"' = 'i' from Option.some.inj hfirst) (by decide)
  · rw [htext, hhead] at hfirst
    exact absurd (show '"' = 'i' from Option.some.inj hfirst) (by decide)

end TideOrm
