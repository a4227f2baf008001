import TideOrm.Spec.SqliteColumns
import Mathlib.Data.List.Dedup

/-! The indexes that go with a dropped SQLite column. One function follows the column's name back
to the stored one, another carries the names over the indexes along: both agree with the table as
long as every name is written as the alteration wrote it last. -/

namespace TideOrm

open Lib Ddl

namespace SqliteColumns

theorem run_append (t : SqliteColumns) (front rest : List AlterOperation) :
    t.run (front ++ rest) = (t.run front).bind fun t => t.run rest := by
  induction front generalizing t with
  | nil => rfl
  | cons operation front ih =>
    rw [List.cons_append, run, run]
    cases t.apply operation with
    | none => rfl
    | some t => exact ih t

theorem run_cons {t : SqliteColumns} {operation : AlterOperation} {rest : List AlterOperation}
    (h : (t.run (operation :: rest)).isSome = true) : ∃ t', t.apply operation = some t' ∧ (t'.run rest).isSome = true := by
  obtain ⟨last, hlast⟩ := Option.isSome_iff_exists.1 h
  rw [run, Option.bind_eq_some_iff] at hlast
  obtain ⟨t', happly, hrest⟩ := hlast
  exact ⟨t', happly, Option.isSome_iff_exists.2 ⟨last, hrest⟩⟩

theorem SpelledRun.append {t : SqliteColumns} {front rest : List AlterOperation} (h : t.SpelledRun (front ++ rest)) :
    t.SpelledRun front ∧ ∀ t', t.run front = some t' → t'.SpelledRun rest := by
  induction front generalizing t with
  | nil =>
    refine ⟨trivial, fun t' ht' => ?_⟩
    rwa [← Option.some.inj ht']
  | cons operation front ih =>
    refine ⟨⟨h.1, fun t' ht' => (ih (h.2 t' ht')).1⟩, fun t' ht' => ?_⟩
    rw [run, Option.bind_eq_some_iff] at ht'
    obtain ⟨t'', happly, ht'⟩ := ht'
    exact (ih (h.2 t'' happly)).2 t' ht'

/-- What an operation leaves of the columns under other keys, and what it files anew. -/
theorem apply_cases {t t' : SqliteColumns} {operation : AlterOperation} (h : t.apply operation = some t') :
    (∃ column, operation = .addColumn column ∧ t (sqliteKey column.name) = none ∧
      t' = Function.update t (sqliteKey column.name) (some (some column.name, .added column))) ∨
    (∃ name, operation = .dropColumn name ∧ (t (sqliteKey name)).isSome ∧ t' = Function.update t (sqliteKey name) none) ∨
    ∃ source target written origin, operation = .renameColumn source target ∧ t (sqliteKey source) = some (written, origin) ∧
      (sqliteKey target = sqliteKey source ∨ t (sqliteKey target) = none) ∧
      t' = Function.update (Function.update t (sqliteKey source) none) (sqliteKey target) (some (some target, origin)) := by
  cases operation with
  | addColumn column =>
    rw [apply] at h
    split_ifs at h with hnone
    exact .inl ⟨column, rfl, Option.isNone_iff_eq_none.1 hnone, (Option.some.inj h).symm⟩
  | dropColumn name =>
    rw [apply] at h
    split_ifs at h with hsome
    exact .inr (.inl ⟨name, rfl, hsome, (Option.some.inj h).symm⟩)
  | renameColumn source target =>
    rw [apply] at h
    split_ifs at h with hfree
    obtain ⟨⟨written, origin⟩, hsource, rfl⟩ := Option.map_eq_some_iff.1 h
    exact .inr (.inr ⟨source, target, written, origin, rfl, hsource, hfree.imp_right Option.isNone_iff_eq_none.1, rfl⟩)
  | changeColumnType name columnType => cases h

theorem ofTable_eq_some {names : List (List Char)} {key : List Char} {written : Option (List Char)} {origin : ColumnSource}
    (h : ofTable names key = some (written, origin)) :
    written = none ∧ origin = .stored key ∧ key ∈ names.map sqliteKey := by
  rw [ofTable] at h
  split_ifs at h with hmem
  cases h
  exact ⟨rfl, rfl, hmem⟩

/-- How the operations first write a stored column's name. -/
def mention? (key : List Char) : List AlterOperation → Option (List Char)
  | [] => none
  | .dropColumn name :: rest | .renameColumn name _ :: rest => if sqliteKey name = key then some name else mention? key rest
  | _ :: rest => mention? key rest

theorem mention?_append (key : List Char) (front rest : List AlterOperation) :
    mention? key (front ++ rest) = (mention? key front).or (mention? key rest) := by
  induction front with
  | nil => rfl
  | cons operation front ih =>
    cases operation with
    | addColumn | changeColumnType => exact ih
    | dropColumn | renameColumn =>
      rw [List.cons_append, mention?, mention?, ih]
      split_ifs <;> rfl

theorem mention?_key {key name : List Char} {operations : List AlterOperation} (h : mention? key operations = some name) :
    sqliteKey name = key := by
  induction operations with
  | nil => cases h
  | cons operation operations ih =>
    cases operation with
    | addColumn | changeColumnType => exact ih h
    | dropColumn | renameColumn =>
      rw [mention?] at h
      split_ifs at h with hkey
      · cases h
        exact hkey
      · exact ih h

/-- Following a name back from a column leads to how a stored column's name was first written. -/
inductive Traced (names : List (List Char)) (front : List AlterOperation) (key : List Char) :
    Option (List Char) → ColumnSource → Prop where
  | unnamed (hmem : key ∈ names.map sqliteKey) (hmention : mention? key front = none)
    (hback : ∀ name, sqliteKey name = key → AlterTableBuilder.originalName name front.reverse = some name) :
    Traced names front key none (.stored key)
  | added (name : List Char) (column : ColumnDefinition) (hkey : sqliteKey name = key)
    (hback : AlterTableBuilder.originalName name front.reverse = none) : Traced names front key (some name) (.added column)
  | named (name stored first : List Char) (hkey : sqliteKey name = key) (hmem : stored ∈ names.map sqliteKey)
    (hmention : mention? stored front = some first)
    (hback : AlterTableBuilder.originalName name front.reverse = some first) :
    Traced names front key (some name) (.stored stored)

/-- An operation on other columns changes nothing of it. -/
theorem Traced.keep {names : List (List Char)} {front : List AlterOperation} {key : List Char} {written : Option (List Char)}
    {origin : ColumnSource} (h : Traced names front key written origin) {operation : AlterOperation}
    (hmention : mention? key [operation] = none) (hback : ∀ name, sqliteKey name = key →
      AlterTableBuilder.originalName name (operation :: front.reverse) = AlterTableBuilder.originalName name front.reverse) :
    Traced names (front ++ [operation]) key written origin := by
  have hreverse : (front ++ [operation]).reverse = operation :: front.reverse := by simp
  cases h with
  | unnamed hmem hnone hname =>
    refine .unnamed hmem ?_ fun name hkey => ?_
    · rw [mention?_append, hnone, hmention]
      rfl
    · rw [hreverse, hback name hkey, hname name hkey]
  | added name column hkey hname => exact .added name column hkey (by rw [hreverse, hback name hkey, hname])
  | named name stored first hkey hmem hfirst hname =>
    refine .named name stored first hkey hmem ?_ (by rw [hreverse, hback name hkey, hname])
    rw [mention?_append, hfirst]
    rfl

theorem traced_run {names : List (List Char)} (front : List AlterOperation) {t : SqliteColumns}
    (h : (ofTable names).run front = some t) (hspelled : (ofTable names).SpelledRun front) {key : List Char}
    {written : Option (List Char)} {origin : ColumnSource} (hcolumn : t key = some (written, origin)) :
    Traced names front key written origin := by
  induction front using List.reverseRecOn generalizing t key written origin with
  | nil =>
    cases h
    obtain ⟨rfl, rfl, hmem⟩ := ofTable_eq_some hcolumn
    exact .unnamed hmem rfl fun _ _ => rfl
  | append_singleton front operation ih =>
    obtain ⟨hfrontSpelled, hlast⟩ := hspelled.append
    rw [run_append, Option.bind_eq_some_iff] at h
    obtain ⟨t₁, hfront, happly⟩ := h
    have hoperation := (hlast t₁ hfront).1
    rw [run, Option.bind_eq_some_iff] at happly
    obtain ⟨t₂, happly, ht₂⟩ := happly
    cases ht₂
    have hreverse : (front ++ [operation]).reverse = operation :: front.reverse := by simp
    obtain ⟨column, rfl, -, rfl⟩ | ⟨dropped, rfl, -, rfl⟩ | ⟨source, target, written', origin', rfl, hsource, -, rfl⟩ :=
      apply_cases happly
    · rw [Function.update_apply] at hcolumn
      split_ifs at hcolumn with hkey
      · cases hcolumn
        refine .added column.name column hkey.symm ?_
        rw [hreverse, AlterTableBuilder.originalName, if_pos rfl]
      · refine (ih hfront hfrontSpelled hcolumn).keep rfl fun name hname => ?_
        rw [AlterTableBuilder.originalName, if_neg fun heq => hkey (by rw [heq, hname])]
    · rw [Function.update_apply] at hcolumn
      split_ifs at hcolumn with hkey
      refine (ih hfront hfrontSpelled hcolumn).keep ?_ fun name _ => rfl
      rw [mention?, if_neg (Ne.symm hkey), mention?]
    · rw [Function.update_apply, Function.update_apply] at hcolumn
      split_ifs at hcolumn with hkey hkey'
      · cases hcolumn
        have hname : AlterTableBuilder.originalName target (front ++ [AlterOperation.renameColumn source target]).reverse =
            AlterTableBuilder.originalName source front.reverse := by
          rw [hreverse, AlterTableBuilder.originalName, if_pos rfl]
        cases ih hfront hfrontSpelled hsource with
        | unnamed hmem hnone hback =>
          refine .named target _ source hkey.symm hmem ?_ (by rw [hname, hback source rfl])
          rw [mention?_append, hnone, mention?, if_pos rfl]
          rfl
        | added name column _ hback =>
          obtain rfl := hoperation name _ hsource
          exact .added target column hkey.symm (by rw [hname, hback])
        | named name stored first _ hmem hfirst hback =>
          obtain rfl := hoperation name _ hsource
          refine .named target stored first hkey.symm hmem ?_ (by rw [hname, hback])
          rw [mention?_append, hfirst]
          rfl
      · refine (ih hfront hfrontSpelled hcolumn).keep ?_ fun name hname => ?_
        · rw [mention?, if_neg (Ne.symm hkey'), mention?]
        · rw [AlterTableBuilder.originalName, if_neg fun heq => hkey (by rw [heq, hname])]

/-- The columns to inspect are stored columns, named as the alteration first does. -/
theorem stored_of_dropped {names : List (List Char)} {alter : AlterTableBuilder} {t : SqliteColumns}
    (h : (ofTable names).run alter.operations = some t) (hspelled : (ofTable names).SpelledRun alter.operations)
    {column : List Char} (hcolumn : column ∈ alter.sqliteDroppedColumns) :
    ofTable names (sqliteKey column) = some (none, .stored (sqliteKey column)) ∧
      mention? (sqliteKey column) alter.operations = some column := by
  rw [AlterTableBuilder.sqliteDroppedColumns] at hcolumn
  split_ifs at hcolumn
  · cases hcolumn
  · obtain ⟨⟨operation, position⟩, hmem, hname⟩ := List.mem_filterMap.1 hcolumn
    have hget : alter.operations[position]? = some operation := List.mem_zipIdx_iff_getElem?.1 hmem
    cases operation with
    | dropColumn name =>
      have hsplit : alter.operations = alter.operations.take position ++ .dropColumn name :: alter.operations.drop (position + 1) := by
        obtain ⟨hlt, heq⟩ := List.getElem?_eq_some_iff.1 hget
        rw [← heq, ← List.drop_eq_getElem_cons hlt, List.take_append_drop]
      rw [hsplit, run_append, Option.bind_eq_some_iff] at h
      rw [hsplit] at hspelled
      obtain ⟨hfrontSpelled, hlast⟩ := hspelled.append
      obtain ⟨t₁, hfront, hrest⟩ := h
      obtain ⟨t₂, happly, -⟩ := run_cons (Option.isSome_iff_exists.2 ⟨t, hrest⟩)
      obtain ⟨_, hdrop, -⟩ | ⟨_, hdrop, hthere, -⟩ | ⟨_, _, _, _, hdrop, -⟩ := apply_cases happly <;> cases hdrop
      obtain ⟨⟨written, origin⟩, hthere⟩ := Option.isSome_iff_exists.1 hthere
      have hoperation := (hlast t₁ hfront).1
      have hstored : ∀ stored, stored ∈ names.map sqliteKey → mention? stored alter.operations = some column →
          ofTable names (sqliteKey column) = some (none, .stored (sqliteKey column)) ∧
            mention? (sqliteKey column) alter.operations = some column := by
        intro stored hstored hmention
        rw [mention?_key hmention]
        exact ⟨if_pos hstored, hmention⟩
      cases traced_run _ hfront hfrontSpelled hthere with
      | unnamed hmem hnone hback =>
        obtain rfl : name = column := Option.some.inj ((hback name rfl).symm.trans hname)
        refine hstored _ hmem ?_
        rw [hsplit, mention?_append, hnone, mention?, if_pos rfl]
        rfl
      | added written _ _ hback =>
        obtain rfl := hoperation written _ hthere
        cases hback.symm.trans hname
      | named written stored first _ hthere' hfirst hback =>
        obtain rfl := hoperation written _ hthere
        obtain rfl : first = column := Option.some.inj (hback.symm.trans hname)
        refine hstored stored hthere' ?_
        rw [hsplit, mention?_append, hfirst]
        rfl
    | addColumn column => cases hname
    | renameColumn source target => cases hname
    | changeColumnType name columnType => cases hname

/-- The column that an operation drops or renames has the name it gives it; one that is not
named yet has the one in `first`. -/
def Names (first : List Char → Option (List Char)) (t : SqliteColumns) : AlterOperation → Prop
  | .dropColumn name | .renameColumn name _ =>
    ∀ written origin, t (sqliteKey name) = some (written, origin) → written.or (first (sqliteKey name)) = some name
  | _ => True

def NamesRun (first : List Char → Option (List Char)) : SqliteColumns → List AlterOperation → Prop
  | _, [] => True
  | t, operation :: rest => t.Names first operation ∧ ∀ t', t.apply operation = some t' → NamesRun first t' rest

theorem namesRun_of_spelled {names : List (List Char)} {operations : List AlterOperation}
    (hspelled : (ofTable names).SpelledRun operations) : ∀ {rest front : List AlterOperation} {t : SqliteColumns},
    operations = front ++ rest → (ofTable names).run front = some t → t.NamesRun (mention? · operations) rest := by
  intro rest
  induction rest with
  | nil => exact fun _ _ => trivial
  | cons operation rest ih =>
    intro front t hsplit hfront
    obtain ⟨hfrontSpelled, hlast⟩ := SpelledRun.append (hsplit ▸ hspelled)
    have hoperation := (hlast t hfront).1
    have hnames : ∀ name written origin, mention? (sqliteKey name) (operation :: rest) = some name →
        (∀ written origin, t (sqliteKey name) = some (some written, origin) → written = name) →
        t (sqliteKey name) = some (written, origin) → written.or (mention? (sqliteKey name) operations) = some name := by
      intro name written origin hfirst hwritten hcolumn
      cases traced_run _ hfront hfrontSpelled hcolumn with
      | unnamed _ hnone _ =>
        rw [hsplit, mention?_append, hnone, hfirst]
        rfl
      | added | named => exact congrArg some (hwritten _ _ hcolumn)
    refine ⟨?_, fun t' happly => ?_⟩
    · cases operation with
      | addColumn | changeColumnType => trivial
      | dropColumn name | renameColumn name =>
        intro written origin hcolumn
        refine hnames name written origin ?_ hoperation hcolumn
        rw [mention?, if_pos rfl]
    · refine @ih (front ++ [operation]) t' ?_ ?_
      · rw [hsplit, List.append_assoc, List.singleton_append]
      · rw [run_append, hfront, Option.bind_some, run, happly]
        rfl

end SqliteColumns

namespace AlterTableBuilder

/-- The indexes that the loop carries along are those over the table's columns; a column not
named yet goes by the name in `first`. -/
structure Carried (alter : AlterTableBuilder) (first : List Char → Option (List Char))
    (indexes : List (List Char × List Char)) (t : SqliteColumns) : Prop where
  covering : ∀ key written origin, t key = some (written, origin) →
    (indexes.filter fun index => written.or (first key) = some index.1).map Prod.snd = alter.covering origin
  named : ∀ index ∈ indexes, ∃ written origin,
    t (sqliteKey index.1) = some (written, origin) ∧ written.or (first (sqliteKey index.1)) = some index.1
  keyed : ∀ key written origin name, t key = some (written, origin) → written.or (first key) = some name → sqliteKey name = key

variable {alter : AlterTableBuilder} {first : List Char → Option (List Char)} {indexes : List (List Char × List Char)}
  {t t' : SqliteColumns}

theorem Carried.addColumn (h : alter.Carried first indexes t) (column : ColumnDefinition)
    (hnone : t (sqliteKey column.name) = none) :
    alter.Carried first (alter.indexesAfter indexes (.addColumn column))
      (Function.update t (sqliteKey column.name) (some (some column.name, .added column))) := by
  have hafter : alter.indexesAfter indexes (.addColumn column) =
      indexes ++ (alter.covering (.added column)).map fun index => (column.name, index) := by
    rw [indexesAfter, AlterTableBuilder.covering]
    cases hunique : alter.sqliteUniqueAddition (.addColumn column) with
    | none => exact (List.append_nil _).symm
    | some added =>
      obtain rfl : added = column := by
        rw [sqliteUniqueAddition] at hunique
        split_ifs at hunique
        exact (Option.some.inj hunique).symm
      rfl
  -- no column of the table has the name yet
  have hfree : ∀ index ∈ indexes, sqliteKey index.1 ≠ sqliteKey column.name := by
    intro index hindex hkey
    obtain ⟨written, origin, hold, -⟩ := h.named index hindex
    rw [hkey, hnone] at hold
    cases hold
  rw [hafter]
  refine ⟨fun key written origin hother => ?_, fun index hindex => ?_, fun key written origin name hother hname => ?_⟩
  · rw [Function.update_apply] at hother
    rw [List.filter_append, List.map_append, List.filter_map]
    split_ifs at hother with hkey
    · cases hother
      have hold : indexes.filter (fun index => (some column.name).or (first key) = some index.1) = [] := by
        rw [List.filter_eq_nil_iff]
        intro index hindex heq
        refine hfree index hindex ?_
        rw [Option.some.inj (of_decide_eq_true heq)]
      rw [hold]
      simp [Function.comp_def]
    · have hne : written.or (first key) ≠ some column.name := fun heq =>
        hkey (h.keyed key written origin _ hother heq).symm
      rw [h.covering key written origin hother]
      simp only [Function.comp_def, hne, decide_false, List.filter_false, List.map_nil, List.append_nil]
  · rcases List.mem_append.1 hindex with hindex | hindex
    · obtain ⟨written, origin, hold, hname⟩ := h.named index hindex
      exact ⟨written, origin, by rw [Function.update_of_ne (hfree index hindex), hold], hname⟩
    · obtain ⟨name, -, rfl⟩ := List.mem_map.1 hindex
      exact ⟨_, _, Function.update_self _ _ _, rfl⟩
  · rw [Function.update_apply] at hother
    split_ifs at hother with hkey
    · cases hother
      cases hname
      exact hkey.symm
    · exact h.keyed key written origin name hother hname

theorem Carried.dropColumn (hsqlite : alter.databaseType = .sqlite) (h : alter.Carried first indexes t) {name : List Char}
    {written : Option (List Char)} {origin : ColumnSource} (hcolumn : t (sqliteKey name) = some (written, origin))
    (hname : written.or (first (sqliteKey name)) = some name) :
    alter.Carried first (alter.indexesAfter indexes (.dropColumn name)) (Function.update t (sqliteKey name) none) := by
  have hafter : alter.indexesAfter indexes (.dropColumn name) = indexes.filter fun index => index.1 ≠ name :=
    if_pos hsqlite
  rw [hafter]
  refine ⟨fun key written' origin' hother => ?_, fun index hindex => ?_, fun key written' origin' other hother hname' => ?_⟩
  · rw [Function.update_apply] at hother
    split_ifs at hother with hkey
    have hne : written'.or (first key) ≠ some name := fun heq => hkey (h.keyed key written' origin' _ hother heq).symm
    rw [← h.covering key written' origin' hother, List.filter_filter]
    refine congrArg (List.map Prod.snd) (List.filter_congr fun index _ => ?_)
    by_cases hindex : index.1 = name
    · simp [hindex, hne]
    · simp [hindex]
  · obtain ⟨hindex, hne⟩ := List.mem_filter.1 hindex
    obtain ⟨written', origin', hold, hname'⟩ := h.named index hindex
    refine ⟨written', origin', ?_, hname'⟩
    rw [Function.update_apply, if_neg, hold]
    intro hkey
    rw [hkey, hcolumn] at hold
    cases hold
    rw [hkey, hname] at hname'
    cases hname'
    simp at hne
  · rw [Function.update_apply] at hother
    split_ifs at hother with hkey
    exact h.keyed key written' origin' other hother hname'

theorem Carried.renameColumn (h : alter.Carried first indexes t) {source target : List Char} {written : Option (List Char)}
    {origin : ColumnSource} (hsource : t (sqliteKey source) = some (written, origin))
    (hname : written.or (first (sqliteKey source)) = some source)
    (hfree : sqliteKey target = sqliteKey source ∨ t (sqliteKey target) = none) :
    alter.Carried first (alter.indexesAfter indexes (.renameColumn source target))
      (Function.update (Function.update t (sqliteKey source) none) (sqliteKey target) (some (some target, origin))) := by
  have hafter : alter.indexesAfter indexes (.renameColumn source target) =
      indexes.map fun index => if index.1 = source then (target, index.2) else index := rfl
  -- the other indexes' columns keep apart from both names
  have hapart : ∀ index ∈ indexes, index.1 ≠ source →
      sqliteKey index.1 ≠ sqliteKey source ∧ sqliteKey index.1 ≠ sqliteKey target := by
    intro index hindex hne
    obtain ⟨written', origin', hold, hname'⟩ := h.named index hindex
    have hne' : sqliteKey index.1 ≠ sqliteKey source := by
      intro hkey
      rw [hkey, hsource] at hold
      cases hold
      rw [hkey, hname] at hname'
      exact hne (Option.some.inj hname').symm
    refine ⟨hne', fun hkey => ?_⟩
    rcases hfree with hfree | hfree
    · exact hne' (hkey.trans hfree)
    · rw [hkey, hfree] at hold
      cases hold
  rw [hafter]
  refine ⟨fun key written' origin' hother => ?_, fun index hindex => ?_, fun key written' origin' other hother hname' => ?_⟩
  · have hsnd : (Prod.snd ∘ fun index : List Char × List Char => if index.1 = source then (target, index.2) else index) =
        Prod.snd := by
      funext index
      rw [Function.comp_apply]
      split_ifs <;> rfl
    rw [List.filter_map, List.map_map, hsnd]
    rw [Function.update_apply, Function.update_apply] at hother
    split_ifs at hother with htarget hkey
    · cases hother
      rw [← h.covering _ written origin hsource, hname]
      refine congrArg (List.map Prod.snd) (List.filter_congr fun index hindex => ?_)
      rw [Function.comp_apply]
      split_ifs with hsame
      · simp [hsame]
      · have hne : target ≠ index.1 := fun heq => (hapart index hindex hsame).2 (by rw [heq])
        simp [Ne.symm hsame, hne]
    · have hne : written'.or (first key) ≠ some target := fun heq => htarget (h.keyed key written' origin' _ hother heq).symm
      have hne' : written'.or (first key) ≠ some source := fun heq => hkey (h.keyed key written' origin' _ hother heq).symm
      rw [← h.covering key written' origin' hother]
      refine congrArg (List.map Prod.snd) (List.filter_congr fun index _ => ?_)
      rw [Function.comp_apply]
      split_ifs with hsame
      · simp [hne, hsame, hne']
      · rfl
  · obtain ⟨old, hold, rfl⟩ := List.mem_map.1 hindex
    split_ifs with hsame
    · exact ⟨_, origin, Function.update_self _ _ _, rfl⟩
    · obtain ⟨hkey, hkey'⟩ := hapart old hold hsame
      obtain ⟨written', origin', hnamed, hname'⟩ := h.named old hold
      exact ⟨written', origin', by rw [Function.update_of_ne hkey', Function.update_of_ne hkey, hnamed], hname'⟩
  · rw [Function.update_apply, Function.update_apply] at hother
    split_ifs at hother with htarget hkey
    · cases hother
      cases hname'
      exact htarget.symm
    · exact h.keyed key written' origin' other hother hname'

theorem Carried.step (hsqlite : alter.databaseType = .sqlite) (h : alter.Carried first indexes t)
    {operation : AlterOperation} (hnames : t.Names first operation) (happly : t.apply operation = some t') :
    alter.Carried first (alter.indexesAfter indexes operation) t' := by
  obtain ⟨column, rfl, hnone, rfl⟩ | ⟨name, rfl, hthere, rfl⟩ | ⟨source, target, written, origin, rfl, hsource, hfree, rfl⟩ :=
    SqliteColumns.apply_cases happly
  · exact h.addColumn column hnone
  · obtain ⟨⟨written, origin⟩, hcolumn⟩ := Option.isSome_iff_exists.1 hthere
    exact h.dropColumn hsqlite hcolumn (hnames written origin hcolumn)
  · exact h.renameColumn hsource (hnames written origin hsource) hfree

theorem mapM_ok {α β : Type} {f : α → Except Error β} {g : α → β} (h : ∀ x, f x = .ok (g x)) (xs : List α) :
    xs.mapM f = .ok (xs.map g) := by
  induction xs with
  | nil => rfl
  | cons x xs ih =>
    rw [List.mapM_cons, h, ih]
    rfl

/-- Every operation that SQLite takes has its statement. -/
theorem buildOperation_applied {operation : AlterOperation} (happly : t.apply operation = some t') :
    ∃ statement, alter.buildOperation operation = .ok statement := by
  cases operation with
  | addColumn column =>
    rw [buildOperation]
    cases alter.sqliteUniqueAddition (.addColumn column) with
    | none => exact ⟨_, rfl⟩
    | some column => exact ⟨_, rfl⟩
  | dropColumn name => exact ⟨_, rfl⟩
  | renameColumn source target => exact ⟨_, rfl⟩
  | changeColumnType name columnType => cases happly

/-- What the loop drops before an operation. -/
theorem droppedIndexes_eq (hsqlite : alter.databaseType = .sqlite) (h : alter.Carried first indexes t)
    {operation : AlterOperation} (hnames : t.Names first operation) (happly : t.apply operation = some t') :
    (alter.droppedIndexes indexes operation).map Prod.snd = alter.indexesBefore t operation := by
  cases operation with
  | dropColumn name =>
    obtain ⟨_, hdrop, -⟩ | ⟨_, hdrop, hthere, -⟩ | ⟨_, _, _, _, hdrop, -⟩ := SqliteColumns.apply_cases happly <;> cases hdrop
    obtain ⟨⟨written, origin⟩, hcolumn⟩ := Option.isSome_iff_exists.1 hthere
    rw [droppedIndexes, if_pos hsqlite, indexesBefore, hcolumn, Option.elim_some, ← h.covering _ written origin hcolumn,
      hnames written origin hcolumn]
    simp only [Option.some.injEq, eq_comm]
  | addColumn column => rfl
  | renameColumn source target => rfl
  | changeColumnType name columnType => rfl

/-- The statements of one operation are those of its steps. -/
theorem stepsOf_sql (hsqlite : alter.databaseType = .sqlite) (h : alter.Carried first indexes t) {operation : AlterOperation}
    (hnames : t.Names first operation) (happly : t.apply operation = some t') {statement : List Char}
    (hstatement : alter.buildOperation operation = .ok statement) :
    (alter.stepsOf t operation).mapM alter.stepSql =
      .ok ((alter.droppedIndexes indexes operation).map (fun index =>
        "DROP INDEX ".toList ++ alter.sqliteIndexReference index.2) ++ [statement] ++
          (alter.sqliteUniqueAddition operation).toList.map alter.createUniqueIndex) := by
  have hdrop : ((alter.indexesBefore t operation).map AlterationStep.dropIndex).mapM alter.stepSql =
      .ok ((alter.indexesBefore t operation).map fun index => "DROP INDEX ".toList ++ alter.sqliteIndexReference index) := by
    rw [List.mapM_map]
    exact mapM_ok (fun _ => rfl) _
  have hcreate : ((alter.sqliteUniqueAddition operation).toList.map AlterationStep.createIndex).mapM alter.stepSql =
      .ok ((alter.sqliteUniqueAddition operation).toList.map alter.createUniqueIndex) := by
    rw [List.mapM_map]
    exact mapM_ok (fun _ => rfl) _
  rw [stepsOf, List.mapM_append, hdrop, List.mapM_cons, stepSql, hstatement, hcreate, ← droppedIndexes_eq hsqlite h hnames happly,
    List.map_map, List.append_assoc, List.singleton_append]
  rfl

/-- The statements of the loop are those of the steps. -/
theorem buildFrom_steps (hsqlite : alter.databaseType = .sqlite) {operations : List AlterOperation}
    (h : alter.Carried first indexes t) (hvalid : (t.run operations).isSome = true) (hnames : t.NamesRun first operations) :
    ∃ statements, alter.buildFrom indexes operations = .ok statements ∧
      (alter.steps t operations).mapM alter.stepSql = .ok statements := by
  induction operations generalizing indexes t with
  | nil => exact ⟨[], rfl, rfl⟩
  | cons operation operations ih =>
    obtain ⟨t', happly, hvalid⟩ := SqliteColumns.run_cons hvalid
    obtain ⟨statements, hbuild, hsteps⟩ := ih (h.step hsqlite hnames.1 happly) hvalid (hnames.2 t' happly)
    obtain ⟨statement, hstatement⟩ := @buildOperation_applied alter t t' operation happly
    refine ⟨(alter.droppedIndexes indexes operation).map (fun index =>
      "DROP INDEX ".toList ++ alter.sqliteIndexReference index.2) ++ [statement] ++
        (alter.sqliteUniqueAddition operation).toList.map alter.createUniqueIndex ++ statements, ?_, ?_⟩
    · rw [buildFrom, hstatement, hbuild]
      rfl
    · rw [steps, happly, Option.elim_some, List.mapM_append, stepsOf_sql hsqlite h hnames.1 happly hstatement, hsteps]
      rfl

/-- Indexes in another order are left in another order. -/
theorem indexesLeft_perm {names names' : List (List Char)} (hperm : names.Perm names') (steps : List AlterationStep) :
    (alter.indexesLeft names steps).isSome = (alter.indexesLeft names' steps).isSome := by
  induction steps generalizing names names' with
  | nil => rfl
  | cons step steps ih =>
    cases step with
    | dropIndex index =>
      rw [indexesLeft, indexesLeft]
      by_cases hmem : sqliteKey index ∈ names
      · rw [if_pos hmem, if_pos (hperm.mem_iff.1 hmem)]
        exact ih (hperm.erase _)
      · rw [if_neg hmem, if_neg fun hmem' => hmem (hperm.mem_iff.2 hmem')]
    | operation operation => exact ih hperm
    | createIndex column => exact ih (hperm.cons _)

/-- Indexes that are there can be dropped one by one. -/
theorem indexesLeft_drops (dropped left : List (List Char)) (steps : List AlterationStep) :
    (alter.indexesLeft (dropped.map sqliteKey ++ left) (dropped.map .dropIndex ++ steps)).isSome =
      (alter.indexesLeft left steps).isSome := by
  induction dropped with
  | nil => rfl
  | cons index dropped ih =>
    rw [List.map_cons, List.map_cons, List.cons_append, List.cons_append, indexesLeft, if_pos List.mem_cons_self,
      List.erase_cons_head]
    exact ih

/-- The indexes the loop carries along are those that are left. -/
theorem indexesLeft_stepsOf (hsqlite : alter.databaseType = .sqlite) (h : alter.Carried first indexes t)
    {operation : AlterOperation} (hnames : t.Names first operation) (happly : t.apply operation = some t')
    (steps : List AlterationStep) :
    (alter.indexesLeft (indexes.map fun index => sqliteKey index.2) (alter.stepsOf t operation ++ steps)).isSome =
      (alter.indexesLeft ((alter.indexesAfter indexes operation).map fun index => sqliteKey index.2) steps).isSome := by
  have hbefore := droppedIndexes_eq hsqlite h hnames happly
  rw [stepsOf, ← hbefore]
  cases operation with
  | dropColumn name =>
    have hdropped : alter.droppedIndexes indexes (.dropColumn name) = indexes.filter fun index => index.1 = name :=
      if_pos hsqlite
    have hafter : alter.indexesAfter indexes (.dropColumn name) = indexes.filter fun index => index.1 ≠ name :=
      if_pos hsqlite
    have hsplit : (indexes.map fun index => sqliteKey index.2).Perm
        (((alter.droppedIndexes indexes (.dropColumn name)).map Prod.snd).map sqliteKey ++
          (alter.indexesAfter indexes (.dropColumn name)).map fun index => sqliteKey index.2) := by
      rw [hdropped, hafter, List.map_map]
      refine ((List.filter_append_perm (fun index => decide (index.1 = name)) indexes).symm.map _).trans ?_
      rw [List.map_append]
      simp [Function.comp_def]
    rw [indexesLeft_perm hsplit, List.append_assoc, indexesLeft_drops]
    rfl
  | addColumn column =>
    show (alter.indexesLeft (indexes.map fun index => sqliteKey index.2)
      (((alter.sqliteUniqueAddition (.addColumn column)).toList.map .createIndex) ++ steps)).isSome = _
    rw [indexesAfter]
    cases hunique : alter.sqliteUniqueAddition (.addColumn column) with
    | none => rfl
    | some added =>
      obtain rfl : added = column := by
        rw [sqliteUniqueAddition] at hunique
        split_ifs at hunique
        exact (Option.some.inj hunique).symm
      refine indexesLeft_perm ?_ steps
      rw [List.map_append]
      exact (List.perm_append_singleton _ _).symm
  | renameColumn source target =>
    have hsame : (alter.indexesAfter indexes (.renameColumn source target)).map (fun index => sqliteKey index.2) =
        indexes.map fun index => sqliteKey index.2 := by
      rw [indexesAfter, List.map_map]
      refine List.map_congr_left fun index _ => ?_
      rw [Function.comp_apply]
      split_ifs <;> rfl
    rw [hsame]
    rfl
  | changeColumnType name columnType => cases happly

theorem indexesLeft_steps (hsqlite : alter.databaseType = .sqlite) {operations : List AlterOperation}
    (h : alter.Carried first indexes t) (hvalid : (t.run operations).isSome = true) (hnames : t.NamesRun first operations) :
    (alter.indexesLeft (indexes.map fun index => sqliteKey index.2) (alter.steps t operations)).isSome = true := by
  induction operations generalizing indexes t with
  | nil => rfl
  | cons operation operations ih =>
    obtain ⟨t', happly, hvalid⟩ := SqliteColumns.run_cons hvalid
    rw [steps, happly, Option.elim_some, indexesLeft_stepsOf hsqlite h hnames.1 happly]
    exact ih (h.step hsqlite hnames.1 happly) hvalid (hnames.2 t' happly)

end AlterTableBuilder

end TideOrm
