import TideOrm.Spec.Upsert
import Mathlib.Data.List.Dedup
import Mathlib.Data.List.Perm.Subperm

/-! What an upsert makes of its table, and that MySQL's transaction does what `ON CONFLICT` does on the other databases. -/

namespace TideOrm

open Lib

theorem ModelMeta.canonicalColumnName_mem {m : ModelMeta} {name column : List Char} (h : m.canonicalColumnName name = some column) :
    column ∈ m.columnNames := by
  rw [canonicalColumnName, Option.or_eq_some_iff] at h
  rcases h with hfind | ⟨-, hfield⟩
  · exact List.mem_of_find?_eq_some hfind
  · obtain ⟨names, hnames, hsome⟩ := List.exists_of_findSome?_eq_some hfield
    split_ifs at hsome
    obtain rfl := Option.some.inj hsome
    exact (List.of_mem_zip hnames).2

theorem ModelMeta.canonicalColumnName_of_mem {m : ModelMeta} {column : List Char} (h : column ∈ m.columnNames) :
    m.canonicalColumnName column = some column := by
  have hfound : (m.columnNames.find? (· == column)).isSome = true := List.find?_isSome.2 ⟨column, h, beq_self_eq_true column⟩
  obtain ⟨found, hfind⟩ := Option.isSome_iff_exists.1 hfound
  have heq : (found == column) = true := List.find?_some (p := (· == column)) hfind
  obtain rfl := beq_iff_eq.1 heq
  rw [canonicalColumnName, hfind]
  rfl

theorem ModelMeta.columnNamed_columnNamed (m : ModelMeta) (name : List Char) : m.columnNamed (m.columnNamed name) = m.columnNamed name := by
  cases hname : m.canonicalColumnName name with
  | none => rw [show m.columnNamed name = name from congrArg (Option.getD · name) hname, columnNamed, hname, Option.getD_none]
  | some column =>
    rw [show m.columnNamed name = column from congrArg (Option.getD · name) hname, columnNamed,
      canonicalColumnName_of_mem (canonicalColumnName_mem hname), Option.getD_some]

namespace UpsertModel

variable {V : Type} {model : UpsertModel V} {managedCreatedAt : List (List Char)} {builder : OnConflictBuilder} {value : UpsertValue V}
  {numbers : List Char → V}

/-- The one row a predicate tells from the others. -/
theorem split_of_find? {α : Type} {R : α → α → Prop} {rows : List α} {p : α → Bool} {stored : α} (hpair : rows.Pairwise R)
    (hone : ∀ row other, R row other → p row = true → p other = false) (hfind : rows.find? p = some stored) :
    ∃ front back, rows = front ++ stored :: back ∧ p stored = true ∧ ∀ row ∈ front ++ back, p row = false := by
  obtain ⟨hstored, front, back, rfl, hfront⟩ := List.find?_eq_some_iff_append.1 hfind
  refine ⟨front, back, rfl, hstored, fun row hrow => ?_⟩
  rcases List.mem_append.1 hrow with hrow | hrow
  · exact Bool.not_eq_true' _ ▸ hfront row hrow
  · exact hone stored row ((List.pairwise_cons.1 (List.pairwise_append.1 hpair).2.1).1 row hrow) hstored

theorem updateStatement_split {found : (List Char → V) → Bool} {front back : Rows V} {stored : List Char → V} (updated : List Char → V)
    (hstored : found stored = true) (hothers : ∀ row ∈ front ++ back, found row = false) :
    model.updateStatement found updated (front ++ stored :: back) =
      if model.breaks (front ++ back) updated then (.error model.refusal, front ++ stored :: back)
      else (.ok updated, front ++ updated :: back) := by
  have hfilter : (front ++ stored :: back).filter (fun row => !found row) = front ++ back := by
    rw [List.filter_append, List.filter_cons_of_neg (by rw [hstored]; exact Bool.false_ne_true), ← List.filter_append]
    exact List.filter_eq_self.2 fun row hrow => by rw [hothers row hrow]; rfl
  have hmap : (front ++ stored :: back).map (fun row => if found row then updated else row) = front ++ updated :: back := by
    have hkeep (rows : Rows V) (hrows : ∀ row ∈ rows, found row = false) :
        rows.map (fun row => if found row then updated else row) = rows := by
      refine (List.map_congr_left fun row hrow => ?_).trans (List.map_id _)
      rw [hrows row hrow]
      rfl
    rw [List.map_append, List.map_cons, hkeep front fun row hrow => hothers row (List.mem_append_left _ hrow),
      hkeep back fun row hrow => hothers row (List.mem_append_right _ hrow), if_pos hstored]
  rw [updateStatement, hfilter, hmap]

/-- The table as its constraints keep it. -/
structure Sound (model : UpsertModel V) (rows : Rows V) : Prop where
  unique : rows.Pairwise fun row other => ∀ index ∈ model.indexes, index.collides row other = false
  keys : ∀ row ∈ rows, ∀ key ∈ model.primaryKeyNames, row key ≠ model.null

theorem breaks_eq_false {rows : Rows V} {row : List Char → V} (h : model.breaks rows row = false) :
    (∀ other ∈ rows, ∀ index ∈ model.indexes, index.collides row other = false) ∧ ∀ key ∈ model.primaryKeyNames, row key ≠ model.null := by
  rw [breaks, Bool.or_eq_false_iff, Bool.or_eq_false_iff] at h
  refine ⟨fun other hother index hindex => ?_, fun key hkey hnull => ?_⟩
  · exact eq_false_of_ne_true (List.any_eq_false.1 (eq_false_of_ne_true (List.any_eq_false.1 h.1.2 other hother)) index hindex)
  · exact Bool.false_ne_true (h.1.1.symm.trans (model.primaryKey_notNull row ⟨key, hkey, hnull⟩))

theorem sound_insertStatement {rows : Rows V} (h : model.Sound rows) (active : List Char → Option V) :
    model.Sound (model.insertStatement numbers active rows).2 := by
  rw [insertStatement]
  split_ifs with hbreaks
  · exact h
  · obtain ⟨hunique, hkeys⟩ := breaks_eq_false (eq_false_of_ne_true hbreaks)
    refine ⟨List.pairwise_append.2 ⟨h.unique, List.pairwise_singleton _ _, fun row hrow other hother index hindex => ?_⟩,
      List.forall_mem_append.2 ⟨h.keys, List.forall_mem_singleton.2 hkeys⟩⟩
    rw [List.mem_singleton.1 hother, index.collides_symm]
    exact hunique row hrow index hindex

theorem sound_replaced {front back : Rows V} {stored updated : List Char → V} (h : model.Sound (front ++ stored :: back))
    (hbreaks : model.breaks (front ++ back) updated = false) : model.Sound (front ++ updated :: back) := by
  obtain ⟨hunique, hkeys⟩ := breaks_eq_false hbreaks
  obtain ⟨hfront, hback, hacross⟩ := List.pairwise_append.1 h.unique
  have hold := List.forall_mem_append.1 h.keys
  refine ⟨List.pairwise_append.2 ⟨hfront, List.pairwise_cons.2 ⟨fun row hrow => ?_, (List.pairwise_cons.1 hback).2⟩, fun row hrow other hother => ?_⟩,
    List.forall_mem_append.2 ⟨hold.1, List.forall_mem_cons.2 ⟨hkeys, (List.forall_mem_cons.1 hold.2).2⟩⟩⟩
  · exact hunique row (List.mem_append_right _ hrow)
  · rcases List.mem_cons.1 hother with rfl | hother
    · intro index hindex
      rw [index.collides_symm]
      exact hunique row (List.mem_append_left _ hrow) index hindex
    · exact hacross row hrow other (List.mem_cons_of_mem _ hother)

theorem sound_updateStatement {found : (List Char → V) → Bool} {front back : Rows V} {stored : List Char → V}
    (h : model.Sound (front ++ stored :: back)) (hstored : found stored = true) (hothers : ∀ row ∈ front ++ back, found row = false)
    (updated : List Char → V) : model.Sound (model.updateStatement found updated (front ++ stored :: back)).2 := by
  rw [updateStatement_split updated hstored hothers]
  split_ifs with hbreaks
  · exact h
  · exact sound_replaced h (eq_false_of_ne_true hbreaks)

/-- An index that `ON CONFLICT` names compares just the columns it is named by. -/
theorem collides_arbiter {index : UniqueIndex V} (hindex : index ∈ model.indexes) {columns : List (List Char)}
    (harbiter : isArbiter columns index = true) (row other : List Char → V) : index.collides row other = true ↔
      ∀ column ∈ columns, model.collationKey column (row column) = model.collationKey column (other column) ∧ row column ≠ model.null := by
  rw [isArbiter, Bool.and_eq_true, List.all_eq_true, List.all_eq_true] at harbiter
  obtain ⟨hparts, hcolumns⟩ := harbiter
  have hwhole : index.parts = (index.parts.filterMap id).map some := by
    rw [List.map_filterMap]
    refine (List.filterMap_some.symm.trans (List.filterMap_congr fun part hpart => ?_))
    obtain ⟨column, hcolumn⟩ := (Option.any_eq_true _ _).1 (hparts part hpart)
    rw [hcolumn.1]
    rfl
  rw [model.collides_whole index hindex _ hwhole]
  refine forall_congr' fun column => imp_congr_left ?_
  rw [List.mem_filterMap]
  constructor
  · rintro ⟨part, hpart, hsome⟩
    obtain ⟨found, hfound, hmem⟩ := (Option.any_eq_true _ _).1 (hparts part hpart)
    rw [id, hfound] at hsome
    exact Option.some.inj hsome ▸ List.contains_iff_mem.1 hmem
  · exact fun hcolumn => ⟨some column, List.contains_iff_mem.1 (hcolumns column hcolumn), rfl⟩

/-- MySQL's check of the conflict columns finds an index that `ON CONFLICT` could name. -/
theorem validateMysqlConflictTarget_iff {columns : List (List Char)} (hnodup : columns.Nodup) :
    model.validateMysqlConflictTarget columns = .ok () ↔ ∃ index ∈ model.indexes, isArbiter columns index = true := by
  have htarget : columns.dedup = columns := List.dedup_eq_self.2 hnodup
  have hsome : (columns.map some).Nodup := hnodup.map fun _ _ => Option.some.inj
  have hparts (index : UniqueIndex V) (hindex : index ∈ model.indexes) :
      (index.parts.length == columns.length && index.parts.all fun part => part.any columns.contains) = isArbiter columns index := by
    have hin (hall : (index.parts.all fun part => part.any columns.contains) = true) : index.parts ⊆ columns.map some := fun part hpart => by
      obtain ⟨column, rfl, hcolumn⟩ := (Option.any_eq_true _ _).1 (List.all_eq_true.1 hall part hpart)
      exact List.mem_map_of_mem (List.contains_iff_mem.1 hcolumn)
    rw [isArbiter, Bool.eq_iff_iff, Bool.and_eq_true, Bool.and_eq_true, and_comm]
    refine and_congr_right fun hall => ?_
    have hsub := List.Nodup.subperm (model.parts_nodup index hindex) (hin hall)
    rw [beq_iff_eq, List.all_eq_true]
    constructor
    · intro hlength column hcolumn
      have hperm := hsub.perm_of_length_le (by rw [List.length_map, hlength])
      exact List.contains_iff_mem.2 (hperm.mem_iff.2 (List.mem_map_of_mem hcolumn))
    · intro hback
      have hover : columns.map some ⊆ index.parts := fun part hpart => by
        obtain ⟨column, hcolumn, rfl⟩ := List.mem_map.1 hpart
        exact List.contains_iff_mem.1 (hback column hcolumn)
      have hlength := (List.Nodup.subperm hsome hover).length_le
      rw [List.length_map] at hlength
      exact le_antisymm (hsub.length_le.trans_eq (List.length_map _)) hlength
  rw [validateMysqlConflictTarget, htarget]
  simp only [beq_self_eq_true, Bool.true_and]
  have hany : (model.indexes.any fun index =>
      index.parts.length == columns.length && index.parts.all fun part => part.any columns.contains) = true ↔
        ∃ index ∈ model.indexes, isArbiter columns index = true :=
    List.any_eq_true.trans (exists_congr fun index => and_congr_right fun hindex => by rw [hparts index hindex])
  split_ifs with hvalid
  · exact iff_of_true rfl (hany.1 hvalid)
  · exact iff_of_false (fun h => by cases h) fun hindex => hvalid (hany.2 hindex)

theorem ensureStorable_mySql (active : List Char → Option V) : model.ensureStorable .mySql active = .ok () := by
  have hfields : model.checkFieldsStorable .mySql = .ok () := if_neg (Bool.eq_false_iff.1 (List.any_eq_false.2 fun _ _ => Bool.false_ne_true))
  rw [ensureStorable, hfields]
  rfl

theorem columnNamedOr_ok {error : Error} {name column : List Char} (h : model.columnNamedOr error name = .ok column) :
    column ∈ model.columnNames ∧ column = model.columnNamed name := by
  rw [columnNamedOr] at h
  cases hname : model.canonicalColumnName name with
  | none =>
    rw [hname] at h
    cases h
  | some found =>
    rw [hname] at h
    obtain rfl := Except.ok.inj h
    exact ⟨ModelMeta.canonicalColumnName_mem hname, by rw [ModelMeta.columnNamed, hname]; rfl⟩

theorem resolve_of_mem {role column : List Char} (h : column ∈ model.columnNames) : model.resolve role column = .ok column := by
  rw [resolve, columnNamedOr, ModelMeta.canonicalColumnName_of_mem h]

/-- What is found by name is what is named. -/
theorem columnsNamed {error : List Char → Error} {names columns : List (List Char)}
    (h : (names.mapM fun name => model.columnNamedOr (error name) name) = .ok columns) :
    columns = names.map model.columnNamed ∧ ∀ column ∈ columns, column ∈ model.columnNames := by
  have hall := (mapM_ok_iff _ _ _).1 h
  refine ⟨?_, fun column hcolumn => ?_⟩
  · exact (List.map_id _).symm.trans (map_eq_of_forall₂ hall (g := id) fun name column hname => ((columnNamedOr_ok hname).2).symm).symm
  · obtain ⟨name, -, hname⟩ := exists_of_forall₂ (List.Forall₂.flip hall) hcolumn
    exact (columnNamedOr_ok hname).1

/-- A column that is overwritten on a conflict. -/
def Overwrites (model : UpsertModel V) (managedCreatedAt : List (List Char)) (builder : OnConflictBuilder) (column : List Char) : Prop :=
  builder.updateColumns.elim
    (column ∈ model.columnNames ∧ column ∉ (builder.excludeColumns.getD []).map model.columnNamed ∧ column ∉ managedCreatedAt ∧
      column ∉ model.primaryKeyNames ∧ column ∉ builder.conflictColumns.map model.columnNamed)
    fun names => column ∈ names.map model.columnNamed

theorem updateColumnNames_ok {updates : List (List Char)}
    (h : model.updateColumnNames managedCreatedAt builder.updateColumns builder.excludeColumns (builder.conflictColumns.map model.columnNamed) = .ok updates) :
    (∀ column ∈ updates, column ∈ model.columnNames) ∧ ∀ column, column ∈ updates ↔ model.Overwrites managedCreatedAt builder column := by
  unfold Overwrites
  cases hnames : builder.updateColumns with
  | some names =>
    rw [hnames] at h
    obtain ⟨rfl, hmem⟩ := columnsNamed h
    exact ⟨hmem, fun column => Iff.rfl⟩
  | none =>
    rw [hnames] at h
    obtain ⟨exclude, hexclude, hfilter⟩ := bind_eq_ok h
    obtain ⟨rfl, -⟩ := columnsNamed hexclude
    obtain rfl := Except.ok.inj hfilter
    refine ⟨fun column hcolumn => (List.mem_filter.1 hcolumn).1, fun column => ?_⟩
    rw [List.mem_filter]
    simp only [Bool.and_eq_true, Bool.not_eq_true', List.contains_eq_mem, decide_eq_false_iff_not, Option.elim_none, and_assoc]

structure Planned (model : UpsertModel V) (managedCreatedAt : List (List Char)) (builder : OnConflictBuilder) (value : UpsertValue V)
    (plan : UpsertPlan V) : Prop where
  conflicts : plan.conflictColumns = builder.conflictColumns.map model.columnNamed
  updates : ∀ column, column ∈ plan.updateColumns ↔ model.Overwrites managedCreatedAt builder column
  updates_mem : ∀ column ∈ plan.updateColumns, column ∈ model.columnNames
  active : ∃ active, value.tryIntoActiveModel = .ok active ∧ plan.active = model.keyedActive
    (!(model.primaryKeyAutoIncrement && value.isNew) &&
      (plan.conflictColumns.any model.primaryKeyNames.contains || !model.primaryKeyAutoIncrement)) value.toEntityModel active
  insertOnly : plan.insertOnly = (model.primaryKeyAutoIncrement && value.isNew && plan.conflictColumns.all model.primaryKeyNames.contains)

theorem plan_ok {plan : UpsertPlan V} (h : model.plan managedCreatedAt builder value = .ok plan) :
    model.Planned managedCreatedAt builder value plan := by
  obtain ⟨_, -, h⟩ := bind_eq_ok h
  obtain ⟨_, -, h⟩ := bind_eq_ok h
  obtain ⟨_, -, h⟩ := bind_eq_ok h
  obtain ⟨conflictColumns, hconflicts, h⟩ := bind_eq_ok h
  obtain ⟨active, hactive, h⟩ := bind_eq_ok h
  obtain ⟨updateCols, hcols, h⟩ := bind_eq_ok h
  obtain ⟨updateColumns, hupdates, h⟩ := bind_eq_ok h
  obtain rfl := Except.ok.inj h
  obtain ⟨hmem, hover⟩ := updateColumnNames_ok hcols
  have hsame : updateColumns = updateCols := by
    rw [(mapM_ok_iff _ _ updateCols).2 (List.forall₂_same.2 fun column hcolumn => resolve_of_mem (hmem column hcolumn))] at hupdates
    exact (Except.ok.inj hupdates).symm
  have hnamed : conflictColumns = builder.conflictColumns.map model.columnNamed := by
    obtain ⟨rfl, -⟩ := columnsNamed hconflicts
    rw [List.map_map]
    exact List.map_congr_left fun name _ => model.columnNamed_columnNamed name
  subst hsame hnamed
  exact ⟨rfl, hover, hmem, ⟨active, hactive, rfl⟩, rfl⟩

/-- A call that names columns as every database reads them. -/
structure Portable (model : UpsertModel V) (managedCreatedAt : List (List Char)) (numbers : List Char → V) (builder : OnConflictBuilder)
    (value : UpsertValue V) : Prop where
  conflicts_nodup : (builder.conflictColumns.map model.columnNamed).Nodup
  keys_kept : ∀ names, builder.updateColumns = some names → ∀ name ∈ names, model.columnNamed name ∉ model.primaryKeyNames
  /-- a key that the database is to number is all there is to conflict on, or no part of it -/
  key_known : model.primaryKeyAutoIncrement = true → value.isNew = true →
    (∀ name ∈ builder.conflictColumns, model.columnNamed name ∈ model.primaryKeyNames) ∨
      ∀ name ∈ builder.conflictColumns, model.columnNamed name ∉ model.primaryKeyNames
  conflicts_written : ∀ active, value.tryIntoActiveModel = .ok active → ∀ name ∈ builder.conflictColumns,
    ¬(model.primaryKeyAutoIncrement = true ∧ model.columnNamed name ∈ model.primaryKeyNames) →
      active (model.columnNamed name) = some (value.toEntityModel (model.columnNamed name))
  columns_written : ∀ active, value.tryIntoActiveModel = .ok active → ∀ column ∈ model.columnNames, column ∉ model.primaryKeyNames →
    (active column).isSome = true
  /-- every driver can read back what is written -/
  fields_stored : ∀ backend, model.checkFieldsStorable backend = .ok ()
  values_stored : ∀ plan, model.plan managedCreatedAt builder value = .ok plan → ∀ column v, plan.active column = some v →
    model.sqliteStorable v = true
  /-- no `NOT NULL` or `CHECK` refuses the new row -/
  wellFormed : ∀ plan, model.plan managedCreatedAt builder value = .ok plan → model.malformed (proposed numbers plan.active) = false

section Plan

variable {plan : UpsertPlan V}

theorem keyedActive_of_not {includePk : Bool} {lookup : List Char → V} {active : List Char → Option V} {column : List Char}
    (h : ¬(model.primaryKeyAutoIncrement = true ∧ column ∈ model.primaryKeyNames)) :
    model.keyedActive includePk lookup active column = active column := by
  rw [keyedActive, if_neg]
  rwa [Bool.and_eq_true, List.contains_iff_mem]

theorem conflicts_written_plan (hp : model.Portable managedCreatedAt numbers builder value) (hplan : model.Planned managedCreatedAt builder value plan)
    (hmerges : plan.insertOnly = false) : ∀ column ∈ plan.conflictColumns, plan.active column = some (value.toEntityModel column) := by
  obtain ⟨active, htry, hactive⟩ := hplan.active
  intro column hcolumn
  by_cases hkey : model.primaryKeyAutoIncrement = true ∧ column ∈ model.primaryKeyNames
  · have hold : value.isNew = false := by
      refine eq_false_of_ne_true fun hnew => ?_
      have hconflicts := hplan.conflicts
      have hnamed {P : List Char → Prop} (hall : ∀ name ∈ builder.conflictColumns, P (model.columnNamed name)) :
          ∀ column ∈ plan.conflictColumns, P column := hconflicts ▸ List.forall_mem_map.2 hall
      rcases hp.key_known hkey.1 hnew with hall | hno
      · rw [hplan.insertOnly, hkey.1, hnew, Bool.and_self, Bool.true_and] at hmerges
        refine Bool.false_ne_true (hmerges.symm.trans (List.all_eq_true.2 fun column hcolumn => List.contains_iff_mem.2 ?_))
        exact hnamed (P := (· ∈ model.primaryKeyNames)) hall column hcolumn
      · exact hnamed (P := (· ∉ model.primaryKeyNames)) hno column hcolumn hkey.2
    have hany : plan.conflictColumns.any model.primaryKeyNames.contains = true :=
      List.any_eq_true.2 ⟨column, hcolumn, List.contains_iff_mem.2 hkey.2⟩
    rw [hactive, keyedActive, hold, hany, hkey.1, List.contains_iff_mem.2 hkey.2]
    rfl
  · rw [hactive, keyedActive_of_not hkey]
    rw [hplan.conflicts] at hcolumn
    obtain ⟨name, hname, rfl⟩ := List.mem_map.1 hcolumn
    exact hp.conflicts_written active htry name hname hkey

theorem ensureStorable_plan (hp : model.Portable managedCreatedAt numbers builder value)
    (hplan : model.plan managedCreatedAt builder value = .ok plan) (backend : BatchInsert.Backend) :
    model.ensureStorable backend plan.active = .ok () := by
  rw [ensureStorable, hp.fields_stored backend]
  show model.ensureActiveValuesStorable backend plan.active = .ok ()
  rw [ensureActiveValuesStorable]
  split_ifs
  · refine (forM_ok_iff _ _).2 fun column _ => if_neg fun hrefused => ?_
    obtain ⟨v, hv, hnot⟩ := (Option.any_eq_true _ _).1 hrefused
    rw [hp.values_stored plan hplan column v hv] at hnot
    exact Bool.false_ne_true hnot
  · rfl

theorem updates_not_key (hp : model.Portable managedCreatedAt numbers builder value) (hplan : model.Planned managedCreatedAt builder value plan) :
    ∀ column ∈ plan.updateColumns, column ∉ model.primaryKeyNames := by
  intro column hcolumn
  have hover := (hplan.updates column).1 hcolumn
  unfold Overwrites at hover
  cases hnames : builder.updateColumns with
  | none =>
    rw [hnames] at hover
    exact hover.2.2.2.1
  | some names =>
    rw [hnames] at hover
    obtain ⟨name, hname, rfl⟩ := List.mem_map.1 hover
    exact hp.keys_kept names hnames name hname

theorem updates_written (hp : model.Portable managedCreatedAt numbers builder value) (hplan : model.Planned managedCreatedAt builder value plan) :
    ∃ active, value.tryIntoActiveModel = .ok active ∧ ∀ column ∈ plan.updateColumns,
      plan.active column = active column ∧ (active column).isSome = true := by
  obtain ⟨active, htry, hactive⟩ := hplan.active
  refine ⟨active, htry, fun column hcolumn => ?_⟩
  have hkey := updates_not_key hp hplan column hcolumn
  rw [hactive]
  exact ⟨keyedActive_of_not fun h => hkey h.2, hp.columns_written active htry column (hplan.updates_mem column hcolumn) hkey⟩

/-- The key is still to be numbered, and all there is to conflict on. -/
def KeyIsNew (model : UpsertModel V) (builder : OnConflictBuilder) (value : UpsertValue V) : Prop :=
  model.primaryKeyAutoIncrement = true ∧ value.isNew = true ∧
    ∀ name ∈ builder.conflictColumns, model.columnNamed name ∈ model.primaryKeyNames

theorem keyIsNew_iff (hplan : model.Planned managedCreatedAt builder value plan) :
    plan.insertOnly = true ↔ model.KeyIsNew builder value := by
  rw [hplan.insertOnly, Bool.and_eq_true, Bool.and_eq_true, hplan.conflicts, List.all_eq_true, List.forall_mem_map, and_assoc]
  simp only [List.contains_iff_mem]
  rfl

/-- Two databases give one value to each column that the insert leaves to them. -/
def NumbersAgree (model : UpsertModel V) (managedCreatedAt : List (List Char)) (numbers numbers' : List Char → V)
    (call : OnConflictBuilder × UpsertValue V) : Prop :=
  ∀ plan, model.plan managedCreatedAt call.1 call.2 = .ok plan → ∀ column, plan.active column = none → numbers column = numbers' column

theorem NumbersAgree.proposed {numbers' : List Char → V} {call : OnConflictBuilder × UpsertValue V}
    (h : model.NumbersAgree managedCreatedAt numbers numbers' call) (hplan : model.plan managedCreatedAt call.1 call.2 = .ok plan) :
    UpsertModel.proposed numbers plan.active = UpsertModel.proposed numbers' plan.active := by
  funext column
  rw [UpsertModel.proposed, UpsertModel.proposed]
  cases hactive : plan.active column with
  | none => exact h plan hplan column hactive
  | some v => rfl

end Plan

/-- What a call answered, but for the error, and the table it left. -/
def committed (answer : Except Error (List Char → V) × Rows V) : Option (List Char → V) × Rows V := (answer.1.toOption, answer.2)

/-- The row is not read back as a model, or the key's sequence not moved past its key. -/
def Unread (model : UpsertModel V) (row : List Char → V) (e : Error) : Prop :=
  model.readBack row = .error e ∨ model.advanceKeySequence row = .error e

/-- A call comes to what is meant, or fails at a row that is not read back: with nothing written, or where that is not undone with
the row that is meant. -/
def Answers (model : UpsertModel V) (undone : Prop) (meant : Option (List Char → V) × Rows V) (rows : Rows V)
    (answer : Except Error (List Char → V) × Rows V) : Prop :=
  committed answer = meant ∨
    ∃ e row, answer.1 = .error e ∧ model.Unread row e ∧ (answer.2 = rows ∨ ¬undone ∧ meant = (some row, answer.2))

theorem unread_of_handBack {backend : BatchInsert.Backend} {explicitKey : Bool} {row : List Char → V} {e : Error}
    (h : model.handBack backend explicitKey row = .error e) : model.Unread row e := by
  rw [handBack] at h
  cases hread : model.readBack row with
  | error error =>
    rw [hread] at h
    exact .inl (hread.trans h)
  | ok u =>
    rw [hread] at h
    refine .inr ?_
    by_cases hmoves : backend = .postgres ∧ explicitKey = true
    · rw [if_pos hmoves] at h
      exact h
    · rw [if_neg hmoves] at h
      cases h

theorem storedRow_answers (backend : BatchInsert.Backend) (explicitKey : Bool) (rows : Rows V)
    (written : Except Error (List Char → V) × Rows V) :
    model.Answers False (committed written) rows (model.storedRow backend explicitKey written) := by
  obtain ⟨error | row, after⟩ := written
  · exact .inl rfl
  rw [storedRow]
  cases hhand : model.handBack backend explicitKey row with
  | error e => exact .inr ⟨e, row, rfl, unread_of_handBack hhand, .inr ⟨id, rfl⟩⟩
  | ok u => exact .inl rfl

theorem transaction_answers {meant : Option (List Char → V) × Rows V} {rows : Rows V} {body : Rows V → Except Error (List Char → V) × Rows V}
    (h : model.Answers False meant rows (body rows)) (hnothing : meant.1 = none → meant.2 = rows) :
    model.Answers True meant rows (transaction body rows) := by
  rw [transaction]
  rcases hbody : body rows with ⟨error | row, after⟩
  · rw [hbody] at h
    rcases h with hmeant | ⟨e, row, herror, hunread, -⟩
    · subst hmeant
      obtain rfl : after = rows := hnothing rfl
      exact .inl rfl
    · exact .inr ⟨e, row, herror, hunread, .inl rfl⟩
  · rw [hbody] at h
    rcases h with hmeant | ⟨e, row, herror, -⟩
    · exact .inl hmeant
    · cases herror

theorem insertRow_answers {backend : BatchInsert.Backend} {active : List Char → Option V}
    (h : model.ensureStorable backend active = .ok ()) (rows : Rows V) :
    model.Answers False (committed (model.insertStatement numbers active rows)) rows (model.insertRow backend numbers active rows) := by
  rw [insertRow, h]
  exact storedRow_answers ..

variable [DecidableEq V]

/-- What an upsert is for: the row that the conflict columns name takes the values of the columns to overwrite, and where there is
none the new row is added. -/
def merge (model : UpsertModel V) (numbers : List Char → V) (conflictColumns updateColumns : List (List Char)) (values : List Char → V)
    (active : List Char → Option V) (rows : Rows V) : Option (List Char → V) × Rows V :=
  match model.existing conflictColumns values rows with
  | none =>
    let row := proposed numbers active
    if model.breaks rows row then (none, rows) else (some row, rows ++ [row])
  | some stored =>
    let updated := fun column => if updateColumns.contains column then (active column).getD (stored column) else stored column
    let others := rows.filter fun row => !model.matchesOn conflictColumns values row
    if updateColumns.isEmpty then (some stored, rows)
    else if model.breaks others updated then (none, rows)
    else (some updated, rows.map fun row => if model.matchesOn conflictColumns values row then updated else row)

theorem matchesOn_iff {columns : List (List Char)} {values row : List Char → V} : model.matchesOn columns values row = true ↔
    ∀ column ∈ columns, model.collationKey column (row column) = model.collationKey column (values column) := by
  rw [matchesOn, List.all_eq_true]
  exact forall₂_congr fun column _ => decide_eq_true_iff

/-- Columns of an index that name a row without NULL name one row at most. -/
theorem matchesOn_alone {index : UniqueIndex V} (hindex : index ∈ model.indexes) {columns : List (List Char)}
    (harbiter : isArbiter columns index = true) {values : List Char → V} (hnull : ∀ column ∈ columns, values column ≠ model.null)
    (row other : List Char → V) (hdiffer : ∀ index ∈ model.indexes, index.collides row other = false)
    (hrow : model.matchesOn columns values row = true) : model.matchesOn columns values other = false := by
  refine eq_false_of_ne_true fun hother => ?_
  rw [matchesOn_iff] at hrow hother
  have hcollides : index.collides row other = true := (collides_arbiter hindex harbiter row other).2 fun column hcolumn => by
    refine ⟨(hrow column hcolumn).trans (hother column hcolumn).symm, fun hrownull => hnull column hcolumn ?_⟩
    rw [← model.collationKey_null column, ← hrow column hcolumn, model.collationKey_null, hrownull]
  exact Bool.false_ne_true ((hdiffer index hindex).symm.trans hcollides)

theorem existing_some {columns : List (List Char)} {values stored : List Char → V} {rows : Rows V}
    (h : model.existing columns values rows = some stored) :
    (∀ column ∈ columns, values column ≠ model.null) ∧ rows.find? (model.matchesOn columns values) = some stored := by
  rw [existing] at h
  split_ifs at h with hnull
  exact ⟨fun column hcolumn heq => hnull (List.any_eq_true.2 ⟨column, hcolumn, decide_eq_true heq⟩), h⟩

/-- The row that the columns of an index name is the one they match. -/
theorem existing_split {rows : Rows V} (h : model.Sound rows) {index : UniqueIndex V} (hindex : index ∈ model.indexes)
    {columns : List (List Char)} (harbiter : isArbiter columns index = true) {values stored : List Char → V}
    (hstored : model.existing columns values rows = some stored) :
    ∃ front back, rows = front ++ stored :: back ∧ model.matchesOn columns values stored = true ∧
      ∀ row ∈ front ++ back, model.matchesOn columns values row = false := by
  obtain ⟨hnull, hfind⟩ := existing_some hstored
  exact split_of_find? h.unique (matchesOn_alone hindex harbiter hnull) hfind

/-- A stored row is the one that its key names. -/
theorem key_split {front back : Rows V} {stored : List Char → V} (h : model.Sound (front ++ stored :: back)) :
    model.matchesOn model.primaryKeyNames stored stored = true ∧
      ∀ row ∈ front ++ back, model.matchesOn model.primaryKeyNames stored row = false := by
  obtain ⟨index, hindex, hparts⟩ := model.primaryKey_index
  have harbiter : isArbiter model.primaryKeyNames index = true := by
    rw [isArbiter, hparts, Bool.and_eq_true, List.all_eq_true, List.all_eq_true]
    refine ⟨fun part hpart => ?_, fun column hcolumn => List.contains_iff_mem.2 (List.mem_map_of_mem hcolumn)⟩
    obtain ⟨column, hcolumn, rfl⟩ := List.mem_map.1 hpart
    exact List.contains_iff_mem.2 hcolumn
  have hself : model.matchesOn model.primaryKeyNames stored stored = true := matchesOn_iff.2 fun _ _ => rfl
  have halone := matchesOn_alone hindex harbiter (h.keys stored (List.mem_append_right _ (List.mem_cons_self ..)))
  obtain ⟨hfront, hback, hacross⟩ := List.pairwise_append.1 h.unique
  refine ⟨hself, List.forall_mem_append.2 ⟨fun row hrow => ?_, fun row hrow => ?_⟩⟩
  · refine halone stored row (fun index hindex => ?_) hself
    rw [index.collides_symm]
    exact hacross row hrow stored (List.mem_cons_self ..) index hindex
  · exact halone stored row ((List.pairwise_cons.1 hback).1 row hrow) hself

theorem merge_none {columns updates : List (List Char)} {values : List Char → V} {active : List Char → Option V} {rows : Rows V}
    (h : model.existing columns values rows = none) :
    model.merge numbers columns updates values active rows = committed (model.insertStatement numbers active rows) := by
  simp only [merge, h, insertStatement]
  split_ifs <;> rfl

theorem merge_some {columns updates : List (List Char)} {values stored : List Char → V} {active : List Char → Option V} {rows : Rows V}
    (h : model.existing columns values rows = some stored) : model.merge numbers columns updates values active rows =
      if updates.isEmpty then (some stored, rows)
      else committed (model.updateStatement (model.matchesOn columns values)
        (fun column => if updates.contains column then (active column).getD (stored column) else stored column) rows) := by
  simp only [merge, h, updateStatement]
  split_ifs <;> rfl

/-- The rows that a new one conflicts with are those that its values of the conflict columns name. -/
theorem conflicts_eq {columns : List (List Char)} (harbiter : ∃ index ∈ model.indexes, isArbiter columns index = true)
    {row values : List Char → V} (hvalues : ∀ column ∈ columns, row column = values column) (other : List Char → V) :
    ((model.indexes.filter (isArbiter columns)).any fun index => index.collides row other) =
      (!(columns.any fun column => decide (values column = model.null)) && model.matchesOn columns values other) := by
  rw [Bool.eq_iff_iff, List.any_eq_true, Bool.and_eq_true, Bool.not_eq_true', List.any_eq_false, matchesOn_iff]
  constructor
  · rintro ⟨index, hfilter, hcollides⟩
    obtain ⟨hindex, hof⟩ := List.mem_filter.1 hfilter
    have hagree := (collides_arbiter hindex hof row other).1 hcollides
    refine ⟨fun column hcolumn hnull => ?_, fun column hcolumn => ?_⟩
    · exact (hagree column hcolumn).2 ((hvalues column hcolumn).trans (of_decide_eq_true hnull))
    · rw [← hvalues column hcolumn]
      exact (hagree column hcolumn).1.symm
  · rintro ⟨hnull, hmatches⟩
    obtain ⟨index, hindex, hof⟩ := harbiter
    refine ⟨index, List.mem_filter.2 ⟨hindex, hof⟩, (collides_arbiter hindex hof row other).2 fun column hcolumn => ?_⟩
    rw [hvalues column hcolumn]
    exact ⟨(hmatches column hcolumn).symm, fun heq => hnull column hcolumn (decide_eq_true heq)⟩

theorem insertOnConflict_eq {columns updates : List (List Char)} {values : List Char → V} {active : List Char → Option V}
    {rows : Rows V} (harbiter : ∃ index ∈ model.indexes, isArbiter columns index = true)
    (hwell : model.malformed (proposed numbers active) = false)
    (hvalues : ∀ column ∈ columns, proposed numbers active column = values column) :
    model.insertOnConflict numbers columns updates active rows = (model.existing columns values rows).elim (model.insertStatement numbers active rows)
      fun stored => if updates.isEmpty then (.ok stored, rows) else model.updateStatement (model.matchesOn columns values)
        (fun column => if updates.contains column then proposed numbers active column else stored column) rows := by
  have hfound : (model.indexes.filter (isArbiter columns)).isEmpty = false := by
    obtain ⟨index, hindex, hof⟩ := harbiter
    exact List.isEmpty_eq_false_iff.2 (List.ne_nil_of_mem (List.mem_filter.2 ⟨hindex, hof⟩))
  have hconflicts := funext (conflicts_eq harbiter hvalues)
  have hfind : rows.find? (fun other => (model.indexes.filter (isArbiter columns)).any fun index =>
      index.collides (proposed numbers active) other) = model.existing columns values rows := by
    rw [hconflicts, existing]
    split_ifs with hnull
    · simp only [hnull, Bool.not_true, Bool.false_and, List.find?_eq_none, Bool.false_eq_true, not_false_eq_true, implies_true]
    · rw [eq_false_of_ne_true hnull]
      rfl
  rw [insertOnConflict]
  simp only [hfound, hwell, hfind, Bool.or_self, Bool.false_eq_true, if_false]
  cases hexisting : model.existing columns values rows with
  | none => rfl
  | some stored =>
    have hnull : (columns.any fun column => decide (values column = model.null)) = false := by
      refine List.any_eq_false.2 fun column hcolumn heq => ?_
      exact (existing_some hexisting).1 column hcolumn (of_decide_eq_true heq)
    rw [hconflicts]
    simp only [hnull, Bool.not_false, Bool.true_and]
    rfl

theorem insertOnConflict_merge {columns updates : List (List Char)} {values : List Char → V} {active : List Char → Option V}
    {rows : Rows V} (harbiter : ∃ index ∈ model.indexes, isArbiter columns index = true)
    (hwell : model.malformed (proposed numbers active) = false) (hvalues : ∀ column ∈ columns, active column = some (values column))
    (hupdates : ∀ column ∈ updates, (active column).isSome = true) :
    committed (model.insertOnConflict numbers columns updates active rows) = model.merge numbers columns updates values active rows := by
  have hrow : ∀ column ∈ columns, proposed numbers active column = values column := fun column hcolumn => by
    rw [proposed, hvalues column hcolumn]
    rfl
  rw [insertOnConflict_eq harbiter hwell hrow]
  cases hexisting : model.existing columns values rows with
  | none => exact (merge_none hexisting).symm
  | some stored =>
    have hupdated : (fun column => if updates.contains column then proposed numbers active column else stored column) =
        fun column => if updates.contains column then (active column).getD (stored column) else stored column := by
      funext column
      split_ifs with hcolumn
      · obtain ⟨v, hv⟩ := Option.isSome_iff_exists.1 (hupdates column (List.contains_iff_mem.1 hcolumn))
        rw [proposed, hv]
        rfl
      · rfl
    rw [merge_some hexisting, Option.elim_some, hupdated]
    split_ifs <;> rfl

theorem merge_nothing {columns updates : List (List Char)} {values : List Char → V} {active : List Char → Option V} {rows : Rows V}
    (h : (model.merge numbers columns updates values active rows).1 = none) :
    (model.merge numbers columns updates values active rows).2 = rows := by
  rw [merge] at h ⊢
  cases hexisting : model.existing columns values rows with
  | none =>
    simp only [hexisting] at h ⊢
    split_ifs at h ⊢
    rfl
  | some stored =>
    simp only [hexisting] at h ⊢
    split_ifs at h ⊢
    rfl

theorem upsertMysql_answers {rows : Rows V} (h : model.Sound rows) {columns updates : List (List Char)} {values : List Char → V}
    {active : List Char → Option V} (hvalid : model.validateMysqlConflictTarget columns = .ok ())
    (harbiter : ∃ index ∈ model.indexes, isArbiter columns index = true) :
    model.Answers False (model.merge numbers columns updates values active rows) rows
      (model.upsertMysql numbers values active columns updates rows) := by
  simp only [upsertMysql, hvalid, ensureStorable_mySql]
  cases hexisting : model.existing columns values rows with
  | none =>
    rw [merge_none hexisting]
    exact insertRow_answers (ensureStorable_mySql active) rows
  | some stored =>
    have hupdated : (fun column => (if updates.contains column then active column else none).getD (stored column)) =
        fun column => if updates.contains column then (active column).getD (stored column) else stored column := by
      funext column
      split_ifs <;> rfl
    obtain ⟨index, hindex, hof⟩ := harbiter
    obtain ⟨front, back, rfl, hstored, hothers⟩ := existing_split h hindex hof hexisting
    obtain ⟨hself, hkeys⟩ := key_split h
    rw [merge_some hexisting]
    dsimp only
    by_cases hupdates : updates.isEmpty = true
    · rw [if_pos hupdates, if_pos hupdates]
      exact storedRow_answers ..
    · rw [if_neg hupdates, if_neg hupdates]
      cases hread : model.readBack stored with
      | error e => exact .inr ⟨e, stored, rfl, .inl hread, .inl rfl⟩
      | ok u =>
        rw [hupdated, updateStatement_split _ hstored hothers, ← updateStatement_split _ hself hkeys]
        exact storedRow_answers ..

/-- What `__upsert` is to make of the table, whichever database keeps it. -/
def intended (model : UpsertModel V) (managedCreatedAt : List (List Char)) (numbers : List Char → V) (builder : OnConflictBuilder)
    (value : UpsertValue V) (rows : Rows V) : Option (List Char → V) × Rows V :=
  match model.plan managedCreatedAt builder value with
  | .error _ => (none, rows)
  | .ok plan =>
    if plan.insertOnly then committed (model.insertStatement numbers plan.active rows)
    else if model.indexes.any (isArbiter plan.conflictColumns) then
      model.merge numbers plan.conflictColumns plan.updateColumns value.toEntityModel plan.active rows
    else (none, rows)

theorem upsert_answers {rows : Rows V} (h : model.Sound rows) (hp : model.Portable managedCreatedAt numbers builder value)
    (backend : BatchInsert.Backend) : model.Answers (backend = .mySql ∧ ¬model.KeyIsNew builder value)
      (model.intended managedCreatedAt numbers builder value rows) rows
      (model.upsert managedCreatedAt backend numbers builder value rows) := by
  have hweaken {undone undone' : Prop} {meant : Option (List Char → V) × Rows V} {answer : Except Error (List Char → V) × Rows V}
      (hundone : undone' → undone) (h : model.Answers undone meant rows answer) : model.Answers undone' meant rows answer := by
    refine h.imp id ?_
    rintro ⟨e, row, herror, hunread, hrows⟩
    exact ⟨e, row, herror, hunread, hrows.imp id fun hwritten => ⟨mt hundone hwritten.1, hwritten.2⟩⟩
  rw [upsert, intended]
  cases hok : model.plan managedCreatedAt builder value with
  | error error => exact .inl rfl
  | ok plan =>
    have hplan := plan_ok hok
    dsimp only
    rw [ensureStorable_plan hp hok backend]
    cases honly : plan.insertOnly with
    | true => exact hweaken (fun hmysql => hmysql.2 ((keyIsNew_iff hplan).1 honly)) (insertRow_answers (ensureStorable_plan hp hok backend) rows)
    | false =>
      have hwritten := conflicts_written_plan hp hplan honly
      obtain ⟨active, -, hupdates⟩ := updates_written hp hplan
      have hnodup : plan.conflictColumns.Nodup := hplan.conflicts ▸ hp.conflicts_nodup
      have hkeys : plan.updateColumns.any model.primaryKeyNames.contains = false := List.any_eq_false.2 fun column hcolumn hkey =>
        updates_not_key hp hplan column hcolumn (List.contains_iff_mem.1 hkey)
      simp only [Bool.false_eq_true, if_false, hkeys]
      by_cases harbiter : ∃ index ∈ model.indexes, isArbiter plan.conflictColumns index = true
      · rw [if_pos (List.any_eq_true.2 harbiter)]
        split_ifs with hbackend
        · refine hweaken (fun _ => trivial) (transaction_answers ?_ merge_nothing)
          exact upsertMysql_answers h ((validateMysqlConflictTarget_iff hnodup).2 harbiter) harbiter
        · rw [← insertOnConflict_merge harbiter (hp.wellFormed plan hok) hwritten fun column hcolumn => by
            rw [(hupdates column hcolumn).1]
            exact (hupdates column hcolumn).2]
          exact hweaken (fun hmysql => hbackend hmysql.1) (storedRow_answers ..)
      · rw [if_neg (mt List.any_eq_true.1 harbiter)]
        split_ifs with hbackend
        · rw [transaction, upsertMysql]
          cases hvalid : model.validateMysqlConflictTarget plan.conflictColumns with
          | error error => exact .inl rfl
          | ok u => exact absurd ((validateMysqlConflictTarget_iff hnodup).1 hvalid) harbiter
        · have hnone : (model.indexes.filter (isArbiter plan.conflictColumns)).isEmpty = true :=
            List.isEmpty_iff.2 (List.filter_eq_nil_iff.2 fun index hindex hof => harbiter ⟨index, hindex, hof⟩)
          rw [insertOnConflict]
          simp only [hnone, Bool.true_or, if_true]
          exact .inl rfl

/-- An upsert leaves the table as its constraints keep it. -/
theorem sound_intended {rows : Rows V} (h : model.Sound rows) (builder : OnConflictBuilder) (value : UpsertValue V) :
    model.Sound (model.intended managedCreatedAt numbers builder value rows).2 := by
  rw [intended]
  cases model.plan managedCreatedAt builder value with
  | error error => exact h
  | ok plan =>
    dsimp only
    split_ifs with honly hsome
    · exact sound_insertStatement h plan.active
    · obtain ⟨index, hindex, hof⟩ := List.any_eq_true.1 hsome
      cases hexisting : model.existing plan.conflictColumns value.toEntityModel rows with
      | none =>
        rw [merge_none hexisting]
        exact sound_insertStatement h plan.active
      | some stored =>
        rw [merge_some hexisting]
        split_ifs
        · exact h
        · obtain ⟨front, back, rfl, hstored, hothers⟩ := existing_split h hindex hof hexisting
          exact sound_updateStatement h hstored hothers _
    · exact h

theorem NumbersAgree.intended {numbers' : List Char → V} {call : OnConflictBuilder × UpsertValue V}
    (h : model.NumbersAgree managedCreatedAt numbers numbers' call) (rows : Rows V) :
    model.intended managedCreatedAt numbers call.1 call.2 rows = model.intended managedCreatedAt numbers' call.1 call.2 rows := by
  rw [UpsertModel.intended, UpsertModel.intended]
  cases hplan : model.plan managedCreatedAt call.1 call.2 with
  | error error => rfl
  | ok plan =>
    dsimp only
    rw [insertStatement, insertStatement, merge, merge, h.proposed hplan]

/-- Upserts one after the other: what each answered, but for its error, and the table they left. The database gives `numbers i` to
the columns that the insert of the `i`th call leaves to it. -/
def upserts (model : UpsertModel V) (managedCreatedAt : List (List Char)) (backend : BatchInsert.Backend) (numbers : ℕ → List Char → V) :
    List (OnConflictBuilder × UpsertValue V) → Rows V → List (Option (List Char → V)) × Rows V
  | [], rows => ([], rows)
  | call :: calls, rows =>
    let answer := committed (model.upsert managedCreatedAt backend (numbers 0) call.1 call.2 rows)
    let later := upserts model managedCreatedAt backend (fun i => numbers (i + 1)) calls answer.2
    (answer.1 :: later.1, later.2)

/-- A unique index of whole columns, compared as they are. -/
def wholeIndex (columns : List (List Char)) : UniqueIndex (Option ℕ) where
  parts := columns.map some
  collides row other := columns.all fun column => decide (row column = other column ∧ row column ≠ none)
  collides_symm row other := by
    refine List.all_congr rfl fun column => decide_eq_decide.2 ?_
    rw [eq_comm]
    exact and_congr_right fun heq => by rw [heq]

/-- Users with a numbered key and a unique email. -/
def users : UpsertModel (Option ℕ) where
  schemaName := none
  tableName := "users".toList
  fieldNames := [['i', 'd'], ['e', 'm', 'a', 'i', 'l'], ['n', 'a', 'm', 'e']]
  columnNames := [['i', 'd'], ['e', 'm', 'a', 'i', 'l'], ['n', 'a', 'm', 'e']]
  primaryKeyNames := [['i', 'd']]
  primaryKeyAutoIncrement := true
  encryptedColumn _ := .ok false
  driverLimitedFields := []
  unstorable _ := .query "the driver cannot store and read back every field"
  sqliteStorable _ := true
  null := none
  collationKey _ v := v
  collationKey_null _ _ := Iff.rfl
  indexes := [wholeIndex [['i', 'd']], wholeIndex [['e', 'm', 'a', 'i', 'l']]]
  malformed row := decide (row ['i', 'd'] = none)
  refuses _ _ := false
  readBack _ := .ok ()
  advanceKeySequence _ := .ok ()
  refusal := .query "the database refused the statement"
  collides_whole index hindex columns hparts row other := by
    have hwhole : ∃ names, index = wholeIndex names := by
      rcases List.mem_cons.1 hindex with rfl | hindex
      · exact ⟨_, rfl⟩
      · exact ⟨_, List.mem_singleton.1 hindex⟩
    obtain ⟨names, rfl⟩ := hwhole
    obtain rfl : names = columns := List.map_injective_iff.2 (fun _ _ => Option.some.inj) hparts
    exact List.all_eq_true.trans (forall₂_congr fun column _ => decide_eq_true_iff)
  parts_nodup := by decide
  primaryKey_index := ⟨_, List.mem_cons_self .., rfl⟩
  primaryKey_notNull row h := by
    obtain ⟨key, hkey, hnull⟩ := h
    rw [List.mem_singleton.1 hkey] at hnull
    exact decide_eq_true hnull

def user (id email name : ℕ) : List Char → Option ℕ := fun column =>
  some (if column = ['e', 'm', 'a', 'i', 'l'] then email else if column = ['n', 'a', 'm', 'e'] then name else id)

/-- A user whose number is known. -/
def knownUser (id email name : ℕ) : UpsertValue (Option ℕ) where
  validate := .ok ()
  isNew := false
  toEntityModel := user id email name
  tryIntoActiveModel := .ok fun column => some (user id email name column)

def onId : OnConflictBuilder := ⟨[['i', 'd']], none, none⟩

theorem portable_knownUser (numbers : List Char → Option ℕ) (id email name : ℕ) :
    users.Portable [] numbers onId (knownUser id email name) where
  conflicts_nodup := by decide
  keys_kept names h := by cases h
  key_known _ h := by cases h
  conflicts_written active h name hname hkey := by
    obtain rfl := Except.ok.inj h
    rfl
  columns_written active h column _ _ := by
    obtain rfl := Except.ok.inj h
    rfl
  fields_stored _ := rfl
  values_stored _ _ _ _ _ := rfl
  wellFormed plan h := by
    obtain rfl := Except.ok.inj h
    rfl

theorem numbersAgree_knownUser (numbers numbers' : List Char → Option ℕ) (id email name : ℕ) :
    users.NumbersAgree [] numbers numbers' (onId, knownUser id email name) := by
  intro plan hplan column hnone
  obtain rfl := Except.ok.inj hplan
  have hset : (users.keyedActive true (user id email name) (fun column => some (user id email name column)) column).isSome = true := by
    rw [keyedActive]
    split_ifs with hkey hincluded
    · rfl
    · exact absurd rfl hincluded
    · rfl
  exact absurd hnone (Option.isSome_iff_ne_none.1 hset)

/-- The row is new: no stored row is named, unless by a key that is still to be numbered, and it has the values that an insert
sets. -/
def Adds (model : UpsertModel V) (builder : OnConflictBuilder) (value : UpsertValue V) (active : List Char → Option V) (rows : Rows V)
    (row : List Char → V) (after : Rows V) : Prop :=
  after = rows ++ [row] ∧
  (model.existing (builder.conflictColumns.map model.columnNamed) value.toEntityModel rows = none ∨ model.KeyIsNew builder value) ∧
  ∀ column v, active column = some v → ¬(model.primaryKeyAutoIncrement = true ∧ column ∈ model.primaryKeyNames) → row column = v

/-- The row takes the place of the one row that the conflict columns name, and differs from it in the columns to overwrite only. -/
def Replaces (model : UpsertModel V) (managedCreatedAt : List (List Char)) (builder : OnConflictBuilder) (value : UpsertValue V)
    (active : List Char → Option V) (rows : Rows V) (row : List Char → V) (after : Rows V) : Prop :=
  ∃ front stored back, rows = front ++ stored :: back ∧ after = front ++ row :: back ∧
    model.matchesOn (builder.conflictColumns.map model.columnNamed) value.toEntityModel stored = true ∧
    (∀ other ∈ front ++ back, model.matchesOn (builder.conflictColumns.map model.columnNamed) value.toEntityModel other = false) ∧
    ∀ column, (model.Overwrites managedCreatedAt builder column → active column = some (row column)) ∧
      (¬model.Overwrites managedCreatedAt builder column → row column = stored column)

/-- The row is written: added, or put in the place of the row that the conflict columns name. -/
def Writes (model : UpsertModel V) (managedCreatedAt : List (List Char)) (builder : OnConflictBuilder) (value : UpsertValue V)
    (rows : Rows V) (row : List Char → V) (after : Rows V) : Prop :=
  ∃ active, value.tryIntoActiveModel = .ok active ∧
    (model.Adds builder value active rows row after ∨ model.Replaces managedCreatedAt builder value active rows row after)

/-- What an upsert does: one that answers writes its row, and one that fails nothing, unless the row it wrote was not read back,
and no transaction undoes that. -/
def Effect (model : UpsertModel V) (managedCreatedAt : List (List Char)) (backend : BatchInsert.Backend) (builder : OnConflictBuilder)
    (value : UpsertValue V) (rows : Rows V) (answer : Except Error (List Char → V) × Rows V) : Prop :=
  match answer.1 with
  | .ok row => model.Writes managedCreatedAt builder value rows row answer.2
  | .error e => answer.2 = rows ∨
    (backend = .mySql → model.KeyIsNew builder value) ∧
      ∃ row, model.Unread row e ∧ model.Writes managedCreatedAt builder value rows row answer.2

/-- What is meant writes its row, or nothing. -/
def Meant (model : UpsertModel V) (managedCreatedAt : List (List Char)) (builder : OnConflictBuilder) (value : UpsertValue V)
    (rows : Rows V) (meant : Option (List Char → V) × Rows V) : Prop :=
  meant.1.elim (meant.2 = rows) fun row => model.Writes managedCreatedAt builder value rows row meant.2

variable {plan : UpsertPlan V}

theorem insertStatement_meant (hplan : model.Planned managedCreatedAt builder value plan) {rows : Rows V}
    (hnamed : model.existing (builder.conflictColumns.map model.columnNamed) value.toEntityModel rows = none ∨
      model.KeyIsNew builder value) :
    model.Meant managedCreatedAt builder value rows (committed (model.insertStatement numbers plan.active rows)) := by
  obtain ⟨active, htry, hactive⟩ := hplan.active
  rw [insertStatement]
  split_ifs
  · exact rfl
  · refine ⟨active, htry, .inl ⟨rfl, hnamed, fun column v hv hkey => ?_⟩⟩
    rw [proposed, hactive, keyedActive_of_not hkey, hv]
    rfl

theorem merge_meant {rows : Rows V} (h : model.Sound rows) (hp : model.Portable managedCreatedAt numbers builder value)
    (hplan : model.Planned managedCreatedAt builder value plan)
    (harbiter : ∃ index ∈ model.indexes, isArbiter plan.conflictColumns index = true) :
    model.Meant managedCreatedAt builder value rows
      (model.merge numbers plan.conflictColumns plan.updateColumns value.toEntityModel plan.active rows) := by
  cases hexisting : model.existing plan.conflictColumns value.toEntityModel rows with
  | none =>
    rw [merge_none hexisting]
    exact insertStatement_meant hplan (.inl (hplan.conflicts ▸ hexisting))
  | some stored =>
    obtain ⟨active, htry, hupdates⟩ := updates_written hp hplan
    obtain ⟨index, hindex, hof⟩ := harbiter
    obtain ⟨front, back, rfl, hstored, hothers⟩ := existing_split h hindex hof hexisting
    have hplace (row : List Char → V) (hrow : ∀ column, (column ∈ plan.updateColumns → active column = some (row column)) ∧
        (column ∉ plan.updateColumns → row column = stored column)) :
        model.Replaces managedCreatedAt builder value active (front ++ stored :: back) row (front ++ row :: back) := by
      rw [hplan.conflicts] at hstored hothers
      exact ⟨front, stored, back, rfl, rfl, hstored, hothers, fun column =>
        ⟨fun hover => (hrow column).1 ((hplan.updates column).2 hover), fun hover => (hrow column).2 (mt (hplan.updates column).1 hover)⟩⟩
    rw [merge_some hexisting]
    split_ifs with hupdate
    · refine ⟨active, htry, .inr (hplace stored fun column => ⟨fun hcolumn => ?_, fun _ => rfl⟩)⟩
      exact absurd hcolumn (List.isEmpty_iff.1 hupdate ▸ List.not_mem_nil)
    · rw [updateStatement_split _ hstored hothers]
      split_ifs
      · exact rfl
      · refine ⟨active, htry, .inr (hplace _ fun column => ⟨fun hcolumn => ?_, fun hcolumn => ?_⟩)⟩
        · obtain ⟨v, hv⟩ := Option.isSome_iff_exists.1 (hupdates column hcolumn).2
          rw [if_pos (List.contains_iff_mem.2 hcolumn), (hupdates column hcolumn).1, hv]
          rfl
        · rw [if_neg (mt List.contains_iff_mem.1 hcolumn)]

theorem intended_meant {rows : Rows V} (h : model.Sound rows) (hp : model.Portable managedCreatedAt numbers builder value) :
    model.Meant managedCreatedAt builder value rows (model.intended managedCreatedAt numbers builder value rows) := by
  rw [intended]
  cases hok : model.plan managedCreatedAt builder value with
  | error error => exact rfl
  | ok plan =>
    have hplan := plan_ok hok
    dsimp only
    split_ifs with honly hsome
    · exact insertStatement_meant hplan (.inr ((keyIsNew_iff hplan).1 honly))
    · exact merge_meant h hp hplan (List.any_eq_true.1 hsome)
    · exact rfl

/-- Users that no model can hold. -/
def unreadUsers : UpsertModel (Option ℕ) := { users with readBack := fun _ => .error (.query "invalid row") }

-- the row that is not read back stays but on MySQL
example : (unreadUsers.upsert [] .postgres (fun _ => none) onId (knownUser 5 8 2) []).2.length = 1 := rfl

example : (unreadUsers.upsert [] .mySql (fun _ => none) onId (knownUser 5 8 2) []).2.length = 0 := rfl

end UpsertModel

end TideOrm
