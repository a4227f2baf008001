import TideOrm.Spec.SchemaSync

/-! What schema sync makes of a database: run by itself, and by several processes at once. -/

namespace TideOrm

open Lib Ddl

def usersModel : ModelSchema where
  tableName := "users".toList
  schemaName := "public".toList
  columns := [⟨"id".toList, "i64".toList, false, true, true, none⟩, ⟨"name".toList, "String".toList, false, false, false, none⟩]
  primaryKeys := ["id".toList]
  indexes := [⟨"idx_users_name".toList, ["name".toList], true⟩]

/-- Another model of the same table. -/
def loginsModel : ModelSchema where
  tableName := "users".toList
  schemaName := "public".toList
  columns := [⟨"id".toList, "i32".toList, false, true, true, none⟩, ⟨"seen".toList, "i64".toList, true, false, false, none⟩]
  primaryKeys := ["id".toList]
  indexes := []

namespace SyncRegistry

variable {T : Type} {name : T → List Char}

/-- The first of a name is kept. -/
theorem find?_pushMissingByName (known added : List T) (wanted : List Char) :
    (pushMissingByName name known added).find? (fun item => name item == wanted) =
      (known ++ added).find? fun item => name item == wanted := by
  induction added generalizing known with
  | nil => rw [List.append_nil]; rfl
  | cons item added ih =>
    rw [pushMissingByName, List.foldl_cons]
    refine (ih _).trans ?_
    split_ifs with hknown
    · obtain ⟨existing, hexisting, hsame⟩ := List.any_eq_true.1 hknown
      rw [beq_iff_eq] at hsame
      rw [List.find?_append, List.find?_append, List.find?_cons]
      cases hitem : name item == wanted with
      | false => rfl
      | true =>
        have hfound : (known.find? fun item => name item == wanted).isSome = true :=
          List.find?_isSome.2 ⟨existing, hexisting, by rw [hsame, hitem]⟩
        obtain ⟨found, hfind⟩ := Option.isSome_iff_exists.1 hfound
        rw [hfind]
        rfl
    · rw [List.append_assoc, List.singleton_append]

/-- The schema is of that table. -/
def isTable (table schema : List Char) (model : ModelSchema) : Bool := model.tableName == table && model.schemaName == schema

variable {table schema : List Char} {added : ModelSchema} {schemas : List ModelSchema}

theorem isTable_iff {model : ModelSchema} : isTable table schema model = true ↔ model.tableName = table ∧ model.schemaName = schema := by
  rw [isTable, Bool.and_eq_true, beq_iff_eq, beq_iff_eq]

theorem registerSchema_cons (added registered : ModelSchema) (schemas : List ModelSchema) : registerSchema added (registered :: schemas) =
    if isTable added.tableName added.schemaName registered then merge registered added :: schemas
    else registered :: registerSchema added schemas := rfl

/-- A schema goes to the first of its table, and to no other table. -/
theorem filter_registerSchema_other (hadded : isTable table schema added = false) :
    (registerSchema added schemas).filter (isTable table schema) = schemas.filter (isTable table schema) := by
  induction schemas with
  | nil => exact List.filter_cons_of_neg (by rw [hadded]; exact Bool.false_ne_true)
  | cons registered schemas ih =>
    rw [registerSchema_cons]
    split_ifs with hsame
    · rw [isTable_iff] at hsame
      have hregistered : isTable table schema registered = false := by
        rwa [isTable, hsame.1, hsame.2, ← isTable]
      have hmerged : isTable table schema (merge registered added) = false := hregistered
      rw [List.filter_cons_of_neg (by rw [hmerged]; exact Bool.false_ne_true),
        List.filter_cons_of_neg (by rw [hregistered]; exact Bool.false_ne_true)]
    · rw [List.filter_cons, List.filter_cons, ih]

theorem filter_registerSchema_first (hadded : isTable table schema added = true) (hnone : schemas.filter (isTable table schema) = []) :
    (registerSchema added schemas).filter (isTable table schema) = [added] := by
  obtain ⟨rfl, rfl⟩ := isTable_iff.1 hadded
  induction schemas with
  | nil => exact List.filter_cons_of_pos hadded
  | cons registered schemas ih =>
    have hregistered : ¬isTable added.tableName added.schemaName registered = true := fun hregistered => by
      rw [List.filter_cons_of_pos hregistered] at hnone
      cases hnone
    rw [List.filter_cons_of_neg hregistered] at hnone
    rw [registerSchema_cons, if_neg hregistered, List.filter_cons_of_neg hregistered]
    exact ih hnone

theorem filter_registerSchema_merge (hadded : isTable table schema added = true) {entry : ModelSchema}
    (hone : schemas.filter (isTable table schema) = [entry]) :
    (registerSchema added schemas).filter (isTable table schema) = [merge entry added] := by
  obtain ⟨rfl, rfl⟩ := isTable_iff.1 hadded
  induction schemas with
  | nil => cases hone
  | cons registered schemas ih =>
    rw [registerSchema_cons]
    by_cases hregistered : isTable added.tableName added.schemaName registered = true
    · rw [List.filter_cons_of_pos hregistered] at hone
      obtain ⟨rfl, hrest⟩ := List.cons.inj hone
      have hmerged : isTable added.tableName added.schemaName (merge registered added) = true := hregistered
      rw [if_pos hregistered, List.filter_cons_of_pos hmerged, hrest]
    · rw [List.filter_cons_of_neg hregistered] at hone
      rw [if_neg hregistered, List.filter_cons_of_neg hregistered]
      exact ih hone

theorem registerAll_concat (registered : List ModelSchema) (added : ModelSchema) :
    registerAll (registered ++ [added]) = registerSchema added (registerAll registered) := by
  rw [registerAll, List.foldl_append]
  rfl

theorem registerAll_none {registered : List ModelSchema} (h : registered.filter (isTable table schema) = []) :
    (registerAll registered).filter (isTable table schema) = [] := by
  induction registered using List.reverseRecOn with
  | nil => rfl
  | append_singleton registered added ih =>
    rw [List.filter_append, List.append_eq_nil_iff] at h
    have hadded : isTable table schema added = false :=
      eq_false_of_ne_true (List.filter_eq_nil_iff.1 h.2 added (List.mem_singleton_self _))
    rw [registerAll_concat, filter_registerSchema_other hadded]
    exact ih h.1

/-- The schemas of a table make one entry, merged in the order they came. -/
theorem filter_registerAll {registered : List ModelSchema} {first : ModelSchema} {rest : List ModelSchema}
    (h : registered.filter (isTable table schema) = first :: rest) :
    (registerAll registered).filter (isTable table schema) = [rest.foldl merge first] := by
  induction registered using List.reverseRecOn generalizing rest with
  | nil => cases h
  | append_singleton registered added ih =>
    rw [List.filter_append] at h
    rw [registerAll_concat]
    by_cases hadded : isTable table schema added = true
    · rw [List.filter_singleton, hadded] at h
      rcases hbefore : registered.filter (isTable table schema) with _ | ⟨earliest, between⟩
      · rw [hbefore] at h
        obtain ⟨rfl, rfl⟩ := List.cons.inj h
        exact filter_registerSchema_first hadded (registerAll_none hbefore)
      · rw [hbefore] at h
        obtain ⟨rfl, hrest⟩ := List.cons.inj h
        obtain rfl : between ++ [added] = rest := hrest
        rw [List.foldl_append]
        exact filter_registerSchema_merge hadded (ih hbefore)
    · rw [List.filter_singleton, eq_false_of_ne_true hadded] at h
      rw [filter_registerSchema_other (eq_false_of_ne_true hadded)]
      exact ih ((List.append_nil _).symm.trans h)

theorem foldl_merge_lookup {T : Type} {name : T → List Char} {parts : ModelSchema → List T}
    (hparts : ∀ registered added, parts (merge registered added) = pushMissingByName name (parts registered) (parts added))
    (first : ModelSchema) (rest : List ModelSchema) (wanted : List Char) :
    (parts (rest.foldl merge first)).find? (fun item => name item == wanted) =
      ((first :: rest).flatMap parts).find? fun item => name item == wanted := by
  induction rest generalizing first with
  | nil => rw [List.foldl_nil, List.flatMap_singleton]
  | cons added rest ih =>
    rw [List.foldl_cons, ih, List.flatMap_cons, List.find?_append, hparts, find?_pushMissingByName, ← List.find?_append,
      List.append_assoc, ← List.flatMap_cons, ← List.flatMap_cons]

theorem foldl_merge_primaryKeys (first : ModelSchema) (rest : List ModelSchema) :
    (rest.foldl merge first).primaryKeys = first.primaryKeys := by
  induction rest generalizing first with
  | nil => rfl
  | cons added rest ih => exact ih (merge first added)

/-- Whatever was registered, in whatever order, a table has one entry. It has the key of the first schema registered of the table,
and a column or an index of a name exactly if one of them has, as the first of these has it. -/
theorem registry_of_run (registered : List ModelSchema) (table schema : List Char) (first : ModelSchema) (rest : List ModelSchema)
    (h : registered.filter (isTable table schema) = first :: rest) :
    ∃ entry, (registerAll registered).filter (isTable table schema) = [entry] ∧ entry.primaryKeys = first.primaryKeys ∧
      (∀ wanted, entry.columns.find? (fun column => column.name == wanted) =
        ((first :: rest).flatMap ModelSchema.columns).find? fun column => column.name == wanted) ∧
      ∀ wanted, entry.indexes.find? (fun index => index.name == wanted) =
        ((first :: rest).flatMap ModelSchema.indexes).find? fun index => index.name == wanted :=
  ⟨_, filter_registerAll h, foldl_merge_primaryKeys first rest, foldl_merge_lookup (fun _ _ => rfl) first rest,
    foldl_merge_lookup (fun _ _ => rfl) first rest⟩

theorem registry_of_run_two : ∃ entry, (registerAll [usersModel, loginsModel]).filter (isTable "users".toList "public".toList) = [entry] ∧
    entry.primaryKeys = usersModel.primaryKeys ∧
    (∀ wanted, entry.columns.find? (fun column => column.name == wanted) =
      (([usersModel, loginsModel] : List ModelSchema).flatMap ModelSchema.columns).find? fun column => column.name == wanted) ∧
    ∀ wanted, entry.indexes.find? (fun index => index.name == wanted) =
      (([usersModel, loginsModel] : List ModelSchema).flatMap ModelSchema.indexes).find? fun index => index.name == wanted :=
  registry_of_run [usersModel, loginsModel] "users".toList "public".toList usersModel [loginsModel] rfl

theorem eq_of_mem_registerAll {registered : List ModelSchema} {model other : ModelSchema} (hmodel : model ∈ registerAll registered)
    (hother : other ∈ registerAll registered) (htable : model.tableName = other.tableName) (hschema : model.schemaName = other.schemaName) :
    model = other := by
  have hmem : model ∈ (registerAll registered).filter (isTable other.tableName other.schemaName) :=
    List.mem_filter.2 ⟨hmodel, isTable_iff.2 ⟨htable, hschema⟩⟩
  have hself : other ∈ (registerAll registered).filter (isTable other.tableName other.schemaName) :=
    List.mem_filter.2 ⟨hother, isTable_iff.2 ⟨rfl, rfl⟩⟩
  rcases hregistered : registered.filter (isTable other.tableName other.schemaName) with _ | ⟨first, rest⟩
  · rw [registerAll_none hregistered] at hself
    exact (List.not_mem_nil hself).elim
  · rw [filter_registerAll hregistered] at hmem hself
    exact (List.mem_singleton.1 hmem).trans (List.mem_singleton.1 hself).symm

end SyncRegistry

namespace SqlServer

variable {V : Type} {server : SqlServer V} {model other : ModelSchema} {forceSync : Bool} {c c' : SqlCatalog V}
  {guarantee : SqlCatalog V → SqlCatalog V → Prop}

/-- The table `model` is of. -/
def isOf (server : SqlServer V) (model : ModelSchema) (live : LiveTable V) : Bool :=
  server.isNamed (server.resolve (server.qualifyingSchema model)) model.tableName live

/-- Statements take two names of one key for the same. -/
def tableKey (server : SqlServer V) (name : List Char) : List Char :=
  match server.backend with
  | .postgres => name
  | .mySql => if server.foldsTableNames then name.map Char.toLower else name
  | .sqlite => name.map Char.toLower

theorem sameTable_iff {a b : List Char} : server.sameTable a b = true ↔ server.tableKey a = server.tableKey b := by
  rw [sameTable, tableKey, tableKey]
  cases server.backend with
  | postgres => exact beq_iff_eq
  | mySql =>
    dsimp only
    split_ifs <;> exact beq_iff_eq
  | sqlite => exact beq_iff_eq

theorem isNamed_iff {schema table : List Char} {live : LiveTable V} : server.isNamed schema table live = true ↔
    live.schema = schema ∧ server.tableKey live.name = server.tableKey table := by
  rw [isNamed, Bool.and_eq_true, beq_iff_eq, sameTable_iff]

/-- A statement leaves the catalog as it is, or takes effect. -/
theorem execute_cases (server : SqlServer V) (statement : SyncStatement) (c : SqlCatalog V) :
    (server.execute statement c).2 = c ∨ server.isDone statement c = false ∧
      ∃ after, server.apply statement c = some after ∧ server.execute statement c = (.ok (), after) := by
  rw [execute]
  split_ifs with hdone
  · exact Or.inl rfl
  · exact Or.inl rfl
  · cases happly : server.apply statement c with
    | none => exact Or.inl rfl
    | some after => exact Or.inr ⟨eq_false_of_ne_true hdone, after, rfl, rfl⟩

theorem execute_ok {statement : SyncStatement} (h : (server.execute statement c).1 = .ok ()) :
    server.isDone statement c = true ∧ (server.execute statement c).2 = c ∨
      server.isDone statement c = false ∧ server.apply statement c = some (server.execute statement c).2 := by
  rw [execute] at h ⊢
  split_ifs at h ⊢ with hdone
  · exact Or.inl ⟨hdone, rfl⟩
  · cases happly : server.apply statement c with
    | none =>
      rw [happly] at h
      cases h
    | some after => exact Or.inr ⟨eq_false_of_ne_true hdone, rfl⟩

/-- The statements that the sync of a model may make. -/
def Issued (server : SqlServer V) (forceSync : Bool) (model : ModelSchema) : SyncStatement → Prop
  | .dropTable schema table => forceSync = true ∧ schema = server.qualifyingSchema model ∧ table = model.tableName
  | .createTable schema table columns primaryKey => schema = server.qualifyingSchema model ∧ table = model.tableName ∧
    columns = server.createColumns model ∧ primaryKey = primaryKeyColumns model
  | .addColumn schema table _ => schema = server.qualifyingSchema model ∧ table = model.tableName
  | .createIndex schema table _ _ => schema = server.qualifyingSchema model ∧ table = model.tableName

theorem guarantees_probe {α : Type} (hlook : ∀ c, guarantee c c) (read : SqlCatalog V → α) : (server.probe read).run.Guarantees guarantee :=
  Call.guarantees_attempt hlook

theorem guarantees_syncIndexes (hlook : ∀ c, guarantee c c) (hindex : ∀ index ifNotExists c, guarantee c
      (server.execute (.createIndex (server.qualifyingSchema model) model.tableName index ifNotExists) c).2) (newTable : Bool) :
    (server.syncIndexes model newTable).run.Guarantees guarantee := by
  refine Call.guarantees_forM fun index _ => Call.guarantees_bind ?_ fun _ => Call.guarantees_bind ?_ fun skips => ?_
  · refine Call.guarantees_bind ?_ fun owner => ?_
    · rw [indexOwner]
      split_ifs
      · exact Call.guarantees_pure _
      · exact guarantees_probe hlook _
    · rcases owner with _ | owner
      · exact Call.guarantees_pure _
      · dsimp only
        split_ifs
        · exact Call.guarantees_pure _
        · exact Call.guarantees_throw _
  · rw [skipsIndex]
    split_ifs
    · exact guarantees_probe hlook _
    · exact Call.guarantees_pure _
  · split_ifs
    · exact Call.guarantees_pure _
    · refine Call.guarantees_tryCatch (Call.guarantees_attempt (hindex index _)) fun error => ?_
      split_ifs
      · exact Call.guarantees_throw _
      · exact Call.guarantees_pure _

section Guarantees

variable (hlook : ∀ c, guarantee c c)
  (hissued : ∀ statement, server.Issued forceSync model statement → ∀ c, guarantee c (server.execute statement c).2)

include hissued in
theorem guarantees_executeDdl {statement : SyncStatement} (h : server.Issued forceSync model statement) :
    (server.executeDdl statement).run.Guarantees guarantee := Call.guarantees_attempt (hissued statement h)

include hlook hissued

theorem guarantees_reconcile : (server.reconcileExistingTable model).run.Guarantees guarantee := by
  refine Call.guarantees_bind (guarantees_probe hlook _) fun existing => ?_
  split_ifs
  · exact Call.guarantees_throw _
  · exact Call.guarantees_forM fun column _ => guarantees_executeDdl hissued ⟨rfl, rfl⟩

/-- What every statement it may make is allowed to do, the sync of a model is. -/
theorem guarantees_syncModelSchema : (server.syncModelSchema forceSync model).run.Guarantees guarantee := by
  refine Call.guarantees_bind (guarantees_probe hlook _) fun tableExists => Call.guarantees_bind ?_ fun _ =>
    Call.guarantees_bind ?_ fun _ => guarantees_syncIndexes hlook (fun _ _ => hissued _ ⟨rfl, rfl⟩) _
  · rw [dropExisting]
    split_ifs with hdrops
    · rw [Bool.and_eq_true] at hdrops
      exact guarantees_executeDdl hissued ⟨hdrops.1, rfl, rfl⟩
    · exact Call.guarantees_pure _
  · rw [ensureTable]
    split_ifs
    · exact guarantees_executeDdl hissued ⟨rfl, rfl, rfl, rfl⟩
    · exact guarantees_reconcile hlook hissued

end Guarantees

theorem guarantees_syncDatabase (hlook : ∀ c, guarantee c c) {models : List ModelSchema} (hissued : ∀ model ∈ models, ∀ statement,
      server.Issued forceSync model statement → ∀ c, guarantee c (server.execute statement c).2) (available : List (List Char)) :
    (server.syncDatabase available forceSync models).run.Guarantees guarantee := by
  rw [syncDatabase]
  split_ifs
  · exact Call.guarantees_throw _
  · exact Call.guarantees_forM fun model hmodel => guarantees_syncModelSchema hlook (hissued model hmodel)

end SqlServer

/-- Every sync the client may make is as `p` says. -/
def SyncClient.All (p : Bool → List ModelSchema → Prop) : SyncClient → Prop
  | .idle _ => True
  | .syncs _ forceSync models next => p forceSync models ∧ ∀ result, (next result).All p

theorem SyncClient.guarantees {V : Type} {server : SqlServer V} {guarantee : SqlCatalog V → SqlCatalog V → Prop}
    {p : Bool → List ModelSchema → Prop} (hlook : ∀ c, guarantee c c) (hissued : ∀ forceSync models, p forceSync models →
      ∀ model ∈ models, ∀ statement, server.Issued forceSync model statement → ∀ c, guarantee c (server.execute statement c).2)
    {client : SyncClient} (hclient : client.All p) : (client.program server).Guarantees guarantee := by
  induction client with
  | idle told => trivial
  | syncs available forceSync models next ih =>
    exact Program.guarantees_bind (SqlServer.guarantees_syncDatabase hlook (hissued forceSync models hclient.1) available)
      fun result => ih result (hclient.2 result)


namespace SqlServer

variable {V : Type} {server : SqlServer V} {model other : ModelSchema} {c c' c'' : SqlCatalog V} {live live' live'' : LiveTable V}

/-- The table with columns added, and a value in each for every row. -/
structure Grown (server : SqlServer V) (live live' : LiveTable V) : Prop where
  schema : live'.schema = live.schema
  name : live'.name = live.name
  primaryKey : live'.primaryKey = live.primaryKey
  columns : ∃ added, live'.columns = live.columns ++ added ∧ live'.rows = live.rows.map fun row => row ++ added.map server.fill

theorem Grown.refl (server : SqlServer V) (live : LiveTable V) : server.Grown live live :=
  ⟨rfl, rfl, rfl, [], (List.append_nil _).symm, by simp⟩

theorem Grown.trans (h : server.Grown live live') (h' : server.Grown live' live'') : server.Grown live live'' := by
  obtain ⟨added, hcolumns, hrows⟩ := h.columns
  obtain ⟨added', hcolumns', hrows'⟩ := h'.columns
  refine ⟨h'.schema.trans h.schema, h'.name.trans h.name, h'.primaryKey.trans h.primaryKey, added ++ added', ?_, ?_⟩
  · rw [hcolumns', hcolumns, List.append_assoc]
  · rw [hrows', hrows, List.map_map]
    refine List.map_congr_left fun row _ => ?_
    rw [Function.comp_apply, List.map_append, List.append_assoc]

theorem grown_addTo (server : SqlServer V) (schema table : List Char) (column : ColumnDefinition) (live : LiveTable V) :
    server.Grown live (server.addTo schema table column live) := by
  rw [addTo]
  split_ifs
  · exact ⟨rfl, rfl, rfl, [column], rfl, rfl⟩
  · exact Grown.refl server live

/-- Every table is still there, with its columns and rows, and every index. -/
def Extends (server : SqlServer V) (c c' : SqlCatalog V) : Prop :=
  (∃ grow made, (∀ live, server.Grown live (grow live)) ∧ c'.tables = c.tables.map grow ++ made) ∧ c.indexes <+: c'.indexes

theorem Extends.refl (server : SqlServer V) (c : SqlCatalog V) : server.Extends c c :=
  ⟨⟨id, [], Grown.refl server, by simp⟩, List.prefix_refl _⟩

theorem Extends.trans (h : server.Extends c c') (h' : server.Extends c' c'') : server.Extends c c'' := by
  obtain ⟨⟨grow, made, hgrow, htables⟩, hindexes⟩ := h
  obtain ⟨⟨grow', made', hgrow', htables'⟩, hindexes'⟩ := h'
  refine ⟨⟨grow' ∘ grow, made.map grow' ++ made', fun live => (hgrow live).trans (hgrow' _), ?_⟩, hindexes.trans hindexes'⟩
  rw [htables', htables, List.map_append, List.map_map, List.append_assoc]

/-- Without `force_sync` no statement of sync takes anything away. -/
theorem execute_extends {statement : SyncStatement} (h : server.Issued false model statement) (c : SqlCatalog V) :
    server.Extends c (server.execute statement c).2 := by
  rcases execute_cases server statement c with hsame | ⟨-, after, happly, hexecute⟩
  · rw [hsame]
    exact Extends.refl server c
  rw [hexecute]
  cases statement with
  | dropTable schema table => exact absurd h.1 Bool.false_ne_true
  | createTable schema table columns primaryKey =>
    obtain rfl := Option.some.inj happly
    exact ⟨⟨id, _, Grown.refl server, by rw [List.map_id]⟩, List.prefix_refl _⟩
  | addColumn schema table column =>
    rw [apply] at happly
    split_ifs at happly
    obtain rfl := Option.some.inj happly
    exact ⟨⟨_, [], grown_addTo server _ table column, (List.append_nil _).symm⟩, List.prefix_refl _⟩
  | createIndex schema table index ifNotExists =>
    rw [apply] at happly
    split_ifs at happly
    obtain ⟨live, -, rfl⟩ := Option.map_eq_some_iff.1 happly
    exact ⟨⟨id, [], Grown.refl server, by rw [List.map_id, List.append_nil]⟩, List.prefix_append _ _⟩

/-- Syncs without `force_sync` drop no table and no column and change no row, however many processes make them at once, whatever
their models are, and whether they succeed or fail. -/
theorem extends_schedule (server : SqlServer V) (clients : ℕ → SyncClient)
    (hadditive : ∀ i, (clients i).All fun forceSync _ => forceSync = false) (c : SqlCatalog V) (moves : List ℕ) :
    server.Extends c (Threads.schedule ⟨fun i => (clients i).program server, c⟩ moves).state := by
  have hclients (i : ℕ) : ((clients i).program server).Guarantees server.Extends := by
    refine SyncClient.guarantees (Extends.refl server) ?_ (hadditive i)
    rintro _ models rfl model _ statement hissued
    exact execute_extends hissued
  exact Threads.schedule_invariant (I := server.Extends c) hclients (fun _ _ hmove hbefore => hbefore.trans hmove)
    (Extends.refl server c) moves

/-- A server whose `users` table has the key column and a row, on SQLite. -/
def localServer (backend : BatchInsert.Backend) : SqlServer (Option ℕ) where
  backend := backend
  currentSchema := "main".toList
  foldsTableNames := false
  rustTypeToColumnType type := if type = "i64".toList then some .bigInteger else none
  fill _ := none
  cascade _ := []
  unanswered _ := none
  refuses _ _ := false
  error _ _ := .query "refused"

def usersTable (schema : List Char) : LiveTable (Option ℕ) where
  schema := schema
  name := "users".toList
  columns := [ColumnDefinition.new "ID".toList .bigInteger]
  primaryKey := ["ID".toList]
  rows := [[some 1]]
  dependsOn := []

def postsTable : LiveTable (Option ℕ) := { usersTable "main".toList with name := "posts".toList }

/-- Its rows go with the users. -/
def loginsTable : LiveTable (Option ℕ) :=
  { usersTable "main".toList with name := "logins".toList, dependsOn := [("main".toList, "users".toList)] }

def syncsUsers (forceSync : Bool) (_ : ℕ) : SyncClient := .syncs [] forceSync [usersModel] .idle

/-- One of two processes finds the column missing that the other adds first, and fails. -/
theorem extends_schedule_two : (localServer .sqlite).Extends ⟨[usersTable "main".toList], []⟩ (Threads.schedule
    ⟨fun i => (syncsUsers false i).program (localServer .sqlite), ⟨[usersTable "main".toList], []⟩⟩ [0, 1, 0, 1, 0, 1, 0, 1, 0, 0]).state :=
  extends_schedule (localServer .sqlite) (syncsUsers false) (fun _ => ⟨rfl, fun _ => trivial⟩) _ _

/-- The table named and its indexes are as they were. -/
def Untouched (server : SqlServer V) (schema table : List Char) (c c' : SqlCatalog V) : Prop :=
  c'.tables.filter (server.isNamed schema table) = c.tables.filter (server.isNamed schema table) ∧
    c'.indexes.filter (fun live => live.schema == schema && server.sameTable live.table table) =
      c.indexes.filter fun live => live.schema == schema && server.sameTable live.table table

theorem filter_filter_not {α : Type} {p q : α → Bool} {l : List α} (h : ∀ x, p x = true → q x = false) :
    (l.filter fun x => !q x).filter p = l.filter p := by
  rw [List.filter_filter]
  refine List.filter_congr fun x _ => ?_
  rcases hp : p x with _ | _
  · rfl
  · rw [h x hp]
    rfl

/-- No table named depends on the model's. -/
def Independent (server : SqlServer V) (schema table : List Char) (model : ModelSchema) (c : SqlCatalog V) : Prop :=
  ∀ live ∈ c.tables, server.isNamed schema table live = true →
    server.dependsOn (server.resolve (server.qualifyingSchema model)) model.tableName live = false

theorem isNamed_afterDrop (server : SqlServer V) (schema table schema' table' : List Char) (live : LiveTable V) :
    server.isNamed schema table (server.afterDrop schema' table' live) = server.isNamed schema table live := by
  rw [afterDrop]
  split_ifs <;> rfl

/-- The sync of a model touches no table but its own and those that depend on it. -/
theorem execute_untouched {forceSync : Bool} {schema table : List Char}
    (hother : ¬(server.resolve (server.qualifyingSchema model) = schema ∧ server.sameTable model.tableName table = true))
    {statement : SyncStatement} (h : server.Issued forceSync model statement) {c : SqlCatalog V}
    (hindependent : server.Independent schema table model c) :
    server.Untouched schema table c (server.execute statement c).2 := by
  rcases execute_cases server statement c with hsame | ⟨-, after, happly, hexecute⟩
  · rw [hsame]
    exact ⟨rfl, rfl⟩
  -- no name is that of both tables
  have hnames {schema' name : List Char} (hown : (schema' == schema && server.sameTable name table) = true) :
      (schema' == server.resolve (server.qualifyingSchema model) && server.sameTable name model.tableName) = false := by
    refine eq_false_of_ne_true fun hmodel => hother ?_
    rw [Bool.and_eq_true, beq_iff_eq, sameTable_iff] at hown hmodel
    rw [sameTable_iff]
    exact ⟨hmodel.1.symm.trans hown.1, hmodel.2.symm.trans hown.2⟩
  rw [hexecute]
  cases statement with
  | dropTable schema' table' =>
    obtain ⟨-, rfl, rfl⟩ := h
    obtain rfl := Option.some.inj happly
    refine ⟨?_, filter_filter_not fun live hlive => hnames hlive⟩
    have hcomp : server.isNamed schema table ∘ server.afterDrop (server.resolve (server.qualifyingSchema model)) model.tableName =
        server.isNamed schema table := funext fun live => isNamed_afterDrop ..
    have hkept : (c.tables.filter fun live => !server.isNamed (server.resolve (server.qualifyingSchema model)) model.tableName live).filter
        (server.isNamed schema table) = c.tables.filter (server.isNamed schema table) := filter_filter_not fun live hlive => hnames hlive
    rw [List.filter_map, hcomp, hkept]
    refine (List.map_congr_left fun live hlive => ?_).trans (List.map_id _)
    obtain ⟨hmem, hnamed⟩ := List.mem_filter.1 hlive
    rw [afterDrop, hindependent live hmem hnamed]
    rfl
  | createTable schema' table' columns primaryKey =>
    obtain ⟨rfl, rfl, -, -⟩ := h
    obtain rfl := Option.some.inj happly
    refine ⟨?_, rfl⟩
    have hnew : server.isNamed schema table (⟨server.resolve (server.qualifyingSchema model), model.tableName, columns, primaryKey, [], []⟩ :
        LiveTable V) = false := by
      refine eq_false_of_ne_true fun hown => hother ?_
      rwa [isNamed, Bool.and_eq_true, beq_iff_eq] at hown
    rw [List.filter_append, List.filter_singleton, hnew]
    exact List.append_nil _
  | addColumn schema' table' column =>
    obtain ⟨rfl, rfl⟩ := h
    rw [apply] at happly
    split_ifs at happly
    obtain rfl := Option.some.inj happly
    refine ⟨?_, rfl⟩
    rw [List.filter_map]
    have hfilter : server.isNamed schema table ∘ server.addTo (server.resolve (server.qualifyingSchema model)) model.tableName column =
        server.isNamed schema table := by
      funext live
      have hgrown := grown_addTo server (server.resolve (server.qualifyingSchema model)) model.tableName column live
      rw [Function.comp_apply, isNamed, isNamed, hgrown.schema, hgrown.name]
    rw [hfilter]
    refine (List.map_congr_left fun live hlive => ?_).trans (List.map_id _)
    rw [addTo, isNamed, hnames (List.mem_filter.1 hlive).2]
    rfl
  | createIndex schema' table' index ifNotExists =>
    obtain ⟨rfl, rfl⟩ := h
    rw [apply] at happly
    split_ifs at happly
    obtain ⟨live, hfind, rfl⟩ := Option.map_eq_some_iff.1 happly
    refine ⟨rfl, ?_⟩
    have hfound : server.isNamed (server.resolve (server.qualifyingSchema model)) model.tableName live = true := List.find?_some hfind
    have hnew : (live.schema == schema && server.sameTable live.name table) = false :=
      eq_false_of_ne_true fun hown => Bool.false_ne_true ((hnames hown).symm.trans hfound)
    rw [List.filter_append, List.filter_singleton, hnew]
    exact List.append_nil _

-- the rows of the table that depends on the users go
example : ((Threads.schedule ⟨fun i => (syncsUsers true i).program (localServer .sqlite), ⟨[usersTable "main".toList, loginsTable], []⟩⟩
    [0, 0]).state.tables.map fun live => (live.name, live.rows)) = [("logins".toList, [])] := by decide

/-- No table is the model's. -/
def Missing (server : SqlServer V) (model : ModelSchema) (c : SqlCatalog V) : Prop := ∀ live ∈ c.tables, server.isOf model live = false

/-- The model's table has a column of that name. -/
def HasColumn (server : SqlServer V) (model : ModelSchema) (c : SqlCatalog V) (name : List Char) : Prop :=
  ∃ live, c.tables.find? (server.isOf model) = some live ∧ ∃ column ∈ live.columns, eqIgnoreAsciiCase column.name name = true

/-- The model's table has every column of it. -/
def Declared (server : SqlServer V) (model : ModelSchema) (c : SqlCatalog V) : Prop :=
  (∃ live, c.tables.find? (server.isOf model) = some live) ∧ ∀ column ∈ model.columns, server.HasColumn model c column.name

theorem isOf_grown (h : server.Grown live live') : server.isOf model live' = server.isOf model live := by
  rw [isOf, isNamed, h.schema, h.name]
  rfl

theorem Extends.find? (h : server.Extends c c') (hfind : c.tables.find? (server.isOf model) = some live) :
    ∃ live', c'.tables.find? (server.isOf model) = some live' ∧ server.Grown live live' := by
  obtain ⟨⟨grow, made, hgrow, htables⟩, -⟩ := h
  refine ⟨grow live, ?_, hgrow live⟩
  have hcomp : server.isOf model ∘ grow = server.isOf model := funext fun live => isOf_grown (hgrow live)
  rw [htables, List.find?_append, List.find?_map, hcomp, hfind]
  rfl

theorem Extends.hasColumn {name : List Char} (h : server.Extends c c') (hcolumn : server.HasColumn model c name) :
    server.HasColumn model c' name := by
  obtain ⟨live, hfind, column, hmem, hname⟩ := hcolumn
  obtain ⟨live', hfind', hgrown⟩ := h.find? hfind
  obtain ⟨added, hcolumns, -⟩ := hgrown.columns
  exact ⟨live', hfind', column, by rw [hcolumns]; exact List.mem_append_left _ hmem, hname⟩

theorem Extends.declared (h : server.Extends c c') (hdeclared : server.Declared model c) : server.Declared model c' := by
  obtain ⟨⟨live, hfind⟩, hcolumns⟩ := hdeclared
  obtain ⟨live', hfind', -⟩ := h.find? hfind
  exact ⟨⟨live', hfind'⟩, fun column hcolumn => h.hasColumn (hcolumns column hcolumn)⟩

theorem eqIgnoreAsciiCase_refl (name : List Char) : eqIgnoreAsciiCase name name = true := beq_self_eq_true _

/-- The table a model is given has every column of it. -/
theorem declared_createTable (hmissing : server.Missing model c) :
    server.Declared model { c with tables := c.tables ++ [⟨server.resolve (server.qualifyingSchema model), model.tableName,
      server.createColumns model, primaryKeyColumns model, [], []⟩] } := by
  have hown : server.isOf model (⟨server.resolve (server.qualifyingSchema model), model.tableName, server.createColumns model,
      primaryKeyColumns model, [], []⟩ : LiveTable V) = true := isNamed_iff.2 ⟨rfl, rfl⟩
  have hfind : (c.tables ++ [(⟨server.resolve (server.qualifyingSchema model), model.tableName, server.createColumns model,
      primaryKeyColumns model, [], []⟩ : LiveTable V)]).find? (server.isOf model) = some ⟨server.resolve (server.qualifyingSchema model),
        model.tableName, server.createColumns model, primaryKeyColumns model, [], []⟩ := by
    have hnone : c.tables.find? (server.isOf model) = none :=
      List.find?_eq_none.2 fun live hlive => by rw [hmissing live hlive]; exact Bool.false_ne_true
    rw [List.find?_append, hnone, Option.none_or, List.find?_cons_of_pos hown]
  exact ⟨⟨_, hfind⟩, fun column hcolumn => ⟨_, hfind, _, List.mem_map_of_mem hcolumn, eqIgnoreAsciiCase_refl _⟩⟩

/-- One process of a program may leave a table missing, or make it what the program declares. -/
def Settles (server : SqlServer V) (models : List ModelSchema) (c c' : SqlCatalog V) : Prop :=
  server.Extends c c' ∧ ∀ model ∈ models, server.Missing model c → server.Missing model c' ∨ server.Declared model c'

/-- Where SQLite has a model's table, its name is spelled as the model spells it: its catalog tells case, its statements do not. -/
def Spelled (server : SqlServer V) (models : List ModelSchema) (c : SqlCatalog V) : Prop :=
  server.backend = .sqlite → ∀ live ∈ c.tables, ∀ model ∈ models, server.isOf model live = true → live.name = model.tableName

/-- No two of the models are of one table. -/
def OneModelEach (server : SqlServer V) (models : List ModelSchema) : Prop :=
  ∀ model ∈ models, ∀ other ∈ models, server.resolve (server.qualifyingSchema model) = server.resolve (server.qualifyingSchema other) →
    server.sameTable model.tableName other.tableName = true → model = other

variable {models : List ModelSchema}

theorem Settles.refl (server : SqlServer V) (models : List ModelSchema) (c : SqlCatalog V) : server.Settles models c c :=
  ⟨Extends.refl server c, fun _ _ hmissing => Or.inl hmissing⟩

theorem Settles.trans (h : server.Settles models c c') (h' : server.Settles models c' c'') : server.Settles models c c'' :=
  ⟨h.1.trans h'.1, fun model hmodel hmissing =>
    (h.2 model hmodel hmissing).elim (h'.2 model hmodel) fun hdeclared => Or.inr (h'.1.declared hdeclared)⟩

theorem missing_map {grow : LiveTable V → LiveTable V} (hgrow : ∀ live, server.Grown live (grow live)) {c : SqlCatalog V}
    (h : server.Missing model c) (indexes : List LiveIndex) : server.Missing model ⟨c.tables.map grow, indexes⟩ := by
  intro _ hmem
  obtain ⟨live, hlive, rfl⟩ := List.mem_map.1 hmem
  rw [isOf_grown (hgrow live)]
  exact h live hlive

theorem execute_settles (hdistinct : server.OneModelEach models) (hmodel : model ∈ models) {statement : SyncStatement}
    (h : server.Issued false model statement) (c : SqlCatalog V) : server.Settles models c (server.execute statement c).2 := by
  refine ⟨execute_extends h c, fun other hother hmissing => ?_⟩
  rcases execute_cases server statement c with hsame | ⟨-, after, happly, hexecute⟩
  · rw [hsame]
    exact Or.inl hmissing
  rw [hexecute]
  cases statement with
  | dropTable schema table => exact absurd h.1 Bool.false_ne_true
  | createTable schema table columns primaryKey =>
    obtain ⟨rfl, rfl, rfl, rfl⟩ := h
    obtain rfl := Option.some.inj happly
    rcases hown : server.isOf other (⟨server.resolve (server.qualifyingSchema model), model.tableName, server.createColumns model,
      primaryKeyColumns model, [], []⟩ : LiveTable V) with _ | _
    · refine Or.inl fun live hlive => ?_
      rcases List.mem_append.1 hlive with hlive | hlive
      · exact hmissing live hlive
      · rw [List.mem_singleton.1 hlive]
        exact hown
    · obtain ⟨hschema, htable⟩ := isNamed_iff.1 hown
      obtain rfl := hdistinct model hmodel other hother hschema (sameTable_iff.2 htable)
      exact Or.inr (declared_createTable hmissing)
  | addColumn schema table column =>
    rw [apply] at happly
    split_ifs at happly
    obtain rfl := Option.some.inj happly
    exact Or.inl (missing_map (grown_addTo server _ table column) hmissing c.indexes)
  | createIndex schema table index ifNotExists =>
    rw [apply] at happly
    split_ifs at happly
    obtain ⟨live, -, rfl⟩ := Option.map_eq_some_iff.1 happly
    exact Or.inl hmissing

theorem execute_spelled (hdistinct : server.OneModelEach models) (hmodel : model ∈ models) {forceSync : Bool} {statement : SyncStatement}
    (h : server.Issued forceSync model statement) (c : SqlCatalog V) (hspelled : server.Spelled models c) :
    server.Spelled models (server.execute statement c).2 := by
  rcases execute_cases server statement c with hsame | ⟨-, after, happly, hexecute⟩
  · rwa [hsame]
  rw [hexecute]
  intro hsqlite
  cases statement with
  | dropTable schema table =>
    obtain rfl := Option.some.inj happly
    intro _ hmem other hother hown
    obtain ⟨live, hlive, rfl⟩ := List.mem_map.1 hmem
    rw [isOf, isNamed_afterDrop] at hown
    have hname := hspelled hsqlite live (List.mem_of_mem_filter hlive) other hother hown
    rw [afterDrop]
    split_ifs <;> exact hname
  | createTable schema table columns primaryKey =>
    obtain ⟨rfl, rfl, rfl, rfl⟩ := h
    obtain rfl := Option.some.inj happly
    intro live hlive other hother hown
    rcases List.mem_append.1 hlive with hlive | hlive
    · exact hspelled hsqlite live hlive other hother hown
    · rw [List.mem_singleton.1 hlive] at hown ⊢
      obtain ⟨hschema, htable⟩ := isNamed_iff.1 hown
      rw [hdistinct model hmodel other hother hschema (sameTable_iff.2 htable)]
  | addColumn schema table column =>
    rw [apply] at happly
    split_ifs at happly
    obtain rfl := Option.some.inj happly
    intro _ hmem other hother hown
    obtain ⟨live, hlive, rfl⟩ := List.mem_map.1 hmem
    have hgrown := grown_addTo server (server.resolve schema) table column live
    rw [isOf_grown hgrown] at hown
    exact hgrown.name.trans (hspelled hsqlite live hlive other hother hown)
  | createIndex schema table index ifNotExists =>
    rw [apply] at happly
    split_ifs at happly
    obtain ⟨live, -, rfl⟩ := Option.map_eq_some_iff.1 happly
    exact hspelled hsqlite

/-- What the processes of one program make of the catalog. -/
def settling (server : SqlServer V) (models : List ModelSchema) : Rely (SqlCatalog V) where
  moves c c' := server.Settles models c c' ∧ (server.Spelled models c → server.Spelled models c')
  refl c := ⟨Settles.refl server models c, id⟩
  trans h h' := ⟨h.1.trans h'.1, h'.2 ∘ h.2⟩

theorem execute_settling (hdistinct : server.OneModelEach models) {model : ModelSchema} (hmodel : model ∈ models) (statement : SyncStatement)
    (h : server.Issued false model statement) (c : SqlCatalog V) :
    (server.settling models).moves c (server.execute statement c).2 :=
  ⟨execute_settles hdistinct hmodel h c, execute_spelled hdistinct hmodel h c⟩

theorem extends_of_settling (h : (server.settling models).moves c c') : server.Extends c c' := h.1.1

theorem spelled_of_settling (h : (server.settling models).moves c c') (hspelled : server.Spelled models c) : server.Spelled models c' :=
  h.2 hspelled

/-- The model names a schema where PostgreSQL's catalog needs one. -/
def NamesSchema (server : SqlServer V) (model : ModelSchema) : Prop := server.backend = .postgres → model.schemaName ≠ []

/-- The catalog is asked for the table that the statements are of. -/
theorem probedSchema_eq (h : server.NamesSchema model) : server.probedSchema model = server.resolve (server.qualifyingSchema model) := by
  rw [probedSchema, qualifyingSchema]
  cases hbackend : server.backend with
  | postgres =>
    have hname : (!model.schemaName.isEmpty) = true := by simpa using h hbackend
    dsimp only
    rw [if_pos hname]
    rfl
  | mySql => rfl
  | sqlite => rfl

theorem any_probed (h : server.NamesSchema model) (hmodel : model ∈ models) (hspelled : server.Spelled models c) :
    (c.tables.any fun live => live.schema == server.probedSchema model &&
      if server.backend = .sqlite then live.name == model.tableName else server.sameTable live.name model.tableName) =
      c.tables.any (server.isOf model) := by
  rw [probedSchema_eq h]
  refine Bool.eq_iff_iff.2 ?_
  rw [List.any_eq_true, List.any_eq_true]
  refine exists_congr fun live => and_congr_right fun hlive => ?_
  by_cases hsqlite : server.backend = .sqlite
  · rw [if_pos hsqlite, Bool.and_eq_true, beq_iff_eq, beq_iff_eq]
    constructor
    · rintro ⟨hschema, hname⟩
      exact isNamed_iff.2 ⟨hschema, by rw [hname]⟩
    · exact fun hown => ⟨(isNamed_iff.1 hown).1, hspelled hsqlite live hlive model hmodel hown⟩
  · rw [if_neg hsqlite]
    exact Iff.rfl

theorem find?_isOf (h : c.tables.any (server.isOf model) = true) : ∃ live, c.tables.find? (server.isOf model) = some live :=
  Option.isSome_iff_exists.1 (by rwa [List.find?_isSome, ← List.any_eq_true])

theorem name_missingColumn (server : SqlServer V) (model : ModelSchema) (column : ColumnDef) :
    (server.missingColumn model column).name = column.name := by
  rw [missingColumn]
  split_ifs <;> rfl

section Runs

open Program

variable {R : Rely (SqlCatalog V)}

theorem runs_probe {α : Type} {read : SqlCatalog V → α} {a : α} (h : Runs R (server.probe read).run c (.ok a) c') :
    ∃ s, R.moves c s ∧ read s = a ∧ R.moves s c' := by
  obtain ⟨s, hbefore, hread, hafter⟩ := Call.runs_attempt h
  dsimp only at hread hafter
  refine ⟨s, hbefore, ?_, hafter⟩
  cases hanswer : server.unanswered s with
  | none =>
    rw [hanswer] at hread
    exact Except.ok.inj hread
  | some error =>
    rw [hanswer] at hread
    cases hread

theorem runs_executeDdl {statement : SyncStatement} (h : Runs R (server.executeDdl statement).run c (.ok ()) c') :
    ∃ s, R.moves c s ∧ (server.isDone statement s = true ∧ R.moves s c' ∨
      server.isDone statement s = false ∧ ∃ after, server.apply statement s = some after ∧ R.moves after c') := by
  obtain ⟨s, hbefore, hok, hafter⟩ := Call.runs_attempt h
  refine ⟨s, hbefore, ?_⟩
  rcases execute_ok hok with ⟨hdone, hsame⟩ | ⟨hdone, happly⟩
  · rw [hsame] at hafter
    exact Or.inl ⟨hdone, hafter⟩
  · exact Or.inr ⟨hdone, _, happly, hafter⟩

/-- A column that a sync adds is there when its statement is done. -/
theorem hasColumn_of_runs (hR : ∀ {c c'}, R.moves c c' → server.Extends c c') {column : ColumnDef}
    (h : Runs R (server.addMissingColumn model column).run c (.ok ()) c') : server.HasColumn model c' column.name := by
  obtain ⟨s, -, ⟨hdone, -⟩ | ⟨-, after, happly, hafter⟩⟩ := runs_executeDdl h
  · cases hdone
  refine (hR hafter).hasColumn ?_
  rw [apply] at happly
  split_ifs at happly with hadds
  obtain rfl := Option.some.inj happly
  obtain ⟨live, hfind⟩ := find?_isOf (Bool.and_eq_true_iff.1 hadds).1
  have hgrown := grown_addTo server (server.resolve (server.qualifyingSchema model)) model.tableName (server.missingColumn model column)
  have hcomp : server.isOf model ∘ server.addTo (server.resolve (server.qualifyingSchema model)) model.tableName
      (server.missingColumn model column) = server.isOf model := funext fun live => isOf_grown (hgrown live)
  refine ⟨server.addTo (server.resolve (server.qualifyingSchema model)) model.tableName (server.missingColumn model column) live, ?_,
    server.missingColumn model column, ?_, ?_⟩
  · rw [List.find?_map, hcomp, hfind]
    rfl
  · have hown : server.isNamed (server.resolve (server.qualifyingSchema model)) model.tableName live = true := List.find?_some hfind
    rw [addTo, if_pos hown]
    exact List.mem_append_right _ (List.mem_singleton_self _)
  · rw [name_missingColumn]
    exact eqIgnoreAsciiCase_refl _

theorem declared_of_reconcile (hR : ∀ {c c'}, R.moves c c' → server.Extends c c')
    (hself : ∀ column, (server.addMissingColumn model column).run.Guarantees R.moves) (hnames : server.NamesSchema model)
    (hexists : c.tables.any (server.isOf model) = true)
    (h : Runs R (server.reconcileExistingTable model).run c (.ok ()) c') : server.Declared model c' := by
  obtain ⟨existing, s₁, hfetch, hrest⟩ := Call.runs_bind h
  obtain ⟨s, hbefore, hread, hafter⟩ := runs_probe hfetch
  obtain ⟨found, hfound⟩ := find?_isOf hexists
  obtain ⟨live, hfind, -⟩ := (hR hbefore).find? hfound
  have hlist : live.columns.map ColumnDefinition.name = existing := by
    rw [probedSchema_eq hnames] at hread
    rw [← hread]
    exact (congrArg (fun table => Option.elim table [] fun live => live.columns.map ColumnDefinition.name) hfind).symm
  split_ifs at hrest with hempty
  · cases hrest
  have hkeep {column : ColumnDef} {s s' : SqlCatalog V} (hmove : R.moves s s') (hcolumn : server.HasColumn model s column.name) :
      server.HasColumn model s' column.name := (hR hmove).hasColumn hcolumn
  have hadded := Call.runs_forM (I := fun _ => True) (P := fun column c => server.HasColumn model c column.name) (fun _ _ => trivial)
    hkeep (fun column _ => hself column) (fun column _ _ _ _ hrun => hasColumn_of_runs hR hrun) trivial hrest
  have hend := hR (R.trans hafter (hrest.moves (Call.guarantees_forM fun column _ => hself column)))
  refine ⟨?_, fun column hcolumn => ?_⟩
  · obtain ⟨live', hfind', -⟩ := hend.find? hfind
    exact ⟨live', hfind'⟩
  · by_cases hmissing : existing.any (fun name => eqIgnoreAsciiCase name column.name) = true
    · refine hend.hasColumn ⟨live, hfind, ?_⟩
      obtain ⟨name, hname, hsame⟩ := List.any_eq_true.1 hmissing
      rw [← hlist] at hname
      obtain ⟨known, hknown, rfl⟩ := List.mem_map.1 hname
      exact ⟨known, hknown, hsame⟩
    · refine hadded column (List.mem_filter.2 ⟨hcolumn, ?_⟩)
      rw [eq_false_of_ne_true hmissing]
      rfl

end Runs

/-- A model whose sync succeeds has its table with every column of it, whatever other processes of the program sync meanwhile. -/
theorem declared_of_runs (hdistinct : server.OneModelEach models) (hmodel : model ∈ models) (hnames : server.NamesSchema model)
    (hspelled : server.Spelled models c)
    (h : Program.Runs (server.settling models) (server.syncModelSchema false model).run c (.ok ()) c') : server.Declared model c' := by
  have hissued (statement : SyncStatement) (hstatement : server.Issued false model statement) (c : SqlCatalog V) :=
    execute_settling hdistinct hmodel statement hstatement c
  have hlook := (server.settling models).refl
  obtain ⟨tableExists, s₁, hprobe, hrest⟩ := Call.runs_bind h
  obtain ⟨s, hbefore, hread, hafter⟩ := runs_probe hprobe
  obtain ⟨_, s₂, hdrop, hrest⟩ := Call.runs_bind hrest
  obtain ⟨_, s₃, hensure, hindexes⟩ := Call.runs_bind hrest
  refine (hindexes.moves (guarantees_syncIndexes hlook (fun _ _ => hissued _ ⟨rfl, rfl⟩) _)).1.1.declared ?_
  have hexists : s.tables.any (server.isOf model) = tableExists := (any_probed hnames hmodel (hbefore.2 hspelled)).symm.trans hread
  rw [Bool.false_and, dropExisting, if_neg Bool.false_ne_true] at hdrop
  have hmoved := (server.settling models).trans hafter (Call.runs_pure hdrop).2
  rw [ensureTable] at hensure
  cases tableExists with
  | true =>
    obtain ⟨live, hfind⟩ := find?_isOf hexists
    obtain ⟨live', hfind', -⟩ := hmoved.1.1.find? hfind
    have hany : s₂.tables.any (server.isOf model) = true :=
      List.any_eq_true.2 ⟨live', List.mem_of_find?_eq_some hfind', List.find?_some hfind'⟩
    exact declared_of_reconcile extends_of_settling
      (fun column => Call.guarantees_attempt (hissued _ ⟨rfl, rfl⟩)) hnames hany hensure
  | false =>
    have hmissing : server.Missing model s := fun live hlive => eq_false_of_ne_true (List.any_eq_false.1 hexists live hlive)
    obtain ⟨t, hmove, hdone⟩ := runs_executeDdl hensure
    have hsettled := ((server.settling models).trans hmoved hmove).1.2 model hmodel hmissing
    rcases hdone with ⟨hdone, hend⟩ | ⟨hdone, after, happly, hend⟩
    · refine hend.1.1.declared (hsettled.resolve_left fun hmissing => ?_)
      obtain ⟨live, hlive, hown⟩ := List.any_eq_true.1 hdone
      exact Bool.false_ne_true ((hmissing live hlive).symm.trans hown)
    · obtain rfl := Option.some.inj happly
      refine hend.1.1.declared (declared_createTable fun live hlive => eq_false_of_ne_true ?_)
      exact List.any_eq_false.1 hdone live hlive

/-- Processes after some of their steps, when the next thing process `i` does is to sync. -/
def syncing (server : SqlServer V) (clients : ℕ → SyncClient) (c : SqlCatalog V) (before : List ℕ) (i : ℕ) (available : List (List Char))
    (synced : List ModelSchema) : Threads (SqlCatalog V) (Except Error Unit) :=
  (Threads.schedule ⟨fun j => (clients j).program server, c⟩ before).start i (server.syncDatabase available false synced).run

/-- On PostgreSQL the registry holds one model of each table. -/
theorem oneModelEach_registerAll (hpostgres : server.backend = .postgres) {registered : List ModelSchema}
    (hnames : ∀ model ∈ SyncRegistry.registerAll registered, server.NamesSchema model) :
    server.OneModelEach (SyncRegistry.registerAll registered) := by
  intro model hmodel other hother hschema htable
  have hprobed {model : ModelSchema} (hmodel : model ∈ SyncRegistry.registerAll registered) :
      server.resolve (server.qualifyingSchema model) = model.schemaName := by
    rw [← probedSchema_eq (hnames model hmodel), probedSchema, hpostgres]
  rw [hprobed hmodel, hprobed hother] at hschema
  rw [sameTable, hpostgres] at htable
  exact SyncRegistry.eq_of_mem_registerAll hmodel hother (beq_iff_eq.1 htable) hschema

theorem namesSchema_users (server : SqlServer V) (model : ModelSchema) (h : model ∈ SyncRegistry.registerAll [usersModel, loginsModel]) :
    server.NamesSchema model := by
  obtain rfl : model = SyncRegistry.merge usersModel loginsModel := List.mem_singleton.1 h
  exact fun _ => List.cons_ne_nil _ _

/-- The table as a model declares it, empty. -/
def freshTable (server : SqlServer V) (model : ModelSchema) : LiveTable V :=
  ⟨server.resolve (server.qualifyingSchema model), model.tableName, server.createColumns model, primaryKeyColumns model, [], []⟩

theorem isOf_freshTable (server : SqlServer V) (model : ModelSchema) : server.isOf model (server.freshTable model) = true :=
  isNamed_iff.2 ⟨rfl, rfl⟩

/-- The statements that make indexes leave the tables as they are. -/
theorem tables_createIndex (index : IndexDefinition) (ifNotExists : Bool) (c : SqlCatalog V) :
    (server.execute (.createIndex (server.qualifyingSchema model) model.tableName index ifNotExists) c).2.tables = c.tables := by
  rcases execute_cases server (.createIndex (server.qualifyingSchema model) model.tableName index ifNotExists) c with
    hsame | ⟨-, after, happly, hexecute⟩
  · rw [hsame]
  · rw [hexecute]
    rw [apply] at happly
    split_ifs at happly
    obtain ⟨live, -, rfl⟩ := Option.map_eq_some_iff.1 happly
    rfl

def sameTables (V : Type) : Rely (SqlCatalog V) where
  moves c c' := c'.tables = c.tables
  refl _ := rfl
  trans h h' := h'.trans h

/-- A forced sync of a model drops what was there and makes the table anew. -/
theorem fresh_of_forced (hnames : server.NamesSchema model) (hmodel : model ∈ models) (hspelled : server.Spelled models c)
    (h : (server.syncModelSchema true model).exec c = (.ok (), c')) : c'.tables.filter (server.isOf model) = [server.freshTable model] := by
  have hruns := Program.runs_exec (R := Rely.alone _) (server.syncModelSchema true model).run c
  change Program.Runs _ _ c ((server.syncModelSchema true model).exec c).1 ((server.syncModelSchema true model).exec c).2 at hruns
  rw [h] at hruns
  obtain ⟨tableExists, s₁, hprobe, hrest⟩ := Call.runs_bind hruns
  obtain ⟨s, hbefore, hread, hafter⟩ := runs_probe hprobe
  obtain rfl : c = s := hbefore
  obtain rfl : c = s₁ := hafter
  have hexists : c.tables.any (server.isOf model) = tableExists := (any_probed hnames hmodel hspelled).symm.trans hread
  obtain ⟨_, s₂, hdrop, hrest⟩ := Call.runs_bind hrest
  obtain ⟨_, s₃, hensure, hindexes⟩ := Call.runs_bind hrest
  have hmissing : ∀ live ∈ s₂.tables, server.isOf model live = false := by
    rw [Bool.true_and, dropExisting] at hdrop
    split_ifs at hdrop with hdrops
    · obtain ⟨s, hbefore, ⟨hdone, -⟩ | ⟨-, after, happly, hafter⟩⟩ := runs_executeDdl hdrop
      · obtain rfl : c = s := hbefore
        refine absurd hdone ?_
        change (!c.tables.any (server.isOf model)) ≠ true
        rw [hexists, hdrops]
        exact Bool.false_ne_true
      · obtain rfl := Option.some.inj happly
        obtain rfl : _ = s₂ := hafter
        intro _ hmem
        obtain ⟨live, hlive, rfl⟩ := List.mem_map.1 hmem
        rw [isOf, isNamed_afterDrop]
        exact Bool.not_eq_true' _ ▸ (List.mem_filter.1 hlive).2
    · obtain rfl : c = s₂ := (Call.runs_pure hdrop).2
      intro live hlive
      exact eq_false_of_ne_true (List.any_eq_false.1 (hexists.trans (eq_false_of_ne_true hdrops)) live hlive)
  have htables : c'.tables = s₃.tables := by
    exact Program.Runs.moves (R := sameTables V) (hindexes.mono fun c c' hmove => (congrArg SqlCatalog.tables hmove).symm)
      (guarantees_syncIndexes (sameTables V).refl tables_createIndex _)
  rw [Bool.or_true, ensureTable, if_pos rfl] at hensure
  obtain ⟨s, hbefore, ⟨hdone, -⟩ | ⟨-, after, happly, hafter⟩⟩ := runs_executeDdl hensure
  · obtain rfl : s₂ = s := hbefore
    obtain ⟨live, hlive, hown⟩ := List.any_eq_true.1 hdone
    exact absurd ((hmissing live hlive).symm.trans hown) Bool.false_ne_true
  · obtain rfl : s₂ = s := hbefore
    obtain rfl := Option.some.inj happly
    obtain rfl : _ = s₃ := hafter
    rw [htables, List.filter_append, List.filter_eq_nil_iff.2 fun live hlive => by rw [hmissing live hlive]; exact Bool.false_ne_true]
    exact List.filter_cons_of_pos (isOf_freshTable server model)

/-- A table that sync made depends on no other. -/
theorem independent_of_fresh (first : ModelSchema) (h : c.tables.filter (server.isOf model) = [server.freshTable model]) :
    server.Independent (server.resolve (server.qualifyingSchema model)) model.tableName first c := by
  intro live hlive hnamed
  have hmem : live ∈ c.tables.filter (server.isOf model) := List.mem_filter.2 ⟨hlive, hnamed⟩
  rw [h] at hmem
  rw [List.mem_singleton.1 hmem]
  rfl

/-- Forced syncs of a list of models, no two of one table. -/
theorem fresh_of_list (hdistinct : server.OneModelEach models) (hnames : ∀ model ∈ models, server.NamesSchema model)
    {list : List ModelSchema} (hlist : ∀ model ∈ list, model ∈ models) (hspelled : server.Spelled models c)
    (h : Call.exec (list.forM (server.syncModelSchema true)) c = (.ok (), c')) :
    (∀ model ∈ list, c'.tables.filter (server.isOf model) = [server.freshTable model]) ∧
      ∀ model ∈ models, c.tables.filter (server.isOf model) = [server.freshTable model] →
        c'.tables.filter (server.isOf model) = [server.freshTable model] := by
  induction list generalizing c with
  | nil =>
    obtain rfl := (Prod.mk.inj h).2
    exact ⟨fun model hmodel => (List.not_mem_nil hmodel).elim, fun model _ hfresh => hfresh⟩
  | cons first list ih =>
    rw [List.forall_mem_cons] at hlist
    rw [Call.exec_forM_cons] at h
    rcases hfirst : (server.syncModelSchema true first).exec c with ⟨error | told, s⟩
    · rw [hfirst] at h
      cases h
    rw [hfirst] at h
    have hfresh := fresh_of_forced (hnames first hlist.1) hlist.1 hspelled hfirst
    have hissued (statement : SyncStatement) (hstatement : server.Issued true first statement) (c : SqlCatalog V) :=
      execute_spelled hdistinct hlist.1 hstatement c
    have hstate : s = ((server.syncModelSchema true first).exec c).2 := by rw [hfirst]
    have hspelled' : server.Spelled models s := by
      rw [hstate]
      exact Program.exec_invariant (guarantees_syncModelSchema (fun _ h => h) hissued) hspelled
    obtain ⟨hrest, hkept⟩ := ih hlist.2 hspelled' h
    refine ⟨List.forall_mem_cons.2 ⟨hkept first hlist.1 hfresh, hrest⟩, fun model hmodel hbefore => hkept model hmodel ?_⟩
    by_cases hsame : server.resolve (server.qualifyingSchema first) = server.resolve (server.qualifyingSchema model) ∧
        server.sameTable first.tableName model.tableName = true
    · obtain rfl := hdistinct first hlist.1 model hmodel hsame.1 hsame.2
      exact hfresh
    · have hkeeps : (server.syncModelSchema true first).run.Guarantees fun s s' =>
          s.tables.filter (server.isOf model) = [server.freshTable model] → s'.tables.filter (server.isOf model) = [server.freshTable model] :=
        guarantees_syncModelSchema (fun _ h => h) fun statement hstatement s hfresh =>
          (execute_untouched hsame hstatement (independent_of_fresh first hfresh)).1.trans hfresh
      rw [hstate]
      exact Program.exec_invariant hkeeps hbefore

theorem oneModelEach_users (server : SqlServer V) : server.OneModelEach [usersModel] :=
  fun _ hmodel _ hother _ _ => (List.mem_singleton.1 hmodel).trans (List.mem_singleton.1 hother).symm

/-- The index a statement of that name would make is there, on the model's table. -/
def HasIndex (server : SqlServer V) (model : ModelSchema) (c : SqlCatalog V) (index : IndexDefinition) : Prop :=
  ∃ live, c.indexes.find? (server.isIndexNamed (server.resolve (server.qualifyingSchema model)) model.tableName index.name) = some live ∧
    server.sameTable live.table model.tableName = true

theorem exec_probe {α : Type} (read : SqlCatalog V → α) (hanswers : server.unanswered c = none) :
    (server.probe read).exec c = (.ok (read c), c) := by
  rw [probe, Call.exec_attempt, hanswers]
  rfl

theorem any_isOf (h : ∃ live, c.tables.find? (server.isOf model) = some live) : c.tables.any (server.isOf model) = true := by
  obtain ⟨live, hfind⟩ := h
  exact List.any_eq_true.2 ⟨live, List.mem_of_find?_eq_some hfind, List.find?_some hfind⟩

theorem exec_reconcile (hanswers : server.unanswered c = none) (hnames : server.NamesSchema model) (hdeclared : server.Declared model c)
    (hcolumns : model.columns ≠ []) : (server.reconcileExistingTable model).exec c = (.ok (), c) := by
  obtain ⟨⟨live, hfind⟩, hall⟩ := hdeclared
  have hfetch : (server.fetchExistingColumns model).exec c = (.ok (live.columns.map ColumnDefinition.name), c) := by
    rw [fetchExistingColumns, exec_probe _ hanswers, probedSchema_eq hnames]
    exact congrArg (fun table => (Except.ok (Option.elim table [] fun live => live.columns.map ColumnDefinition.name), c)) hfind
  have hpresent (column : ColumnDef) (hcolumn : column ∈ model.columns) :
      (live.columns.map ColumnDefinition.name).any (fun name => eqIgnoreAsciiCase name column.name) = true := by
    obtain ⟨found, hfound, known, hknown, hname⟩ := hall column hcolumn
    obtain rfl := Option.some.inj (hfind.symm.trans hfound)
    exact List.any_eq_true.2 ⟨known.name, List.mem_map_of_mem hknown, hname⟩
  have hnonempty : ¬(live.columns.map ColumnDefinition.name).isEmpty = true := by
    obtain ⟨column, hcolumn⟩ := List.exists_mem_of_ne_nil _ hcolumns
    obtain ⟨name, hname, -⟩ := List.any_eq_true.1 (hpresent column hcolumn)
    exact fun hempty => List.not_mem_nil (List.isEmpty_iff.1 hempty ▸ hname)
  have hdiff : (diffColumns model (live.columns.map ColumnDefinition.name)).1 = [] := by
    refine List.filter_eq_nil_iff.2 fun column hcolumn => ?_
    rw [hpresent column hcolumn]
    exact Bool.false_ne_true
  rw [reconcileExistingTable, Call.exec_bind, hfetch]
  dsimp only
  rw [if_neg hnonempty, hdiff]
  rfl

theorem exec_syncIndex (hanswers : server.unanswered c = none) (hnames : server.NamesSchema model)
    (hexists : c.tables.any (server.isOf model) = true) {index : IndexDefinition} (hindex : server.HasIndex model c index) :
    (server.syncIndex model false index).exec c = (.ok (), c) := by
  obtain ⟨live, hfind, hsame⟩ := hindex
  have hany : c.indexes.any (server.isIndexNamed (server.resolve (server.qualifyingSchema model)) model.tableName index.name) = true :=
    List.any_eq_true.2 ⟨live, List.mem_of_find?_eq_some hfind, List.find?_some hfind⟩
  have howner : (server.checkIndexOwner model index.name).exec c = (.ok (), c) := by
    rw [checkIndexOwner, Call.exec_bind, indexOwner]
    split_ifs
    · rfl
    · rw [exec_probe _ hanswers, hfind]
      dsimp only [Option.map_some]
      rw [if_pos hsame]
      rfl
  rw [syncIndex, Call.exec_bind, howner]
  dsimp only
  rw [Call.exec_bind, skipsIndex]
  split_ifs with hmysql
  · rw [mysqlIndexExists, exec_probe _ hanswers, probedSchema_eq hnames, hany]
    rfl
  · have hdone : server.isDone (.createIndex (server.qualifyingSchema model) model.tableName index !false) c = true := by
      rw [isDone, hany, Bool.and_true]
      refine Bool.and_eq_true_iff.2 ⟨?_, hexists⟩
      rw [Bool.not_false, Bool.true_and, bne_iff_ne]
      exact hmysql
    rw [Call.exec_pure]
    dsimp only
    rw [if_neg Bool.false_ne_true, createIndex, Call.exec_tryCatch, executeDdl, Call.exec_attempt, execute, if_pos hdone]

/-- Where its columns and indexes are in place, a model's sync finds nothing to do. -/
theorem exec_syncModelSchema (hanswers : server.unanswered c = none) (hnames : server.NamesSchema model) (hmodel : model ∈ models)
    (hspelled : server.Spelled models c) (hdeclared : server.Declared model c) (hcolumns : model.columns ≠ [])
    (hindexes : ∀ index ∈ model.indexes, server.HasIndex model c index) :
    (server.syncModelSchema false model).exec c = (.ok (), c) := by
  have hexists := any_isOf hdeclared.1
  have hprobe : (server.checkTableExists model).exec c = (.ok true, c) := by
    rw [checkTableExists, exec_probe _ hanswers, any_probed hnames hmodel hspelled, hexists]
  rw [syncModelSchema, Call.exec_bind, hprobe]
  dsimp only
  rw [Call.exec_bind, Bool.false_and, dropExisting, if_neg Bool.false_ne_true, Call.exec_pure]
  dsimp only
  rw [Call.exec_bind, Bool.not_true, Bool.false_or, ensureTable, if_neg Bool.false_ne_true,
    exec_reconcile hanswers hnames hdeclared hcolumns]
  exact Call.exec_forM_same fun index hindex => exec_syncIndex hanswers hnames hexists (hindexes index hindex)

/-- A sync after one that succeeded, and had none of its indexes refused, changes nothing: it fails only where the database does
not answer. -/
theorem sync_again (server : SqlServer V) (available : List (List Char)) (models : List ModelSchema)
    (hdistinct : server.OneModelEach models) (hnames : ∀ model ∈ models, server.NamesSchema model)
    (hcolumns : ∀ model ∈ models, model.columns ≠ []) (c c' : SqlCatalog V) (hspelled : server.Spelled models c)
    (h : (server.syncDatabase available false models).exec c = (.ok (), c'))
    (hindexes : ∀ model ∈ models, ∀ index ∈ model.indexes, server.HasIndex model c' index) :
    (server.syncDatabase available false models).exec c' = ((server.unanswered c').elim (.ok ()) .error, c') := by
  have hnonempty : ¬models.isEmpty = true := by
    intro hempty
    rw [syncDatabase, if_pos hempty] at h
    cases h
  rw [syncDatabase, if_neg hnonempty] at h ⊢
  cases hanswers : server.unanswered c' with
  | some error =>
    obtain ⟨model, rest, rfl⟩ := List.exists_cons_of_ne_nil fun hempty => hnonempty (List.isEmpty_iff.2 hempty)
    have hprobe : (server.checkTableExists model).exec c' = (.error error, c') := by
      rw [checkTableExists, probe, Call.exec_attempt, hanswers]
      rfl
    rw [syncModelSchemas, Call.exec_forM_cons, syncModelSchema, Call.exec_bind, hprobe]
    rfl
  | none =>
    have hruns := Program.runs_exec (R := server.settling models) (server.syncModelSchemas false models).run c
    change Program.Runs _ _ c ((server.syncModelSchemas false models).exec c).1 ((server.syncModelSchemas false models).exec c).2 at hruns
    rw [h] at hruns
    have hguarantees (model : ModelSchema) (hmodel : model ∈ models) :
        (server.syncModelSchema false model).run.Guarantees (server.settling models).moves :=
      guarantees_syncModelSchema (server.settling models).refl (execute_settling hdistinct hmodel)
    have hdeclared := Call.runs_forM (I := server.Spelled models) (P := fun model c => server.Declared model c) spelled_of_settling
      (fun hmove => (extends_of_settling hmove).declared) hguarantees
      (fun model hmodel _ _ hspelled hrun => declared_of_runs hdistinct hmodel (hnames model hmodel) hspelled hrun) hspelled hruns
    have hspelled' := spelled_of_settling (hruns.moves (Call.guarantees_forM hguarantees)) hspelled
    exact Call.exec_forM_same fun model hmodel => exec_syncModelSchema hanswers (hnames model hmodel) hmodel hspelled'
      (hdeclared model hmodel) (hcolumns model hmodel) (hindexes model hmodel)

/-- The first sync adds the name and its index to the table. -/
theorem sync_again_users :
    (((localServer .mySql).syncDatabase [] false [usersModel]).exec
      (((localServer .mySql).syncDatabase [] false [usersModel]).exec ⟨[usersTable "main".toList], []⟩).2) =
      (.ok (), (((localServer .mySql).syncDatabase [] false [usersModel]).exec ⟨[usersTable "main".toList], []⟩).2) := by
  refine sync_again (localServer .mySql) [] [usersModel] (oneModelEach_users _) (fun _ _ h => absurd h (by decide)) ?_
    ⟨[usersTable "main".toList], []⟩ _ (fun h => absurd h (by decide)) rfl ?_
  · intro model hmodel
    rw [List.mem_singleton.1 hmodel]
    exact List.cons_ne_nil _ _
  · intro model hmodel index hindex
    rw [List.mem_singleton.1 hmodel] at hindex ⊢
    rw [List.mem_singleton.1 hindex]
    exact ⟨⟨"main".toList, "users".toList, ⟨"idx_users_name".toList, ["name".toList], true⟩⟩, rfl, rfl⟩

end SqlServer

end TideOrm
