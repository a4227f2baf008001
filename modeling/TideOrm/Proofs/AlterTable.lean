import TideOrm.Spec.AlterTable

/-! The attributes a MySQL `MODIFY COLUMN` restates. The pass over the operations follows every
rename as it is spelled, and keeps what it finds under the column's name alone, so the last
type change under a name decides for all of them. -/

namespace TideOrm

open Lib Ddl

namespace AlterTableBuilder

/-- The names the pass keeps are those that following the operations leads to. -/
def FollowsNames (storedNames : HashMap (List Char) (Option (List Char))) (earlier : List AlterOperation) : Prop :=
  ∀ name, (storedNames.lookup name).getD (some name) = followed earlier name

theorem follows_step {s : Keeping} {earlier : List AlterOperation} (createTable : List Char) (operation : AlterOperation)
    (h : FollowsNames s.storedNames earlier) : FollowsNames (keepStep createTable s operation).storedNames (operation :: earlier) := by
  intro name
  cases operation with
  | addColumn column =>
    rw [keepStep, followed, AList.lookup_insert_cases]
    split_ifs
    · rfl
    · exact h name
  | dropColumn dropped =>
    rw [keepStep, followed, AList.lookup_insert_cases]
    split_ifs
    · rfl
    · exact h name
  | renameColumn source target =>
    rw [keepStep, followed, AList.lookup_insert_cases, AList.lookup_erase_cases]
    split_ifs
    · exact h source
    · rfl
    · exact h name
  | changeColumnType changed columnType =>
    rw [keepStep, followed]
    split
    · exact h name
    · exact h name

/-- The pass keeps, for each name, what the last type change under it finds. -/
theorem kept_run (createTable : List Char) (operations : List AlterOperation) :
    ∀ (earlier : List AlterOperation) (s : Keeping), FollowsNames s.storedNames earlier → ∀ name : List Char,
      (operations.foldl (keepStep createTable) s).kept.lookup name =
        (lastFound createTable earlier operations name).or (s.kept.lookup name) := by
  induction operations with
  | nil => exact fun earlier s h name => rfl
  | cons operation rest ih =>
    intro earlier s h name
    rw [List.foldl_cons, ih (operation :: earlier) _ (follows_step createTable operation h)]
    cases operation with
    | changeColumnType changed columnType =>
      rw [lastFound, Option.or_assoc, keepStep, h changed]
      by_cases hname : changed = name
      · rw [if_pos hname, hname]
        cases (followed earlier name).bind (mysqlColumnAttributes createTable) with
        | none => rw [Option.none_or]
        | some attributes =>
          dsimp only
          rw [AList.lookup_insert, Option.some_or]
      · rw [if_neg hname, Option.none_or]
        cases (followed earlier changed).bind (mysqlColumnAttributes createTable) with
        | none => rfl
        | some attributes =>
          dsimp only
          rw [AList.lookup_insert_ne (Ne.symm hname)]
    | addColumn column => rfl
    | dropColumn dropped => rfl
    | renameColumn source target => rfl

section

variable {alter : AlterTableBuilder} (hdb : alter.databaseType = .mySql ∨ alter.databaseType = .mariaDb)

include hdb

theorem buildOperation_ok (operation : AlterOperation) : ∃ statement, alter.buildOperation operation = .ok statement := by
  cases operation with
  | addColumn column =>
    rw [buildOperation]
    cases alter.sqliteUniqueAddition (.addColumn column) with
    | none => exact ⟨_, rfl⟩
    | some column => exact ⟨_, rfl⟩
  | dropColumn name => exact ⟨_, rfl⟩
  | renameColumn source target => exact ⟨_, rfl⟩
  | changeColumnType name columnType =>
    rw [buildOperation]
    rcases hdb with hdb | hdb <;> rw [hdb] <;> exact ⟨_, rfl⟩

theorem buildOperation_change (name : List Char) (columnType : Ddl.ColumnType) :
    alter.buildOperation (.changeColumnType name columnType) =
      .ok (modifyColumn alter.databaseType (quoteIdent alter.databaseType alter.name) name columnType
        (alter.keptAttributes.lookup name)) := by
  rw [buildOperation]
  rcases hdb with hdb | hdb <;> rw [hdb]

theorem not_sqlite : alter.databaseType ≠ .sqlite := by
  rcases hdb with hdb | hdb <;> rw [hdb] <;> decide

/-- MySQL takes one statement for each operation. -/
theorem build_mysql (indexes : List (List Char × List Char)) (operations : List AlterOperation) :
    ∃ statements, alter.buildFrom indexes operations = .ok statements ∧
      operations.map alter.buildOperation = statements.map .ok := by
  induction operations generalizing indexes with
  | nil => exact ⟨[], rfl, rfl⟩
  | cons operation rest ih =>
    obtain ⟨statement, hstatement⟩ := buildOperation_ok hdb operation
    obtain ⟨statements, hrest, hmap⟩ := ih (alter.indexesAfter indexes operation)
    refine ⟨statement :: statements, ?_, ?_⟩
    · have hdropped : alter.droppedIndexes indexes operation = [] := by
        cases operation with
        | dropColumn name => rw [droppedIndexes, if_neg (not_sqlite hdb)]
        | _ => rfl
      have hadded : alter.sqliteUniqueAddition operation = none := by
        cases operation with
        | addColumn column => rw [sqliteUniqueAddition, if_neg fun h => not_sqlite hdb h.1]
        | _ => rfl
      rw [buildFrom, hstatement, hrest, hdropped, hadded]
      rfl
    · rw [List.map_cons, List.map_cons, hstatement, hmap]

end

theorem modifyColumn_inj (db : DatabaseType) (table name : List Char) (columnType : Ddl.ColumnType)
    (kept kept' : Option KeptAttributes) :
    modifyColumn db table name columnType kept = modifyColumn db table name columnType kept' ↔
      restated (columnType.toSql db) kept = restated (columnType.toSql db) kept' := by
  unfold modifyColumn
  exact ⟨List.append_cancel_left, fun h => by rw [h]⟩

end AlterTableBuilder

/-- The name a column is stored under, none for one added since. -/
def ColumnOrigin.stored? : ColumnOrigin → Option (List Char)
  | .stored name => some name
  | .added => none

/-- Where a name has one spelling, following the operations leads to the column that has it. -/
theorem followed_of_run {table t : TableColumns} {operations earlier : List AlterOperation}
    (htable : ∀ name origin, table name = some origin → followed earlier name = origin.stored?)
    (hrun : table.run id operations = some t) :
    ∀ name origin, t name = some origin → followed (operations.reverse ++ earlier) name = origin.stored? := by
  induction operations generalizing table earlier with
  | nil =>
    obtain rfl := Option.some.inj hrun
    exact htable
  | cons operation rest ih =>
    obtain ⟨table', happly, hrest⟩ := Option.bind_eq_some_iff.1 hrun
    rw [List.reverse_cons, List.append_assoc, List.singleton_append]
    refine ih (fun name origin horigin => ?_) hrest
    cases operation with
    | addColumn column =>
      simp only [TableColumns.apply, id, Option.ite_none_right_eq_some, Option.some.injEq] at happly
      obtain ⟨-, rfl⟩ := happly
      rw [followed]
      split_ifs with hname
      · rw [hname, Function.update_self] at horigin
        rw [← Option.some.inj horigin, ColumnOrigin.stored?]
      · rw [Function.update_of_ne hname] at horigin
        exact htable name origin horigin
    | dropColumn dropped =>
      simp only [TableColumns.apply, id, Option.ite_none_right_eq_some, Option.some.injEq] at happly
      obtain ⟨-, rfl⟩ := happly
      rw [followed]
      split_ifs with hname
      · rw [hname, Function.update_self] at horigin
        cases horigin
      · rw [Function.update_of_ne hname] at horigin
        exact htable name origin horigin
    | renameColumn source target =>
      simp only [TableColumns.apply, id, Option.ite_none_right_eq_some, Option.some.injEq] at happly
      obtain ⟨-, rfl⟩ := happly
      rw [followed]
      split_ifs with htarget hsource
      · rw [htarget, Function.update_self] at horigin
        exact htable source origin horigin
      · rw [Function.update_of_ne htarget, hsource, Function.update_self] at horigin
        cases horigin
      · rw [Function.update_of_ne htarget, Function.update_of_ne hsource] at horigin
        exact htable name origin horigin
    | changeColumnType changed columnType =>
      simp only [TableColumns.apply, id, Option.ite_none_right_eq_some, Option.some.injEq] at happly
      obtain ⟨-, rfl⟩ := happly
      exact htable name origin horigin

/-- A type change of an alteration: `t` is the table when its statement runs. -/
structure ChangesType (key : List Char → List Char) (operations : List AlterOperation) (table : TableColumns)
    (before : List AlterOperation) (t : TableColumns) (name : List Char) (columnType : Ddl.ColumnType) : Prop where
  split : ∃ after, operations = before ++ .changeColumnType name columnType :: after
  table : table.run key before = some t

/-- Every `MODIFY COLUMN` restates the attributes stored of the column it changes. -/
def RestatesStored (key : List Char → List Char) (alter : AlterTableBuilder) (createTable : List Char)
    (table : TableColumns) : Prop :=
  ∃ statements, alter.build = .ok statements ∧
    ∀ before t name columnType, ChangesType key alter.operations table before t name columnType →
      statements[before.length]? = some (AlterTableBuilder.modifyColumn alter.databaseType
        (quoteIdent alter.databaseType alter.name) name columnType (t.attributes createTable (key name)))

/-- A table with a required column `a` and a nullable one `b`. -/
def twoColumns : List Char :=
  "CREATE TABLE `t` (\n  `a` int NOT NULL,\n  `b` varchar(9) COLLATE utf8mb4_bin DEFAULT NULL\n)".toList

/-- Names compared without their case. -/
def caseless (name : List Char) : List Char := name.map Char.toLower

end TideOrm
