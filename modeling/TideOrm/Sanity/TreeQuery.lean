import TideOrm.Lib.Traverse
import TideOrm.Lib.Words
import TideOrm.Sanity.Placeholders
import TideOrm.Spec.TreeQuery

/-! The text of the recursive query is what the query is written as, and the names of its key
columns differ. -/

namespace TideOrm.TreeQuery

open Lib ListCondition Sqlite

section Written

variable (db : DatabaseType)

@[simp] theorem written_nil : written db [] = [] := rfl

@[simp] theorem written_text (text : List Char) (rest : Pieces) : written db (.inl text :: rest) = text ++ written db rest := rfl

@[simp] theorem written_marker (index : ℕ) (rest : Pieces) :
    written db (.inr index :: rest) = placeholder db index ++ written db rest := rfl

@[simp] theorem written_append (a b : Pieces) : written db (a ++ b) = written db a ++ written db b := List.flatMap_append

theorem written_listed (separator : String) (texts : List Pieces) :
    written db (listed separator texts) = separator.toList.intercalate (texts.map (written db)) := by
  unfold listed
  rw [Lib.hom_intercalate (written_nil db) (written_append db), written_text, written_nil, List.append_nil]

end Written

section Keys

variable {m : NodeModel}

theorem selfReferenceColumn_ok {name column : List Char} (h : m.selfReferenceColumn name = .ok column) :
    m.canonicalColumnName name = some column := by
  unfold NodeModel.selfReferenceColumn at h
  split at h
  · next heq => rw [heq, Except.ok.inj h]
  · cases h

theorem primaryKeys_ne_nil {keys : List (List Char)} (h : m.primaryKeys = .ok keys) : keys ≠ [] := by
  unfold NodeModel.primaryKeys at h
  split at h
  · obtain ⟨column, -, rfl⟩ := map_eq_ok h
    exact List.cons_ne_nil _ _
  · rintro rfl
    cases (mapM_ok_iff _ _ _).1 h

theorem pkAlias_injective : Function.Injective pkAlias := by
  intro a b h
  have hshort : ∀ n : ℕ, "pk".toList ≠ "pk_".toList ++ decimal n := by
    intro n heq
    have hlen := congrArg List.length heq
    simp at hlen
  unfold pkAlias at h
  split_ifs at h with ha hb hb
  · rw [ha, hb]
  · exact absurd h (hshort b)
  · exact absurd h.symm (hshort a)
  · rw [← foldl_decimal a, List.append_cancel_left h, foldl_decimal]

theorem pkAliases_nodup (count : ℕ) : (pkAliases count).Nodup := (List.nodup_range' (h := by decide)).map pkAlias_injective

theorem header_nodup (count : ℕ) : (pkAliases count ++ ["tree_key".toList, "depth".toList]).Nodup := by
  have hother : ∀ name ∈ pkAliases count, name.head? = some 'p' := by
    intro name hname
    obtain ⟨position, -, rfl⟩ := List.mem_map.1 hname
    unfold pkAlias
    split_ifs <;> rfl
  refine List.nodup_append.2 ⟨pkAliases_nodup count, by decide, ?_⟩
  rintro name hname other hnew rfl
  have hp := hother name hname
  rcases List.mem_pair.1 hnew with rfl | rfl <;> exact absurd hp (by decide)

end Keys

section Text

variable {S : Type} {lib : Libraries S} {db : DatabaseType} {m : NodeModel}

theorem written_item (value : Expr) (name : List Char) :
    written db (itemPieces db (value, name)) = written db (value.pieces db) ++ (" AS ".toList ++ quoteIdent db name) := by
  simp [itemPieces]

/-- The key columns of a row and two more items. -/
theorem written_selectKeys {keys : List (List Char)} (hne : keys ≠ []) (scope : List Char) (own depth : Expr × List Char) :
    written db (listed ", " (((keys.zip (pkAliases keys.length)).map (fun key => (Expr.column scope key.1, key.2)) ++
        [own, depth]).map (itemPieces db))) =
      ", ".toList.intercalate ((keys.zip ((pkAliases keys.length).map (quoteIdent db))).map fun key =>
        scopedColumn db scope key.1 ++ " AS ".toList ++ key.2) ++ ", ".toList ++
      (written db (itemPieces db own) ++ ", ".toList ++ written db (itemPieces db depth)) := by
  have hitems : (keys.zip (pkAliases keys.length)).map (fun key => written db (itemPieces db (Expr.column scope key.1, key.2))) =
      (keys.zip ((pkAliases keys.length).map (quoteIdent db))).map fun key =>
        scopedColumn db scope key.1 ++ " AS ".toList ++ key.2 := by
    rw [List.zip_map_right, List.map_map]
    refine List.map_congr_left fun key _ => ?_
    rw [written_item, Expr.pieces, written_text, written_nil, List.append_nil, ← List.append_assoc]
    rfl
  have hsome : (keys.zip (pkAliases keys.length)).map (fun key => written db (itemPieces db (Expr.column scope key.1, key.2))) ≠ [] := by
    obtain ⟨key, rest, rfl⟩ := List.exists_cons_of_ne_nil hne
    exact List.cons_ne_nil _ _
  rw [written_listed, List.map_map, List.map_append, List.map_map]
  exact (Lib.intercalate_append _ hsome _ _).trans (by rw [← hitems]; simp [List.intercalate_cons_cons, Function.comp_def])

theorem written_filters (scope : List Char) (test : Test) :
    written db (testsPieces db (test :: if m.softDeleteEnabled then [Test.isNull (.column scope m.deletedAtColumn)] else [])) =
      " AND ".toList.intercalate (written db (test.pieces db) :: (softDeleteClause db m (some scope) false).toList) := by
  rw [testsPieces, written_listed, List.map_map, List.map_cons, softDeleteClause]
  cases m.softDeleteEnabled with
  | false => rfl
  | true => simp [Test.pieces, Expr.pieces]

theorem written_grouped {count : ℕ} (hne : count ≠ 0) (cte : List Char) (lowest : Expr × List Char) :
    written db (listed ", " (((pkAliases count).map fun aliased => (Expr.column cte aliased, aliased)).map (itemPieces db) ++
        [lowestPieces db lowest])) =
      ", ".toList.intercalate (((((pkAliases count).map (quoteIdent db)).map fun aliased => quoteIdent db cte ++ '.' :: aliased).zip
        ((pkAliases count).map (quoteIdent db))).map fun key => key.1 ++ " AS ".toList ++ key.2) ++ ", ".toList ++
      written db (lowestPieces db lowest) := by
  have hitems : ((pkAliases count).map fun aliased => written db (itemPieces db (Expr.column cte aliased, aliased))) =
      ((((pkAliases count).map (quoteIdent db)).map fun aliased => quoteIdent db cte ++ '.' :: aliased).zip
        ((pkAliases count).map (quoteIdent db))).map fun key => key.1 ++ " AS ".toList ++ key.2 := by
    rw [List.map_map, List.zip_map', List.map_map]
    refine List.map_congr_left fun aliased _ => ?_
    rw [written_item, Expr.pieces, written_text, written_nil, List.append_nil, ← List.append_assoc]
    rfl
  have hsome : ((pkAliases count).map fun aliased => written db (itemPieces db (Expr.column cte aliased, aliased))) ≠ [] := by
    obtain ⟨more, rfl⟩ := Nat.exists_eq_succ_of_ne_zero hne
    exact List.cons_ne_nil _ _
  rw [written_listed, List.map_append, List.map_map, List.map_map]
  exact (Lib.intercalate_append _ hsome _ _).trans (by rw [← hitems]; exact congrArg _ List.intercalate_singleton)

theorem written_groupBy (count : ℕ) (cte : List Char) :
    written db (listed ", " (((pkAliases count).map fun aliased => Expr.column cte aliased).map fun key => key.pieces db)) =
      ", ".toList.intercalate (((pkAliases count).map (quoteIdent db)).map fun aliased => quoteIdent db cte ++ '.' :: aliased) := by
  rw [written_listed, List.map_map, List.map_map, List.map_map]
  congr 1
  refine List.map_congr_left fun aliased _ => ?_
  exact List.append_nil _

theorem written_on (keys : List (List Char)) (node tree : List Char) :
    written db (testsPieces db ((keys.zip (pkAliases keys.length)).map fun key =>
        Test.equal (.column node key.1) (.column tree key.2))) =
      " AND ".toList.intercalate ((keys.zip ((pkAliases keys.length).map (quoteIdent db))).map fun key =>
        scopedColumn db node key.1 ++ " = ".toList ++ quoteIdent db tree ++ '.' :: key.2) := by
  rw [testsPieces, written_listed, List.zip_map_right, List.map_map, List.map_map, List.map_map]
  congr 1
  refine List.map_congr_left fun key _ => ?_
  show written db (.inl (scopedColumn db node key.1) :: .inl " = ".toList :: [.inl (scopedColumn db tree key.2)]) =
    scopedColumn db node key.1 ++ " = ".toList ++ quoteIdent db tree ++ '.' :: quoteIdent db key.2
  rw [written_text, written_text, written_text, written_nil, List.append_nil, scopedColumn, scopedColumn]
  simp only [List.append_assoc]

theorem written_columns (scope : List Char) :
    written db (listed ", " ((m.columnNames.map fun column => Expr.column scope column).map fun column => column.pieces db)) =
      modelColumnsSql db m (some scope) := by
  rw [written_listed, List.map_map, List.map_map]
  unfold modelColumnsSql
  congr 1
  refine List.map_congr_left fun column _ => ?_
  exact List.append_nil _

theorem written_header {count : ℕ} (hne : count ≠ 0) (treeKey depth : List Char) :
    written db (listed ", " ((pkAliases count ++ [treeKey, depth]).map fun name => [.inl (quoteIdent db name)])) =
      ", ".toList.intercalate ((pkAliases count).map (quoteIdent db)) ++ ", ".toList ++ quoteIdent db treeKey ++ ", ".toList ++
        quoteIdent db depth := by
  have hsome : (pkAliases count).map (quoteIdent db) ≠ [] := by
    obtain ⟨more, rfl⟩ := Nat.exists_eq_succ_of_ne_zero hne
    exact List.cons_ne_nil _ _
  have hnames : (pkAliases count ++ [treeKey, depth]).map (fun name => written db [.inl (quoteIdent db name)]) =
      (pkAliases count).map (quoteIdent db) ++ [quoteIdent db treeKey, quoteIdent db depth] := by
    rw [List.map_append]
    congr 1
    · exact List.map_congr_left fun name _ => List.append_nil _
    · simp
  rw [written_listed, List.map_map]
  refine (congrArg _ hnames).trans ((Lib.intercalate_append _ hsome _ _).trans ?_)
  rw [List.intercalate_cons_cons, List.intercalate_singleton]
  simp only [List.append_assoc]

theorem written_select (table walked : List Char) (select : Select) :
    written db (select.pieces db table walked) =
      "SELECT ".toList ++ written db (listed ", " (select.items.map (itemPieces db))) ++ " FROM ".toList ++
        written db (select.source.pieces db table walked) ++ ' ' :: quoteIdent db select.named ++
          written db (select.join.toList.flatMap (Join.pieces db table walked)) ++ " WHERE ".toList ++
            written db (testsPieces db select.filters) := by
  simp only [Select.pieces, written_text, written_append, List.append_assoc, List.cons_append, List.nil_append]

theorem written_base (foreign own : List Char) {keys : List (List Char)} (hne : keys ≠ []) (table walked : List Char) :
    written db ((treeWalk m foreign own keys).base.pieces db table walked) =
      "SELECT ".toList ++ ", ".toList.intercalate ((keys.zip ((pkAliases keys.length).map (quoteIdent db))).map fun key =>
          scopedColumn db "node".toList key.1 ++ " AS ".toList ++ key.2) ++ ", ".toList ++
        scopedColumn db "node".toList own ++ " AS ".toList ++ quoteIdent db "tree_key".toList ++ ", 1 AS ".toList ++
        quoteIdent db "depth".toList ++ " FROM ".toList ++ table ++ ' ' :: quoteIdent db "node".toList ++ " WHERE ".toList ++
        " AND ".toList.intercalate ((scopedColumn db "node".toList foreign ++ " = ".toList ++ placeholder db 1) ::
          (softDeleteClause db m (some "node".toList) false).toList) := by
  have hone : ", ".toList ++ (decimal 1 ++ " AS ".toList) = ", 1 AS ".toList := by decide
  rw [written_select]
  unfold treeWalk
  dsimp only
  rw [written_selectKeys hne, written_filters, written_item, written_item, ← hone]
  simp only [Expr.pieces, Test.pieces, Source.pieces, written_text, written_marker, written_nil, Option.toList_none,
    List.flatMap_nil, List.append_assoc, List.append_nil, List.cons_append, List.nil_append]

theorem written_step (foreign own : List Char) {keys : List (List Char)} (hne : keys ≠ []) (table : List Char) :
    written db ((treeWalk m foreign own keys).step.pieces db table "tide_tree".toList) =
      "SELECT ".toList ++ ", ".toList.intercalate ((keys.zip ((pkAliases keys.length).map (quoteIdent db))).map fun key =>
          scopedColumn db "child".toList key.1 ++ " AS ".toList ++ key.2) ++ ", ".toList ++
        scopedColumn db "child".toList own ++ " AS ".toList ++ quoteIdent db "tree_key".toList ++ ", ".toList ++
        scopedColumn db "tree".toList "depth".toList ++ " + 1 AS ".toList ++
        quoteIdent db "depth".toList ++ " FROM ".toList ++ table ++ ' ' :: quoteIdent db "child".toList ++
        " INNER JOIN ".toList ++ quoteIdent db "tide_tree".toList ++ ' ' :: quoteIdent db "tree".toList ++ " ON ".toList ++
        scopedColumn db "child".toList foreign ++ " = ".toList ++ scopedColumn db "tree".toList "tree_key".toList ++ " WHERE ".toList ++
        " AND ".toList.intercalate ((scopedColumn db "tree".toList "depth".toList ++ " < ".toList ++ placeholder db 2) ::
          (softDeleteClause db m (some "child".toList) false).toList) := by
  have hone : " + ".toList ++ (decimal 1 ++ " AS ".toList) = " + 1 AS ".toList := by decide
  have hon (test : Test) : written db (testsPieces db [test]) = written db (test.pieces db) := by
    rw [testsPieces, written_listed]
    exact List.intercalate_singleton
  rw [written_select]
  unfold treeWalk
  dsimp only
  rw [written_selectKeys hne, written_filters, written_item, written_item, ← hone]
  simp only [Expr.pieces, Test.pieces, Source.pieces, Join.pieces, hon, written_text, written_marker, written_nil,
    Option.toList_some, List.flatMap_cons, List.flatMap_nil, List.append_assoc, List.append_nil, List.cons_append, List.nil_append]

/-- The text is the walk as the database writes it. -/
theorem treeSql_eq (foreign own : List Char) {keys : List (List Char)} (hne : keys ≠ []) :
    treeSql db m foreign own keys (placeholder db 1) (placeholder db 2) =
      written db ((treeWalk m foreign own keys).pieces db (quoteTable db m)) := by
  have hcount : keys.length ≠ 0 := fun hlen => hne (List.length_eq_zero_iff.1 hlen)
  have hheader : written db (listed ", " ((treeWalk m foreign own keys).header.map fun name => [.inl (quoteIdent db name)])) = _ :=
    written_header hcount _ _
  have hstep : written db ((treeWalk m foreign own keys).step.pieces db (quoteTable db m) (treeWalk m foreign own keys).walked) = _ :=
    written_step foreign own hne _
  have hcolumns : written db (listed ", " ((treeWalk m foreign own keys).columns.map fun column => column.pieces db)) = _ :=
    written_columns _
  have hgrouped : written db (listed ", " ((treeWalk m foreign own keys).grouped.map (itemPieces db) ++
      [lowestPieces db (treeWalk m foreign own keys).lowest])) = _ := written_grouped hcount _ _
  have hgroupBy : written db (listed ", " ((treeWalk m foreign own keys).groupBy.map fun key => key.pieces db)) = _ :=
    written_groupBy _ _
  have hon : written db (testsPieces db (treeWalk m foreign own keys).on) = _ := written_on _ _ _
  have hmin : ", MIN(".toList = ", ".toList ++ "MIN(".toList := by decide
  unfold Walk.pieces
  simp only [written_text, written_append, written_base foreign own hne, hheader, hstep, hcolumns, hgrouped, hgroupBy, hon]
  unfold treeSql treeWalk
  dsimp only
  simp only [hmin, lowestPieces, Expr.pieces, scopedColumn, written_text, written_nil, List.append_assoc, List.append_nil, List.cons_append,
    List.nil_append]

/-- What is built is the walk as the database writes it, with the parent's key and the depth bound. -/
theorem build_written {foreignKey localKey sql : List Char} {parent : Json} {maxDepth : ℕ} {params : List (Value S)}
    (h : buildSelfRefTreeSql db m lib foreignKey localKey parent maxDepth = .ok (sql, params)) :
    ∃ foreign own keys, m.canonicalColumnName foreignKey = some foreign ∧ m.canonicalColumnName localKey = some own ∧
      m.primaryKeys = .ok keys ∧ sql = written db ((treeWalk m foreign own keys).pieces db (quoteTable db m)) ∧
      params = [jsonToColumnValue lib parent (m.columnTypeOf foreign), .bigInt (some maxDepth)] := by
  unfold buildSelfRefTreeSql at h
  obtain ⟨foreign, hforeign, h⟩ := bind_eq_ok h
  obtain ⟨own, hown, h⟩ := bind_eq_ok h
  obtain ⟨keys, hkeys, h⟩ := bind_eq_ok h
  refine ⟨foreign, own, keys, selfReferenceColumn_ok hforeign, selfReferenceColumn_ok hown, hkeys, ?_⟩
  dsimp only at h
  split_ifs at h with hdepth
  · cases h
  · obtain ⟨rfl, rfl⟩ := Prod.mk.inj (Except.ok.inj h)
    exact ⟨treeSql_eq foreign own (primaryKeys_ne_nil hkeys), rfl⟩

end Text

section Markers

variable (db : DatabaseType)

@[simp] theorem markers_nil : markers [] = [] := rfl

@[simp] theorem markers_text (text : List Char) (rest : Pieces) : markers (.inl text :: rest) = markers rest := rfl

@[simp] theorem markers_marker (index : ℕ) (rest : Pieces) : markers (.inr index :: rest) = index :: markers rest := rfl

@[simp] theorem markers_append (a b : Pieces) : markers (a ++ b) = markers a ++ markers b := List.filterMap_append

theorem markers_listed (separator : String) (texts : List Pieces) : markers (listed separator texts) = texts.flatMap markers := by
  unfold listed
  rw [Lib.hom_intercalate markers_nil markers_append, markers_text, markers_nil, Lib.intercalate_nil_left, List.flatMap_def]

theorem markers_live (m : NodeModel) (scope : List Char) :
    (if m.softDeleteEnabled then [Test.isNull (.column scope m.deletedAtColumn)] else []).flatMap
      (fun test => markers (test.pieces db)) = [] := by
  cases m.softDeleteEnabled <;> rfl

/-- In the text the parent's marker is before the depth's, and there is no other. -/
theorem markers_walk (m : NodeModel) (table foreign own : List Char) (keys : List (List Char)) :
    markers ((treeWalk m foreign own keys).pieces db table) = [1, 2] := by
  have hitem (scope name : List Char) (aliased : List Char) : markers (itemPieces db (.column scope name, aliased)) = [] := rfl
  have hnone {A : Type} (items : List A) : items.flatMap (fun _ => ([] : List ℕ)) = [] := List.flatMap_eq_nil_iff.2 fun _ _ => rfl
  have hbase : markers ((treeWalk m foreign own keys).base.pieces db table (treeWalk m foreign own keys).walked) = [1] := by
    unfold treeWalk Select.pieces testsPieces
    simp only [markers_text, markers_append, markers_listed, List.flatMap_map, List.flatMap_append, hitem, hnone, List.flatMap_cons,
      markers_live]
    rfl
  have hstep : markers ((treeWalk m foreign own keys).step.pieces db table (treeWalk m foreign own keys).walked) = [2] := by
    unfold treeWalk Select.pieces testsPieces
    simp only [markers_text, markers_append, markers_listed, List.flatMap_map, List.flatMap_append, hitem, hnone, List.flatMap_cons,
      markers_live]
    rfl
  unfold Walk.pieces
  simp only [markers_text, markers_append, hbase, hstep]
  unfold treeWalk testsPieces
  simp only [markers_listed, List.flatMap_map, List.flatMap_append, hitem, List.flatMap_cons]
  simp [Expr.pieces, Test.pieces, lowestPieces, hnone]

end Markers

end TideOrm.TreeQuery
