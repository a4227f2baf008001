import Mathlib.Data.List.ProdSigma
import TideOrm.Sanity.TreeQuery

/-! The recursive query finds the subtree: the live rows that a chain of at most so many links
reaches, each once, in the order of their shortest chains. -/

namespace TideOrm.TreeQuery

open Lib ListCondition

section Cells

variable {T : Type}

/-- The least of integers is one of them. -/
theorem lowest_int {cells : List (Cell T)} (hint : ∀ cell ∈ cells, ∃ n, cell = .int n) (hne : cells ≠ []) :
    ∃ least, Cell.lowest cells = some (.int least) ∧ .int least ∈ cells ∧ ∀ n, .int n ∈ cells → least ≤ n := by
  induction cells with
  | nil => exact absurd rfl hne
  | cons cell cells ih =>
    rw [List.forall_mem_cons] at hint
    obtain ⟨n, rfl⟩ := hint.1
    rcases eq_or_ne cells [] with rfl | hcells
    · exact ⟨n, rfl, List.mem_cons_self, fun k hk => by simpa using (Cell.int.inj (List.mem_singleton.1 hk)).ge⟩
    · obtain ⟨least, hleast, hmem, hle⟩ := ih hint.2 hcells
      refine ⟨min n least, by rw [Cell.lowest, hleast]; rfl, ?_, ?_⟩
      · rcases min_choice n least with h | h
        · rw [h]
          exact List.mem_cons_self
        · rw [h]
          exact List.mem_cons_of_mem _ hmem
      · intro k hk
        rcases List.mem_cons.1 hk with heq | hk
        · exact (min_le_left n least).trans (Cell.int.inj heq).ge
        · exact (min_le_right n least).trans (hle k hk)

theorem add_one {n : ℕ} (h : n + 1 < 2 ^ 31) : (Cell.int n : Cell T).add (.int (1 : ℕ)) = some (.int (n + 1 : ℕ)) := by
  rw [Cell.add, if_pos (by omega), Nat.cast_add]

theorem frame_of_mem {header : List (List Char)} {row : List (Cell T)} (hnodup : header.Nodup) (hlen : header.length ≤ row.length)
    {name : List Char} {cell : Cell T} (hmem : (name, cell) ∈ header.zip row) : frame header row name = some cell :=
  lookup_of_nodup (by rwa [List.map_fst_zip hlen]) hmem

end Cells

section Chain

variable {S T : Type} {engine : Engine S T} {keys : List (List Char)} {Row : Type} {m : NodeModel} {foreign own : List Char}
  {t : NodeTable engine keys Row} {parent : Cell T} {row : Row} {n : ℕ}

theorem Chain.pos (h : Chain m foreign own t parent n row) : 1 ≤ n := by
  cases h with
  | first => exact le_rfl
  | next => exact Nat.le_add_left 1 _

theorem Chain.live (h : Chain m foreign own t parent n row) : t.Live m row := by
  cases h with
  | first hlink => exact hlink.1
  | next _ hlink => exact hlink.1

theorem chain_one_iff : Chain m foreign own t parent 1 row ↔ t.Link m foreign parent row := by
  constructor
  · intro h
    cases h with
    | first hlink => exact hlink
    | next hchain _ => exact absurd hchain.pos (by decide)
  · exact .first

theorem chain_succ_iff (hn : 1 ≤ n) : Chain m foreign own t parent (n + 1) row ↔
    ∃ above, Chain m foreign own t parent n above ∧ t.Link m foreign (t.cell own above) row := by
  constructor
  · intro h
    cases h with
    | first => exact absurd hn (by decide)
    | next hchain hlink => exact ⟨_, hchain, hlink⟩
  · exact fun ⟨_, hchain, hlink⟩ => .next hchain hlink

theorem shortest_chain (h : Chain m foreign own t parent n row) :
    Chain m foreign own t parent (shortest m foreign own t parent row) row :=
  Nat.sInf_mem (s := {n | Chain m foreign own t parent n row}) ⟨n, h⟩

theorem shortest_le (h : Chain m foreign own t parent n row) : shortest m foreign own t parent row ≤ n := Nat.sInf_le h

end Chain

section Rows

variable {S T : Type} {engine : Engine S T} {keys : List (List Char)} {Row : Type} (t : NodeTable engine keys Row)
  (own : List Char)

/-- A row's key. -/
def keyCells (row : Row) : List (Cell T) := keys.map fun key => t.cell key row

/-- A row as the walk has it, at a depth. -/
def walkRow (row : Row) (n : ℕ) : List (Cell T) := keyCells t row ++ [t.cell own row, .int n]

theorem sameKeys_iff {row other : Row} (hrow : row ∈ t.rows) (hother : other ∈ t.rows) :
    sameKeys engine (keyCells t row) (keyCells t other) = true ↔ row = other := by
  have hnull : ∀ key ∈ keys, (t.cell key row).isNull = false := by
    intro key hkey
    have hself := t.key_self row hrow key hkey
    unfold Engine.compare at hself
    cases hcell : (t.cell key row).isNull with
    | false => rfl
    | true => rw [hcell] at hself; cases hself
  unfold sameKeys keyCells
  rw [List.zip_map', List.all_map, List.all_eq_true]
  constructor
  · intro h
    refine t.key_unique row hrow other hother fun key hkey => ?_
    simpa [hnull key hkey] using h key hkey
  · rintro rfl key hkey
    simp [t.key_self row hrow key hkey]

theorem zip_walkRow (row : Row) (n : ℕ) :
    (pkAliases keys.length ++ ["tree_key".toList, "depth".toList]).zip (walkRow t own row n) =
      (pkAliases keys.length).zip (keyCells t row) ++ [("tree_key".toList, t.cell own row), ("depth".toList, .int n)] :=
  List.zip_append (by simp [keyCells, pkAliases])

theorem frame_walkRow {row : Row} {n : ℕ} {name : List Char} {cell : Cell T}
    (hmem : (name, cell) ∈ (pkAliases keys.length).zip (keyCells t row) ++
      [("tree_key".toList, t.cell own row), ("depth".toList, .int n)]) :
    frame (pkAliases keys.length ++ ["tree_key".toList, "depth".toList]) (walkRow t own row n) name = some cell :=
  frame_of_mem (header_nodup _) (by simp [walkRow, keyCells, pkAliases]) (by rwa [zip_walkRow])

/-- The cells of a row's key, beside their aliases. -/
theorem zip_keyCells (row : Row) :
    (keys.zip (pkAliases keys.length)).map (fun key => some (t.cell key.1 row)) = (keyCells t row).map some := by
  have hfirst : (keys.zip (pkAliases keys.length)).map Prod.fst = keys := List.map_fst_zip (by simp [pkAliases])
  have hcells := congrArg (List.map fun key => some (t.cell key row)) hfirst
  rw [List.map_map] at hcells
  rw [keyCells, List.map_map]
  exact hcells

theorem mem_zip_keys {key aliased : List Char} (h : (key, aliased) ∈ keys.zip (pkAliases keys.length)) (row : Row) :
    (aliased, t.cell key row) ∈ (pkAliases keys.length).zip (keyCells t row) := by
  unfold keyCells
  rw [List.zip_map_right, List.mem_map]
  refine ⟨(aliased, key), ?_, rfl⟩
  rw [← List.zip_swap]
  exact List.mem_map_of_mem h

theorem walkRow_inj {row other : Row} {n k : ℕ} (h : walkRow t own row n = walkRow t own other k) :
    keyCells t row = keyCells t other ∧ t.cell own row = t.cell own other ∧ n = k := by
  obtain ⟨hkeys, hrest⟩ := List.append_inj h (by simp [keyCells])
  rw [List.cons.injEq, List.cons.injEq, Cell.int.injEq] at hrest
  exact ⟨hkeys, hrest.1, by exact_mod_cast hrest.2.1⟩

theorem frame_treeKey (row : Row) (n : ℕ) :
    frame (pkAliases keys.length ++ ["tree_key".toList, "depth".toList]) (walkRow t own row n) "tree_key".toList =
      some (t.cell own row) :=
  frame_walkRow t own (List.mem_append_right _ List.mem_cons_self)

theorem frame_depth (row : Row) (n : ℕ) :
    frame (pkAliases keys.length ++ ["tree_key".toList, "depth".toList]) (walkRow t own row n) "depth".toList = some (.int n) :=
  frame_walkRow t own (List.mem_append_right _ (List.mem_cons_of_mem _ List.mem_cons_self))

theorem frame_key {key aliased : List Char} (h : (key, aliased) ∈ keys.zip (pkAliases keys.length)) (row : Row) (n : ℕ) :
    frame (pkAliases keys.length ++ ["tree_key".toList, "depth".toList]) (walkRow t own row n) aliased = some (t.cell key row) :=
  frame_walkRow t own (List.mem_append_left _ (mem_zip_keys t h row))

end Rows

section Evaluation

variable {S T : Type} {engine : Engine S T} {params : List (Value S)} {env : Env T}

theorem hold_nil : hold engine params [] env = some true := rfl

theorem hold_cons {test : Test} {tests : List Test} {truth : Kleene} {rest : Bool} (htest : test.truth engine params env = some truth)
    (hrest : hold engine params tests env = some rest) :
    hold engine params (test :: tests) env = some (truth == some true && rest) := by
  unfold hold at hrest ⊢
  rw [List.mapM_cons, htest]
  cases htruths : tests.mapM fun test => test.truth engine params env with
  | none => rw [htruths] at hrest; cases hrest
  | some truths =>
    rw [htruths] at hrest
    obtain rfl := Option.some.inj hrest
    show some (Kleene.all (truth :: truths) == some true) = some (truth == some true && (Kleene.all truths == some true))
    rw [Option.some_inj, Bool.eq_iff_iff, Bool.and_eq_true, beq_iff_eq, beq_iff_eq, beq_iff_eq, Kleene.all_cons,
      Kleene.and_true_iff]

theorem hold_all {tests : List Test} {truths : List Kleene} (h : tests.map (fun test => test.truth engine params env) = truths.map some) :
    hold engine params tests env = some (truths.all fun truth => truth == some true) := by
  induction tests generalizing truths with
  | nil =>
    obtain rfl : truths = [] := by simpa using h.symm
    rfl
  | cons test tests ih =>
    cases truths with
    | nil => cases h
    | cons truth truths =>
      rw [List.map_cons, List.map_cons, List.cons.injEq] at h
      exact hold_cons h.1 (ih h.2)

theorem evalAll_eq {values : List Expr} {cells : List (Cell T)}
    (h : values.map (fun value => value.eval engine params env) = cells.map some) :
    evalAll engine params values env = some cells := (mapM_some_iff _ _ _).2 h

variable {keys : List (List Char)} {Row : Type} (t : NodeTable engine keys Row) (m : NodeModel)

/-- The columns of a row of the table. -/
def tableFrame (row : Row) : Frame T := fun name => some (t.cell name row)

theorem eval_column {scope name : List Char} {columns : Frame T} {cell : Cell T} (hscope : env.lookup scope = some columns)
    (hname : columns name = some cell) : (Expr.column scope name).eval engine params env = some cell := by
  rw [Expr.eval, hscope]
  exact hname

theorem eval_add {left right : Expr} {a b : Cell T} (hleft : left.eval engine params env = some a)
    (hright : right.eval engine params env = some b) : (Expr.add left right).eval engine params env = a.add b := by
  rw [Expr.eval, hleft, hright]
  rfl

open scoped Classical in
theorem hold_live {scope : List Char} {row : Row} (hscope : env.lookup scope = some (tableFrame t row)) (hrow : row ∈ t.rows) :
    hold engine params (if m.softDeleteEnabled then [Test.isNull (.column scope m.deletedAtColumn)] else []) env =
      some (decide (t.Live m row)) := by
  unfold NodeTable.Live
  cases m.softDeleteEnabled with
  | false => exact hold_nil.trans (congrArg some (by simp [hrow]))
  | true =>
    have htest : (Test.isNull (.column scope m.deletedAtColumn)).truth engine params env =
        some (some (t.cell m.deletedAtColumn row).isNull) := by
      rw [Test.truth, eval_column hscope rfl]
      rfl
    exact (hold_cons htest hold_nil).trans (congrArg some (by simp [hrow]))

open scoped Classical in
theorem link_eq {foreign : List Char} {key : Cell T} {row : Row} :
    (engine.compare (t.cell foreign row) key == some true && decide (t.Live m row)) = decide (t.Link m foreign key row) := by
  rw [Bool.eq_iff_iff, Bool.and_eq_true, beq_iff_eq, decide_eq_true_iff, decide_eq_true_iff]
  exact and_comm

theorem evalAll_selectKeys {scope : List Char} {row : Row} (hscope : env.lookup scope = some (tableFrame t row))
    {own depth : Expr × List Char} {ownCell depthCell : Cell T} (hown : own.1.eval engine params env = some ownCell)
    (hdepth : depth.1.eval engine params env = some depthCell) :
    evalAll engine params (((keys.zip (pkAliases keys.length)).map (fun key => (Expr.column scope key.1, key.2)) ++
      [own, depth]).map Prod.fst) env = some (keyCells t row ++ [ownCell, depthCell]) := by
  have hkeys : (keys.zip (pkAliases keys.length)).map (fun key => (Expr.column scope key.1).eval engine params env) =
      (keyCells t row).map some :=
    (List.map_congr_left fun _ _ => eval_column hscope rfl).trans (zip_keyCells t row)
  refine evalAll_eq ?_
  rw [List.map_append, List.map_append, List.map_append, List.map_map, List.map_map, ← hkeys]
  simp only [List.map_cons, List.map_nil, hown, hdepth]
  rfl

end Evaluation

section Walked

variable {S T : Type} {engine : Engine S T} {keys : List (List Char)} {Row : Type} (t : NodeTable engine keys Row) (m : NodeModel)
  (foreign own : List Char) (parent : Value S) (maxDepth : ℕ)

/-- The rows at a level of the walk. -/
def Level (n : ℕ) (cells : List (Cell T)) : Prop :=
  n ≤ maxDepth ∧ ∃ row, Chain m foreign own t (engine.read parent) n row ∧ cells = walkRow t own row n

theorem base_envs : (treeWalk m foreign own keys).base.envs engine t (treeWalk m foreign own keys).header [] =
    t.rows.map fun row => [("node".toList, tableFrame t row)] := by
  show (t.rows.map (tableFrame t)).flatMap (fun columns => [[("node".toList, columns)]]) = _
  rw [List.flatMap_map]
  exact List.flatMap_pure_eq_map _ _

theorem base_rows (hdepth : 1 ≤ maxDepth) : ∃ rows,
    (treeWalk m foreign own keys).base.rows engine [parent, .bigInt (some maxDepth)] t (treeWalk m foreign own keys).header [] = some rows ∧
      ∀ cells, cells ∈ rows ↔ Level t m foreign own parent maxDepth 1 cells := by
  classical
  have hscope (row : Row) : ([("node".toList, tableFrame t row)] : Env T).lookup "node".toList = some (tableFrame t row) :=
    List.lookup_cons_self
  have htest : ∀ row ∈ t.rows, hold engine [parent, .bigInt (some maxDepth)] (treeWalk m foreign own keys).base.filters
      [("node".toList, tableFrame t row)] = some (decide (t.Link m foreign (engine.read parent) row)) := by
    intro row hrow
    have hequal : (Test.equal (.column "node".toList foreign) (.param 1)).truth engine [parent, .bigInt (some maxDepth)]
        [("node".toList, tableFrame t row)] = some (engine.compare (t.cell foreign row) (engine.read parent)) := by
      rw [Test.truth, eval_column (hscope row) rfl]
      rfl
    exact (hold_cons hequal (hold_live t m (hscope row) hrow)).trans (congrArg some (link_eq t m))
  have hshown : ∀ row ∈ t.rows, evalAll engine [parent, .bigInt (some maxDepth)] ((treeWalk m foreign own keys).base.items.map Prod.fst)
      [("node".toList, tableFrame t row)] = some (walkRow t own row 1) :=
    fun row _ => evalAll_selectKeys t (hscope row) (eval_column (hscope row) rfl) rfl
  refine ⟨_, (congrArg _ (base_envs t m foreign own)).trans ((selected_map _ _).trans
    (selected_eq htest fun row hrow _ => hshown row hrow)), fun cells => ?_⟩
  simp only [List.mem_map, List.mem_filter, decide_eq_true_eq, Level, chain_one_iff, hdepth, true_and]
  constructor
  · rintro ⟨row, ⟨-, hlink⟩, rfl⟩
    exact ⟨row, hlink, rfl⟩
  · rintro ⟨row, hlink, rfl⟩
    exact ⟨row, ⟨hlink.1.1, hlink⟩, rfl⟩

theorem step_envs (rows : List (List (Cell T))) :
    (treeWalk m foreign own keys).step.envs engine t (treeWalk m foreign own keys).header rows =
      (t.rows.flatMap fun row => rows.map fun cells => (row, cells)).map fun joined =>
        [("child".toList, tableFrame t joined.1), ("tree".toList, frame (treeWalk m foreign own keys).header joined.2)] := by
  show (t.rows.map (tableFrame t)).flatMap (fun columns => (rows.map (frame (treeWalk m foreign own keys).header)).map fun second =>
    [("child".toList, columns), ("tree".toList, second)]) = _
  rw [List.flatMap_map, List.map_flatMap]
  simp only [List.map_map]
  rfl

theorem step_rows (hmax : maxDepth < 2 ^ 31) {n : ℕ} (hn : 1 ≤ n) {rows : List (List (Cell T))}
    (hrows : ∀ cells, cells ∈ rows ↔ Level t m foreign own parent maxDepth n cells) : ∃ next,
    (treeWalk m foreign own keys).step.rows engine [parent, .bigInt (some maxDepth)] t (treeWalk m foreign own keys).header rows = some next ∧
      ∀ cells, cells ∈ next ↔ Level t m foreign own parent maxDepth (n + 1) cells := by
  classical
  -- the row of the table is below the row of the last level
  let Below (joined : Row × List (Cell T)) : Prop :=
    n < maxDepth ∧ ∃ above, joined.2 = walkRow t own above n ∧ t.Link m foreign (t.cell own above) joined.1
  let env (joined : Row × List (Cell T)) : Env T :=
    [("child".toList, tableFrame t joined.1), ("tree".toList, frame (treeWalk m foreign own keys).header joined.2)]
  have hchild (joined : Row × List (Cell T)) : (env joined).lookup "child".toList = some (tableFrame t joined.1) :=
    List.lookup_cons_self
  have htree (joined : Row × List (Cell T)) : (env joined).lookup "tree".toList =
      some (frame (treeWalk m foreign own keys).header joined.2) := rfl
  have hdepth (row above : Row) : (Expr.column "tree".toList "depth".toList).eval engine [parent, .bigInt (some maxDepth)]
      (env (row, walkRow t own above n)) = some (.int n) := eval_column (htree _) (frame_depth t own above n)
  have hjoined : ∀ joined ∈ t.rows.flatMap (fun row => rows.map fun cells => (row, cells)),
      joined.1 ∈ t.rows ∧ n ≤ maxDepth ∧ ∃ above, joined.2 = walkRow t own above n := by
    intro joined hjoined
    obtain ⟨row, hrow, hmem⟩ := List.mem_flatMap.1 hjoined
    obtain ⟨cells, hcells, rfl⟩ := List.mem_map.1 hmem
    obtain ⟨hle, above, -, heq⟩ := (hrows cells).1 hcells
    exact ⟨hrow, hle, above, heq⟩
  have htest : ∀ joined ∈ t.rows.flatMap (fun row => rows.map fun cells => (row, cells)),
      hold engine [parent, .bigInt (some maxDepth)]
        ((((treeWalk m foreign own keys).step.join.map Join.on).getD []) ++ (treeWalk m foreign own keys).step.filters) (env joined) =
        some (decide (Below joined)) := by
    rintro ⟨row, cells⟩ hmem
    obtain ⟨hrow, -, above, rfl⟩ := hjoined _ hmem
    have hequal : (Test.equal (.column "child".toList foreign) (.column "tree".toList "tree_key".toList)).truth engine
        [parent, .bigInt (some maxDepth)] (env (row, walkRow t own above n)) =
        some (engine.compare (t.cell foreign row) (t.cell own above)) := by
      rw [Test.truth, eval_column (hchild _) rfl, eval_column (htree (row, walkRow t own above n)) (frame_treeKey t own above n)]
      rfl
    have hless : (Test.less (.column "tree".toList "depth".toList) (.param 2)).truth engine
        [parent, .bigInt (some maxDepth)] (env (row, walkRow t own above n)) = some (some (decide (n < maxDepth))) := by
      rw [Test.truth, hdepth, Expr.eval]
      show (Cell.int (n : ℤ)).less (engine.read (.bigInt (some (maxDepth : ℤ)))) = _
      rw [engine.read_bigInt]
      simp [Cell.less]
    refine (hold_cons hequal (hold_cons hless (hold_live t m (hchild _) hrow))).trans (congrArg some ?_)
    rw [Bool.and_left_comm, link_eq, Bool.eq_iff_iff]
    simp only [Bool.and_eq_true, beq_iff_eq, Option.some_inj, decide_eq_true_iff, Below]
    refine and_congr_right fun _ => ⟨fun hlink => ⟨above, rfl, hlink⟩, ?_⟩
    rintro ⟨other, heq, hlink⟩
    rwa [(walkRow_inj t own heq).2.1]
  have hshown : ∀ joined ∈ t.rows.flatMap (fun row => rows.map fun cells => (row, cells)), decide (Below joined) = true →
      evalAll engine [parent, .bigInt (some maxDepth)] ((treeWalk m foreign own keys).step.items.map Prod.fst) (env joined) =
        some (walkRow t own joined.1 (n + 1)) := by
    rintro ⟨row, cells⟩ hmem hbelow
    obtain ⟨hrow, -, above, rfl⟩ := hjoined _ hmem
    have hlt := (of_decide_eq_true hbelow).1
    refine evalAll_selectKeys t (hchild _) (eval_column (hchild _) rfl) ?_
    exact (eval_add (hdepth row above) rfl).trans (add_one (lt_of_le_of_lt hlt hmax))
  refine ⟨_, (congrArg _ (step_envs t m foreign own rows)).trans ((selected_map _ _).trans (selected_eq htest hshown)), fun cells => ?_⟩
  simp only [List.mem_map, List.mem_filter, List.mem_flatMap, decide_eq_true_eq]
  constructor
  · rintro ⟨joined, ⟨⟨row, hrow, last, hlast, rfl⟩, hlt, above, hcells, hlink⟩, rfl⟩
    obtain ⟨-, reached, hchain, hreached⟩ := (hrows last).1 hlast
    have hown := (walkRow_inj t own (hreached.symm.trans hcells)).2.1
    exact ⟨hlt, row, .next hchain (hown ▸ hlink), rfl⟩
  · rintro ⟨hle, row, hchain, rfl⟩
    obtain ⟨above, habove, hlink⟩ := (chain_succ_iff hn).1 hchain
    have hlast := (hrows (walkRow t own above n)).2 ⟨by omega, above, habove, rfl⟩
    exact ⟨(row, walkRow t own above n), ⟨⟨row, hlink.1.1, _, hlast, rfl⟩, by omega, above, rfl, hlink⟩, rfl⟩

theorem length_items {A : Type} (items : List Char × List Char → A) (last : List A) (names : List (List Char)) (h : last.length = names.length := by rfl) :
    ((keys.zip (pkAliases keys.length)).map items ++ last).length = (pkAliases keys.length ++ names).length := by
  simp [pkAliases, h]

/-- The walk ends, with the rows of all levels. -/
theorem walk_rows (hname : m.schemaName = none → engine.sameName m.tableName "tide_tree".toList = false) (hdepth : 1 ≤ maxDepth) (hmax : maxDepth < 2 ^ 31)
    {fuel : ℕ} (hfuel : maxDepth ≤ fuel) : ∃ rows, (treeWalk m foreign own keys).rows [parent, .bigInt (some maxDepth)] t fuel = some rows ∧
      ∀ cells, cells ∈ rows ↔ ∃ n, Level t m foreign own parent maxDepth (n + 1) cells := by
  obtain ⟨first, hfirst, hbase⟩ := base_rows t m foreign own parent maxDepth hdepth
  have hprev : ∀ n cells, Level t m foreign own parent maxDepth (n + 1 + 1) cells →
      ∃ above, Level t m foreign own parent maxDepth (n + 1) above := by
    rintro n cells ⟨hle, row, hchain, -⟩
    obtain ⟨above, habove, -⟩ := (chain_succ_iff (Nat.le_add_left 1 n)).1 hchain
    exact ⟨_, (Nat.le_succ _).trans hle, above, habove, rfl⟩
  have hlast : ∀ n cells, Level t m foreign own parent maxDepth (n + 1) cells → n ≤ maxDepth - 1 :=
    fun n cells h => Nat.le_sub_one_of_lt h.1
  obtain ⟨rows, hrows, hmem⟩ := @repeated_levels _ _ (fun n => Level t m foreign own parent maxDepth (n + 1)) _
    (fun n rows => step_rows t m foreign own parent maxDepth hmax (Nat.le_add_left 1 n)) hprev hlast fuel 0 first (by omega) hbase
  refine ⟨rows, ?_, fun cells => (hmem cells).trans ⟨fun ⟨n, _, h⟩ => ⟨n, h⟩, fun ⟨n, h⟩ => ⟨n, n.zero_le, h⟩⟩⟩
  have hhides : ¬(treeWalk m foreign own keys).Hides engine := fun h => absurd (hname h.1) (ne_false_of_eq_true h.2)
  have hlengths : ¬(treeWalk m foreign own keys).Hides engine ∧ (treeWalk m foreign own keys).header.Nodup ∧
      (treeWalk m foreign own keys).base.items.length = (treeWalk m foreign own keys).header.length ∧
      (treeWalk m foreign own keys).step.items.length = (treeWalk m foreign own keys).header.length :=
    ⟨hhides, header_nodup _, length_items _ _ _, length_items _ _ _⟩
  rw [Walk.rows, if_pos hlengths, hfirst]
  exact hrows

end Walked

section Grouped

variable {S T : Type} {engine : Engine S T} (params : List (Value S)) {keys : List (List Char)} {Row : Type}
  (t : NodeTable engine keys Row) (m : NodeModel) (foreign own : List Char)

/-- A walked row under the aliases of its key. -/
theorem evalAll_aliases (row : Row) (n : ℕ) : evalAll engine params
    ((pkAliases keys.length).map fun aliased => Expr.column "tide_tree".toList aliased)
    [("tide_tree".toList, frame (treeWalk m foreign own keys).header (walkRow t own row n))] = some (keyCells t row) := by
  refine evalAll_eq ?_
  have hsecond : (keys.zip (pkAliases keys.length)).map Prod.snd = pkAliases keys.length := List.map_snd_zip (by simp [pkAliases])
  rw [← zip_keyCells, List.map_map]
  conv_lhs => rw [← hsecond]
  rw [List.map_map]
  refine List.map_congr_left fun key hkey => ?_
  simp only [Function.comp_apply]
  exact eval_column List.lookup_cons_self (frame_key t own hkey row n)

/-- The walked rows under their keys. -/
theorem keyed_rows {rows : List (List (Cell T))} (hrows : ∀ cells ∈ rows, ∃ row n, cells = walkRow t own row n) :
    rows.mapM (fun cells => (evalAll engine params (treeWalk m foreign own keys).groupBy
        [((treeWalk m foreign own keys).walked, frame (treeWalk m foreign own keys).header cells)]).map fun key => (key, cells)) =
      some (rows.map fun cells => (cells.take keys.length, cells)) := by
  rw [mapM_some_iff, List.map_map]
  refine List.map_congr_left fun cells hcells => ?_
  obtain ⟨row, n, rfl⟩ := hrows cells hcells
  have hkey : (walkRow t own row n).take keys.length = keyCells t row := List.take_left' (by simp [keyCells])
  have heval := evalAll_aliases params t m foreign own row n
  simp only [Function.comp_apply, hkey]
  exact congrArg (Option.map _) heval

/-- What is shown of a group: its key and the least of its depths. -/
theorem groupRow_eq {members : List (List (Cell T) × List (Cell T))} {row : Row} {n : ℕ} (parent : Cell T)
    (hdepths : ∀ pair ∈ members, ∃ k, Chain m foreign own t parent k row ∧ pair.2 = walkRow t own row k)
    (hshortest : ∃ pair ∈ members, pair.2 = walkRow t own row (shortest m foreign own t parent row)) :
    (do
      let shown ← evalAll engine params ((treeWalk m foreign own keys).grouped.map Prod.fst)
        [((treeWalk m foreign own keys).walked, frame (treeWalk m foreign own keys).header (walkRow t own row n))]
      let depths ← members.mapM fun pair => (treeWalk m foreign own keys).lowest.1.eval engine params
        [((treeWalk m foreign own keys).walked, frame (treeWalk m foreign own keys).header pair.2)]
      return shown ++ [← Cell.lowest depths]) =
      some (keyCells t row ++ [.int (shortest m foreign own t parent row)]) := by
  have hshown : evalAll engine params ((treeWalk m foreign own keys).grouped.map Prod.fst)
      [((treeWalk m foreign own keys).walked, frame (treeWalk m foreign own keys).header (walkRow t own row n))] =
      some (keyCells t row) := by
    refine Eq.trans (congrArg (fun values => evalAll engine params values _) ?_) (evalAll_aliases params t m foreign own row n)
    exact List.map_map
  have heval (k : ℕ) : (treeWalk m foreign own keys).lowest.1.eval engine params
      [((treeWalk m foreign own keys).walked, frame (treeWalk m foreign own keys).header (walkRow t own row k))] = some (.int k) :=
    eval_column List.lookup_cons_self (frame_depth t own row k)
  obtain ⟨depths, hmapM, hmem⟩ := mapM_some_of_forall (l := members) (f := fun pair => (treeWalk m foreign own keys).lowest.1.eval engine params
      [((treeWalk m foreign own keys).walked, frame (treeWalk m foreign own keys).header pair.2)]) (fun pair hpair => by
    obtain ⟨k, -, hk⟩ := hdepths pair hpair
    exact ⟨.int k, by rw [hk]; exact heval k⟩)
  have hint : ∀ cell ∈ depths, ∃ k, Chain m foreign own t parent k row ∧ cell = .int k := by
    intro cell hcell
    obtain ⟨pair, hpair, hcell⟩ := (hmem cell).1 hcell
    obtain ⟨k, hchain, hk⟩ := hdepths pair hpair
    rw [hk, heval] at hcell
    exact ⟨k, hchain, (Option.some.inj hcell).symm⟩
  have hleast : .int (shortest m foreign own t parent row) ∈ depths := by
    obtain ⟨pair, hpair, hk⟩ := hshortest
    exact (hmem _).2 ⟨pair, hpair, by rw [hk]; exact heval _⟩
  obtain ⟨least, hlowest, hin, hle⟩ := lowest_int (fun cell hcell => (hint cell hcell).imp' _ fun _ h => h.2) (List.ne_nil_of_mem hleast)
  have heq : least = (shortest m foreign own t parent row : ℤ) := by
    obtain ⟨k, hchain, hk⟩ := hint _ hin
    have hle' := hle _ hleast
    have hge := shortest_le hchain
    rw [Cell.int.injEq] at hk
    omega
  rw [hshown, hmapM]
  show (do return keyCells t row ++ [← Cell.lowest depths]) = _
  rw [hlowest, heq]
  rfl

/-- The rows of the groups: one for each row that a chain reaches, with its shortest. -/
theorem group_rows (parent : Value S) (maxDepth : ℕ) {rows : List (List (Cell T))}
    (hrows : ∀ cells, cells ∈ rows ↔ ∃ n, Level t m foreign own parent maxDepth (n + 1) cells) :
    ∃ reached : List Row, reached.Nodup ∧
      (∀ row, row ∈ reached ↔ ∃ n ≤ maxDepth, Chain m foreign own t (engine.read parent) n row) ∧
      (treeWalk m foreign own keys).groupRows params engine rows =
        some (reached.map fun row => keyCells t row ++ [.int (shortest m foreign own t (engine.read parent) row)]) := by
  let Of (pair : List (Cell T) × List (Cell T)) (row : Row) : Prop :=
    ∃ n ≤ maxDepth, Chain m foreign own t (engine.read parent) n row ∧ pair = (keyCells t row, walkRow t own row n)
  have hlevel : ∀ n row, n ≤ maxDepth → Chain m foreign own t (engine.read parent) n row → walkRow t own row n ∈ rows := by
    intro n row hn hchain
    obtain ⟨k, rfl⟩ := Nat.exists_eq_succ_of_ne_zero (Nat.ne_of_gt hchain.pos)
    exact (hrows _).2 ⟨k, hn, row, hchain, rfl⟩
  have htake (row : Row) (n : ℕ) : (walkRow t own row n).take keys.length = keyCells t row := List.take_left' (by simp [keyCells])
  have hpairs : ∀ pair row, Of pair row → pair ∈ rows.map fun cells => (cells.take keys.length, cells) := by
    rintro pair row ⟨n, hn, hchain, rfl⟩
    exact List.mem_map.2 ⟨_, hlevel n row hn hchain, by rw [htake]⟩
  have hkey : ∀ pair ∈ rows.map fun cells => (cells.take keys.length, cells), ∃ row, Of pair row := by
    intro pair hpair
    obtain ⟨cells, hcells, rfl⟩ := List.mem_map.1 hpair
    obtain ⟨n, hn, row, hchain, rfl⟩ := (hrows cells).1 hcells
    exact ⟨row, n + 1, hn, hchain, by rw [htake]⟩
  obtain ⟨reached, hnodup, hmem, hgroups⟩ := @groups_keys _ _ (fun a b => sameKeys engine a.1 b.1) Of _ hkey (by
    rintro a - b - row other ⟨n, -, hrow, rfl⟩ ⟨k, -, hother, rfl⟩
    exact sameKeys_iff t hrow.live.1 hother.live.1)
  refine ⟨reached, hnodup, fun row => (hmem row).trans ?_, ?_⟩
  · constructor
    · rintro ⟨pair, -, n, hn, hchain, -⟩
      exact ⟨n, hn, hchain⟩
    · rintro ⟨n, hn, hchain⟩
      exact ⟨_, hpairs _ row ⟨n, hn, hchain, rfl⟩, n, hn, hchain, rfl⟩
  · have hkeyed := keyed_rows params t m foreign own fun cells hcells => by
      obtain ⟨n, -, row, -, heq⟩ := (hrows cells).1 hcells
      exact ⟨row, n + 1, heq⟩
    unfold Walk.groupRows
    refine (congrArg (fun keyed => keyed >>= _) hkeyed).trans ((mapM_some_iff _ _ _).2 ?_)
    rw [List.map_map]
    refine map_eq_of_forall₂ hgroups ?_
    rintro ⟨first, members⟩ row ⟨⟨n, hn, hchain, rfl⟩, hmembers⟩
    refine groupRow_eq params t m foreign own (engine.read parent) ?_ ?_
    · intro pair hpair
      obtain ⟨-, k, -, hk, rfl⟩ := (hmembers pair).1 hpair
      exact ⟨k, hk, rfl⟩
    · have hshort := (shortest_le hchain).trans hn
      have hof : Of (keyCells t row, walkRow t own row (shortest m foreign own t (engine.read parent) row)) row :=
        ⟨_, hshort, shortest_chain hchain, rfl⟩
      exact ⟨_, (hmembers _).2 ⟨hpairs _ row hof, hof⟩, rfl⟩

end Grouped

section Found

variable {S T : Type} {engine : Engine S T} (params : List (Value S)) {keys : List (List Char)} {Row : Type}
  (t : NodeTable engine keys Row) (m : NodeModel) (foreign own : List Char)

/-- A group's row: a key and a depth. -/
theorem frame_groupRow {row : Row} (depth : ℕ) {name : List Char} {cell : Cell T}
    (hmem : (name, cell) ∈ (pkAliases keys.length).zip (keyCells t row) ++ [("depth".toList, .int depth)]) :
    frame (pkAliases keys.length ++ ["depth".toList]) (keyCells t row ++ [.int depth]) name = some cell := by
  have hnodup : (pkAliases keys.length ++ ["depth".toList]).Nodup :=
    (header_nodup keys.length).sublist (List.Sublist.append_left (List.sublist_cons_self _ _) _)
  refine frame_of_mem hnodup (by simp [keyCells, pkAliases]) ?_
  rwa [List.zip_append (by simp [keyCells, pkAliases])]

/-- The join holds of a row of the table and the group of the same row. -/
theorem hold_on {env : Env T} {row other : Row} {depth : ℕ} (hrow : row ∈ t.rows) (hother : other ∈ t.rows)
    (hnode : env.lookup "result_node".toList = some (tableFrame t row))
    (htree : env.lookup "result_tree".toList = some (frame (pkAliases keys.length ++ ["depth".toList]) (keyCells t other ++ [.int depth]))) :
    ∃ b, hold engine params (treeWalk m foreign own keys).on env = some b ∧ (b = true ↔ row = other) := by
  have hfirst : (keys.zip (pkAliases keys.length)).map Prod.fst = keys := List.map_fst_zip (by simp [pkAliases])
  have htruth : ∀ key ∈ keys.zip (pkAliases keys.length),
      (Test.equal (.column "result_node".toList key.1) (.column "result_tree".toList key.2)).truth engine params env =
        some (engine.compare (t.cell key.1 row) (t.cell key.1 other)) := by
    intro key hkey
    have hframe := frame_groupRow t depth (List.mem_append_left _ (mem_zip_keys t hkey other))
    rw [Test.truth, eval_column hnode rfl, eval_column htree hframe]
    rfl
  have htruths : (treeWalk m foreign own keys).on.map (fun test => test.truth engine params env) =
      (keys.map fun key => engine.compare (t.cell key row) (t.cell key other)).map some := by
    have hcells := congrArg (List.map fun key => some (engine.compare (t.cell key row) (t.cell key other))) hfirst
    rw [List.map_map] at hcells
    exact List.map_map.trans ((List.map_congr_left htruth).trans (hcells.trans List.map_map.symm))
  refine ⟨_, hold_all htruths, ?_⟩
  rw [List.all_map, List.all_eq_true]
  constructor
  · exact fun h => t.key_unique row hrow other hother fun key hkey => by simpa using h key hkey
  · rintro rfl key hkey
    simpa using t.key_self row hrow key hkey

/-- The rows that are found, with their columns and the lengths of their shortest chains. -/
theorem found_rows (hname : m.schemaName = none → engine.sameName m.tableName "tide_tree".toList = false) (parent : Value S)
    {maxDepth fuel : ℕ} (hdepth : 1 ≤ maxDepth) (hmax : maxDepth < 2 ^ 31)
    (hfuel : maxDepth ≤ fuel) : ∃ found : List Row, found.Nodup ∧
      (∀ row, row ∈ found ↔ ∃ n ≤ maxDepth, Chain m foreign own t (engine.read parent) n row) ∧
      (treeWalk m foreign own keys).found [parent, .bigInt (some maxDepth)] t fuel =
        some (found.map fun row =>
          (m.columnNames.map fun column => t.cell column row, .int (shortest m foreign own t (engine.read parent) row))) := by
  classical
  obtain ⟨rows, hrows, hlevels⟩ := walk_rows t m foreign own parent maxDepth hname hdepth hmax hfuel
  obtain ⟨reached, hnodup, hmem, hgroups⟩ := group_rows [parent, .bigInt (some maxDepth)] t m foreign own parent maxDepth hlevels
  let depth (row : Row) : ℕ := shortest m foreign own t (engine.read parent) row
  let env (joined : Row × Row) : Env T := [("result_node".toList, tableFrame t joined.1),
    ("result_tree".toList, frame (pkAliases keys.length ++ ["depth".toList]) (keyCells t joined.2 ++ [.int (depth joined.2)]))]
  have hlive : ∀ row ∈ reached, row ∈ t.rows := by
    intro row hrow
    obtain ⟨n, -, hchain⟩ := (hmem row).1 hrow
    exact hchain.live.1
  have htest : ∀ joined ∈ t.rows ×ˢ reached, hold engine [parent, .bigInt (some maxDepth)] (treeWalk m foreign own keys).on
      (env joined) = some (decide (joined.1 = joined.2)) := by
    intro joined hjoined
    obtain ⟨hrow, hother⟩ := List.mem_product.1 hjoined
    have hnode : (env joined).lookup "result_node".toList = some (tableFrame t joined.1) := List.lookup_cons_self
    obtain ⟨b, hb, hiff⟩ := hold_on [parent, .bigInt (some maxDepth)] t m foreign own hrow (hlive _ hother) hnode rfl
    rw [hb, Option.some_inj, Bool.eq_iff_iff, hiff, decide_eq_true_iff]
  refine ⟨((t.rows ×ˢ reached).filter fun joined => joined.1 = joined.2).map Prod.fst, ?_, ?_, ?_⟩
  · refine (List.Nodup.filter _ (t.rows_nodup.product hnodup)).map_on ?_
    rintro ⟨a, b⟩ hab ⟨c, d⟩ hcd (rfl : a = c)
    have h1 := (List.mem_filter.1 hab).2
    have h2 := (List.mem_filter.1 hcd).2
    simp only [decide_eq_true_eq] at h1 h2
    rw [← h1, ← h2]
  · intro row
    rw [← hmem, List.mem_map]
    constructor
    · rintro ⟨⟨a, b⟩, hab, rfl⟩
      obtain ⟨hin, heq⟩ := List.mem_filter.1 hab
      obtain rfl : a = b := of_decide_eq_true heq
      exact (List.mem_product.1 hin).2
    · exact fun hrow => ⟨(row, row), List.mem_filter.2 ⟨List.mem_product.2 ⟨hlive row hrow, hrow⟩, decide_eq_true rfl⟩, rfl⟩
  · have henvs : (t.rows.flatMap fun row => (reached.map fun row => keyCells t row ++ [.int (depth row)]).map fun group =>
        [("result_node".toList, tableFrame t row), ("result_tree".toList, frame (pkAliases keys.length ++ ["depth".toList]) group)]) =
        (t.rows ×ˢ reached).map env := by
      show _ = (t.rows.flatMap fun row => reached.map (Prod.mk row)).map env
      rw [List.map_flatMap]
      simp only [List.map_map]
      rfl
    have hheader : (treeWalk m foreign own keys).grouped.map Prod.snd ++ [(treeWalk m foreign own keys).lowest.2] =
        pkAliases keys.length ++ ["depth".toList] := by
      show ((pkAliases keys.length).map fun aliased => (Expr.column "tide_tree".toList aliased, aliased)).map Prod.snd ++ _ = _
      rw [List.map_map]
      exact congrArg (· ++ _) (List.map_id _)
    have hshown : ∀ joined ∈ t.rows ×ˢ reached, (do
        let columns ← evalAll engine [parent, .bigInt (some maxDepth)] (treeWalk m foreign own keys).columns (env joined)
        return (columns, ← (treeWalk m foreign own keys).orderBy.eval engine [parent, .bigInt (some maxDepth)] (env joined))) =
        some (m.columnNames.map fun column => t.cell column joined.1, Cell.int (depth joined.2)) := by
      intro joined _
      have hcolumns : evalAll engine [parent, .bigInt (some maxDepth)] (treeWalk m foreign own keys).columns (env joined) =
          some (m.columnNames.map fun column => t.cell column joined.1) := by
        refine evalAll_eq ?_
        show (m.columnNames.map fun column => Expr.column "result_node".toList column).map _ = _
        rw [List.map_map, List.map_map]
        refine List.map_congr_left fun column _ => ?_
        simp only [Function.comp_apply]
        exact eval_column List.lookup_cons_self rfl
      have horder : (treeWalk m foreign own keys).orderBy.eval engine [parent, .bigInt (some maxDepth)] (env joined) =
          some (Cell.int (depth joined.2)) :=
        eval_column rfl (frame_groupRow t _ (List.mem_append_right _ List.mem_cons_self))
      rw [hcolumns]
      show (do return (_, ← (treeWalk m foreign own keys).orderBy.eval engine _ (env joined))) = _
      rw [horder]
      rfl
    rw [Walk.found, hrows]
    refine (congrArg (fun rows => rows >>= _) hgroups).trans ?_
    rw [hheader]
    refine (congrArg _ henvs).trans ((selected_map _ _).trans ((selected_eq htest fun joined hjoined _ => hshown joined hjoined).trans ?_))
    rw [List.map_map]
    refine congrArg some (List.map_congr_left fun joined hjoined => ?_)
    obtain ⟨-, heq⟩ := List.mem_filter.1 hjoined
    show (_, Cell.int (depth joined.2 : ℤ)) = (_, Cell.int (depth joined.1 : ℤ))
    rw [of_decide_eq_true heq]

end Found

section Subtree

variable {S T : Type} {lib : Libraries S} {db : DatabaseType} {m : NodeModel}

theorem loadTree_asks {foreignKey localKey : List Char} {key : Option Json} {maxDepth : ℕ} {query : List Char × List (Value S)}
    (h : loadTree db m lib foreignKey localKey key maxDepth = .ok (some query)) :
    1 ≤ maxDepth ∧ ∃ parent, key = some parent ∧
      buildSelfRefTreeSql db m lib foreignKey localKey parent maxDepth = .ok query := by
  unfold loadTree at h
  split_ifs at h with hzero
  · cases h
  obtain ⟨parent, hparent, h⟩ := bind_eq_ok h
  obtain ⟨built, hbuilt, h⟩ := bind_eq_ok h
  obtain rfl := Option.some.inj (Except.ok.inj h)
  refine ⟨Nat.one_le_iff_ne_zero.2 hzero, parent, ?_, hbuilt⟩
  cases key with
  | none => cases hparent
  | some key =>
    cases key <;> first | exact congrArg some (Except.ok.inj hparent) | cases hparent

/-- An order of the rows that are found is one of the subtree's. -/
theorem answer_subtree {engine : Engine S T} {keys : List (List Char)} {Row : Type} {t : NodeTable engine keys Row} {foreign own : List Char}
    {parent : Value S} {maxDepth fuel : ℕ} (hname : m.schemaName = none → engine.sameName m.tableName "tide_tree".toList = false)
    (hdepth : 1 ≤ maxDepth) (hmax : maxDepth < 2 ^ 31) (hfuel : maxDepth ≤ fuel) {out : List (List (Cell T))} (h : (treeWalk m foreign own keys).Answer [parent, .bigInt (some maxDepth)] t fuel out) :
    ∃ rows : List Row, out = (rows.map fun row => m.columnNames.map fun column => t.cell column row) ∧
      IsSubtree m foreign own t (engine.read parent) maxDepth rows := by
  obtain ⟨found, hnodup, hmem, hfound⟩ := found_rows t m foreign own hname parent hdepth hmax hfuel
  obtain ⟨all, sorted, hall, hperm, hsorted, rfl⟩ := h
  obtain rfl := Option.some.inj (hfound.symm.trans hall)
  obtain ⟨rows, hforall, hrows⟩ := List.perm_comp_forall₂ (r := fun shown row => shown =
    (m.columnNames.map fun column => t.cell column row, Cell.int (shortest m foreign own t (engine.read parent) row))) hperm
      (List.forall₂_map_left_iff.2 (List.forall₂_same.2 fun _ _ => rfl))
  have hsortedRows := map_eq_of_forall₂ hforall (f := id) (fun _ _ heq => heq)
  rw [List.map_id] at hsortedRows
  subst hsortedRows
  refine ⟨rows, List.map_map, hrows.nodup_iff.2 hnodup, fun row => ?_, ?_⟩
  · rw [hrows.mem_iff, hmem]
    exact ⟨fun ⟨n, hn, hchain⟩ => ⟨n, hchain.pos, hn, hchain⟩, fun ⟨n, _, hn, hchain⟩ => ⟨n, hn, hchain⟩⟩
  · refine (List.pairwise_map.1 hsorted).imp fun {a b} hbefore => ?_
    have hle : (shortest m foreign own t (engine.read parent) a : ℤ) ≤ shortest m foreign own t (engine.read parent) b := hbefore
    exact_mod_cast hle

/-- The query that `load_tree` asks binds the parent's key and the depth, whose markers are in
that order in its text. On a table whose name is not the walk's own it ends, and whatever it
answers is the subtree. -/
theorem loadTree_subtree {foreignKey localKey sql : List Char} {key : Option Json} {maxDepth : ℕ} {params : List (Value S)}
    (h : loadTree db m lib foreignKey localKey key maxDepth = .ok (some (sql, params))) (hmax : maxDepth < 2 ^ 31) :
    ∃ parent foreign own keys, key = some parent ∧ m.canonicalColumnName foreignKey = some foreign ∧
      m.canonicalColumnName localKey = some own ∧ m.primaryKeys = .ok keys ∧
      sql = written db ((treeWalk m foreign own keys).pieces db (quoteTable db m)) ∧
      markers ((treeWalk m foreign own keys).pieces db (quoteTable db m)) = [1, 2] ∧
      params = [jsonToColumnValue lib parent (m.columnTypeOf foreign), .bigInt (some maxDepth)] ∧
      ∀ (engine : Engine S T) (Row : Type) (t : NodeTable engine keys Row) (fuel : ℕ),
        (m.schemaName = none → engine.sameName m.tableName "tide_tree".toList = false) → maxDepth ≤ fuel →
        ((treeWalk m foreign own keys).found params t fuel).isSome ∧
        ∀ out, (treeWalk m foreign own keys).Answer params t fuel out →
          ∃ rows : List Row, out = (rows.map fun row => m.columnNames.map fun column => t.cell column row) ∧
            IsSubtree m foreign own t (engine.read (jsonToColumnValue lib parent (m.columnTypeOf foreign))) maxDepth rows := by
  obtain ⟨hdepth, parent, rfl, hbuilt⟩ := loadTree_asks h
  obtain ⟨foreign, own, keys, hforeign, hown, hkeys, hsql, rfl⟩ := build_written hbuilt
  refine ⟨parent, foreign, own, keys, rfl, hforeign, hown, hkeys, hsql, markers_walk db m _ foreign own keys, rfl, ?_⟩
  intro engine Row t fuel hname hfuel
  obtain ⟨found, -, -, hfound⟩ := found_rows t m foreign own hname (jsonToColumnValue lib parent (m.columnTypeOf foreign)) hdepth hmax hfuel
  exact ⟨Option.isSome_iff_exists.2 ⟨_, hfound⟩, fun out => answer_subtree hname hdepth hmax hfuel⟩

end Subtree

section Cycle

def treeLibraries : Libraries Unit where
  parse _ _ := none
  decimalOfUnsigned _ := ()
  parseDouble _ := none
  doubleOfInteger _ := 0
  numberText _ := ""
  documentText _ := ""
  listText _ := ""
  arrayType _ := .string

def integers : Engine Unit Unit where
  read value := if value.isNull then .null else
    match value with
    | .bigInt (some n) => .int n
    | _ => .other ()
  read_null _ h := if_pos h
  read_bigInt _ := rfl
  equal a b :=
    match a, b with
    | .int a, .int b => a == b
    | _, _ => false
  sameName a b := a == b

def nodes : NodeModel where
  schemaName := none
  tableName := "nodes".toList
  fieldNames := ["id".toList, "parent".toList]
  columnNames := ["id".toList, "parent_id".toList]
  primaryKeyName := "id".toList
  primaryKeyNames := ["id".toList]
  softDeleteEnabled := false
  deletedAtColumn := "deleted_at".toList
  columnFromStr _ := some .bigInteger

/-- The rows 1 and 2, each under the other. -/
def cycle : NodeTable integers ["id".toList] Bool where
  rows := [false, true]
  cell name row := if name = "id".toList then .int (if row then 2 else 1) else .int (if row then 1 else 2)
  rows_nodup := by decide
  key_self := by decide
  key_unique := by decide

/-- On a cycle each row is found once, the parent's child before the parent itself. -/
theorem loadTree_subtree_cycle : ∃ sql params,
    loadTree .postgres nodes treeLibraries "parent".toList "id".toList (some (.number (.posInt 1))) 3 = .ok (some (sql, params)) ∧
      ∃ rows, IsSubtree nodes "parent_id".toList "id".toList cycle (.int 1) 3 rows := by
  refine ⟨_, _, rfl, ?_⟩
  have hasks : loadTree .postgres nodes treeLibraries "parent".toList "id".toList (some (.number (.posInt 1))) 3 = .ok (some (_, _)) := rfl
  obtain ⟨parent, foreign, own, keys, hparent, hforeign, hown, hkeys, -, -, -, hanswers⟩ := loadTree_subtree (T := Unit) hasks (by decide)
  obtain rfl := Option.some.inj hparent
  obtain rfl : "parent_id".toList = foreign := Option.some.inj hforeign
  obtain rfl : "id".toList = own := Option.some.inj hown
  obtain rfl : ["id".toList] = keys := Except.ok.inj hkeys
  obtain ⟨rows, -, hrows⟩ := (hanswers integers Bool cycle 3 (fun _ => by decide) le_rfl).2 _ ⟨_, [(_, .int 1), (_, .int 2)], rfl, List.Perm.swap _ _ _, by simp [Cell.Before], rfl⟩
  exact ⟨rows, hrows⟩

end Cycle

end TideOrm.TreeQuery
