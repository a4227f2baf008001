import Mathlib.Order.Lattice.Nat
import TideOrm.Lib.Recursion
import TideOrm.Spec.Error
import TideOrm.Spec.ListCondition
import TideOrm.Spec.ModelMeta

/-! The recursive query that walks a self-referencing tree (`relations/helpers.rs`,
`relations/self_referencing.rs`): the text it is rendered as, the query that text writes, and
what a database makes of it. -/

namespace TideOrm.TreeQuery

open Lib ListCondition Sqlite

/-- A model whose rows point at rows of the same table. -/
structure NodeModel extends ModelMeta where
  primaryKeyName : List Char
  primaryKeyNames : List (List Char)
  softDeleteEnabled : Bool
  deletedAtColumn : List Char
  -- the type of one of the model's own columns
  columnFromStr : List Char → Option ListCondition.ColumnType

def NodeModel.columnTypeOf (m : NodeModel) (column : List Char) : Option ListCondition.ColumnType :=
  (m.ownColumnName column).bind m.columnFromStr

def NodeModel.selfReferenceColumn (m : NodeModel) (name : List Char) : Except Error (List Char) :=
  match m.canonicalColumnName name with
  | some column => .ok column
  | none => .error (.query ("Unknown self-reference column '" ++ String.ofList name ++ "' for table '" ++
      String.ofList m.tableName ++ "'"))

def NodeModel.primaryKeys (m : NodeModel) : Except Error (List (List Char)) :=
  match m.primaryKeyNames with
  | [] => (m.selfReferenceColumn m.primaryKeyName).map fun column => [column]
  | name :: names => (name :: names).mapM m.selfReferenceColumn

/-- The names of the walk's key columns: `pk`, `pk_2` and so on. -/
def pkAlias (position : ℕ) : List Char := if position = 1 then "pk".toList else "pk_".toList ++ decimal position

def pkAliases (count : ℕ) : List (List Char) := (List.range' 1 count).map pkAlias

section Text

variable (db : DatabaseType) (m : NodeModel)

def scopedColumn (scope column : List Char) : List Char := quoteIdent db scope ++ '.' :: quoteIdent db column

/-- The test of the model's deleted-at column; trashed rows have one that is not NULL. -/
def softDeleteClause (scope : Option (List Char)) (trashed : Bool) : Option (List Char) :=
  if m.softDeleteEnabled then
    let column := match scope with
      | some scope => scopedColumn db scope m.deletedAtColumn
      | none => quoteIdent db m.deletedAtColumn
    some (column ++ ' ' :: (if trashed then "IS NOT NULL" else "IS NULL").toList)
  else none

def quoteTable : List Char :=
  match m.schemaName with
  | some schema => quoteIdent db schema ++ '.' :: quoteIdent db m.tableName
  | none => quoteIdent db m.tableName

def modelColumnsSql (qualifier : Option (List Char)) : List Char :=
  ", ".toList.intercalate (m.columnNames.map fun column =>
    match qualifier with
    | some qualifier => scopedColumn db qualifier column
    | none => quoteIdent db column)

/-- The text of the query over columns that are the model's own. -/
def treeSql (foreignKey localKey : List Char) (primaryKeys : List (List Char)) (parentPlaceholder depthPlaceholder : List Char) :
    List Char :=
  let table := quoteTable db m
  let cte := quoteIdent db "tide_tree".toList
  let node := quoteIdent db "node".toList
  let child := quoteIdent db "child".toList
  let tree := quoteIdent db "tree".toList
  let result := quoteIdent db "result_node".toList
  let resultTree := quoteIdent db "result_tree".toList
  let pkAliases := (pkAliases primaryKeys.length).map (quoteIdent db)
  let treeKeyAlias := quoteIdent db "tree_key".toList
  let depthAlias := quoteIdent db "depth".toList
  let selectKeys (scope : List Char) :=
    ", ".toList.intercalate ((primaryKeys.zip pkAliases).map fun key => scopedColumn db scope key.1 ++ " AS ".toList ++ key.2)
  let groupedKeys := pkAliases.map fun aliased => cte ++ '.' :: aliased
  let resultJoin := " AND ".toList.intercalate ((primaryKeys.zip pkAliases).map fun key =>
    scopedColumn db "result_node".toList key.1 ++ " = ".toList ++ resultTree ++ '.' :: key.2)
  let basePredicates := (scopedColumn db "node".toList foreignKey ++ " = ".toList ++ parentPlaceholder) ::
    (softDeleteClause db m (some "node".toList) false).toList
  let recursivePredicates := (tree ++ '.' :: depthAlias ++ " < ".toList ++ depthPlaceholder) ::
    (softDeleteClause db m (some "child".toList) false).toList
  "WITH RECURSIVE ".toList ++ cte ++ " (".toList ++ ", ".toList.intercalate pkAliases ++ ", ".toList ++
    treeKeyAlias ++ ", ".toList ++ depthAlias ++ ") AS ( ".toList ++
    "SELECT ".toList ++ selectKeys "node".toList ++ ", ".toList ++ scopedColumn db "node".toList localKey ++ " AS ".toList ++
    treeKeyAlias ++ ", 1 AS ".toList ++ depthAlias ++
    " FROM ".toList ++ table ++ ' ' :: node ++
    " WHERE ".toList ++ " AND ".toList.intercalate basePredicates ++
    " UNION ALL ".toList ++
    "SELECT ".toList ++ selectKeys "child".toList ++ ", ".toList ++ scopedColumn db "child".toList localKey ++ " AS ".toList ++
    treeKeyAlias ++ ", ".toList ++ tree ++ '.' :: depthAlias ++ " + 1 AS ".toList ++ depthAlias ++
    " FROM ".toList ++ table ++ ' ' :: child ++
    " INNER JOIN ".toList ++ cte ++ ' ' :: tree ++ " ON ".toList ++ scopedColumn db "child".toList foreignKey ++
    " = ".toList ++ tree ++ '.' :: treeKeyAlias ++
    " WHERE ".toList ++ " AND ".toList.intercalate recursivePredicates ++
    " ) ".toList ++
    "SELECT ".toList ++ modelColumnsSql db m (some "result_node".toList) ++
    " FROM ".toList ++ table ++ ' ' :: result ++
    " INNER JOIN ( ".toList ++
    "SELECT ".toList ++ ", ".toList.intercalate ((groupedKeys.zip pkAliases).map fun key => key.1 ++ " AS ".toList ++ key.2) ++
    ", MIN(".toList ++ cte ++ '.' :: depthAlias ++ ") AS ".toList ++ depthAlias ++
    " FROM ".toList ++ cte ++
    " GROUP BY ".toList ++ ", ".toList.intercalate groupedKeys ++
    " ) ".toList ++ resultTree ++ " ON ".toList ++ resultJoin ++
    " ORDER BY ".toList ++ resultTree ++ '.' :: depthAlias

variable {S : Type} (lib : Libraries S)

def buildSelfRefTreeSql (foreignKey localKey : List Char) (parentPk : Json) (maxDepth : ℕ) :
    Except Error (List Char × List (Value S)) := do
  let foreignKey ← m.selfReferenceColumn foreignKey
  let localKey ← m.selfReferenceColumn localKey
  let primaryKeys ← m.primaryKeys
  let (parentPlaceholder, params) := pushParam db [] (jsonToColumnValue lib parentPk (m.columnTypeOf foreignKey))
  if i64Max < maxDepth then throw (.query "Self-reference tree depth exceeds i64 range")
  let (depthPlaceholder, params) := pushParam db params (.bigInt (some maxDepth))
  return (treeSql db m foreignKey localKey primaryKeys parentPlaceholder depthPlaceholder, params)

def requireScalarRelationKey (value : Json) (context : String) : Except Error Json :=
  match value with
  | .array _ | .object _ => .error (.query (context ++ " only supports scalar relation keys; composite primary keys " ++
      "require an explicit single-column relation key or a custom query"))
  | value => .ok value

/-- A relation's lookup key, which must have been supplied and be a scalar. -/
def requiredKey (key : Option Json) (what context : String) : Except Error Json :=
  match key with
  | none => .error (.query (what ++ " not set for relation"))
  | some key => requireScalarRelationKey key context

/-- What `load_tree` asks the database: at depth 0 nothing. -/
def loadTree (foreignKey localKey : List Char) (key : Option Json) (maxDepth : ℕ) :
    Except Error (Option (List Char × List (Value S))) :=
  if maxDepth = 0 then .ok none
  else do
    let pk ← requiredKey key "Parent primary key" "SelfRefMany::load_tree"
    let query ← buildSelfRefTreeSql db m lib foreignKey localKey pk maxDepth
    return some query

end Text

/-- An expression; a column is that of the row a name stands for, and `param` is the value
bound at an index from 1. -/
inductive Expr where
  | column (scope name : List Char)
  | literal (n : ℕ)
  | add (left right : Expr)
  | param (index : ℕ)

inductive Test where
  | equal (left right : Expr)
  | less (left right : Expr)
  | isNull (value : Expr)

/-- What a query reads: the model's table, or the rows walked so far. -/
inductive Source where
  | table | walked

structure Join where
  source : Source
  named : List Char
  on : List Test

structure Select where
  items : List (Expr × List Char)
  source : Source
  named : List Char
  join : Option Join
  filters : List Test

/-- `WITH RECURSIVE walked (header) AS (base UNION ALL step)`, and the rows of the table, as
`columns`, that one of its groups matches. -/
structure Walk where
  schema : Option (List Char)
  table : List Char
  walked : List Char
  header : List (List Char)
  base : Select
  step : Select
  columns : List Expr
  named : List Char
  grouped : List (Expr × List Char)
  lowest : Expr × List Char
  groupBy : List Expr
  groups : List Char
  on : List Test
  orderBy : Expr

section Written

variable (db : DatabaseType) (table : List Char)

/-- A text in pieces; a number is the marker of a bound value. -/
abbrev Pieces := List (List Char ⊕ ℕ)

def listed (separator : String) (texts : List Pieces) : Pieces := [Sum.inl separator.toList].intercalate texts

def Expr.pieces : Expr → Pieces
  | column scope name => [.inl (scopedColumn db scope name)]
  | literal n => [.inl (decimal n)]
  | add left right => left.pieces ++ .inl " + ".toList :: right.pieces
  | param index => [.inr index]

def Test.pieces : Test → Pieces
  | equal left right => left.pieces db ++ .inl " = ".toList :: right.pieces db
  | less left right => left.pieces db ++ .inl " < ".toList :: right.pieces db
  | isNull value => value.pieces db ++ [.inl " IS NULL".toList]

def itemPieces (item : Expr × List Char) : Pieces :=
  item.1.pieces db ++ [.inl " AS ".toList, .inl (quoteIdent db item.2)]

def lowestPieces (item : Expr × List Char) : Pieces :=
  .inl "MIN(".toList :: item.1.pieces db ++ [.inl ") AS ".toList, .inl (quoteIdent db item.2)]

def testsPieces (tests : List Test) : Pieces := listed " AND " (tests.map fun test => test.pieces db)

variable (walked : List Char)

def Source.pieces : Source → Pieces
  | .table => [.inl table]
  | .walked => [.inl (quoteIdent db walked)]

def Join.pieces (join : Join) : Pieces :=
  .inl " INNER JOIN ".toList :: join.source.pieces db table walked ++
    .inl [' '] :: .inl (quoteIdent db join.named) :: .inl " ON ".toList :: testsPieces db join.on

def Select.pieces (select : Select) : Pieces :=
  .inl "SELECT ".toList :: listed ", " (select.items.map (itemPieces db)) ++
    .inl " FROM ".toList :: select.source.pieces db table walked ++ .inl [' '] :: .inl (quoteIdent db select.named) ::
      (select.join.toList.flatMap (Join.pieces db table walked) ++ .inl " WHERE ".toList :: testsPieces db select.filters)

def Walk.pieces (walk : Walk) : Pieces :=
  .inl "WITH RECURSIVE ".toList :: .inl (quoteIdent db walk.walked) :: .inl " (".toList ::
    listed ", " (walk.header.map fun name => [.inl (quoteIdent db name)]) ++ .inl ") AS ( ".toList ::
    walk.base.pieces db table walk.walked ++ .inl " UNION ALL ".toList :: walk.step.pieces db table walk.walked ++
    .inl " ) ".toList :: .inl "SELECT ".toList :: listed ", " (walk.columns.map fun column => column.pieces db) ++
    .inl " FROM ".toList :: .inl table :: .inl [' '] :: .inl (quoteIdent db walk.named) ::
    .inl " INNER JOIN ( ".toList :: .inl "SELECT ".toList ::
    listed ", " (walk.grouped.map (itemPieces db) ++ [lowestPieces db walk.lowest]) ++
    .inl " FROM ".toList :: .inl (quoteIdent db walk.walked) ::
    .inl " GROUP BY ".toList :: listed ", " (walk.groupBy.map fun key => key.pieces db) ++
    .inl " ) ".toList :: .inl (quoteIdent db walk.groups) :: .inl " ON ".toList :: testsPieces db walk.on ++
    .inl " ORDER BY ".toList :: walk.orderBy.pieces db

/-- The text of the pieces, with the database's own markers. -/
def written (pieces : Pieces) : List Char :=
  pieces.flatMap fun piece =>
    match piece with
    | .inl text => text
    | .inr index => placeholder db index

def markers (pieces : Pieces) : List ℕ := pieces.filterMap Sum.getRight?

end Written

/-- The query that walks the tree. -/
def treeWalk (m : NodeModel) (foreignKey localKey : List Char) (primaryKeys : List (List Char)) : Walk :=
  let keys := primaryKeys.zip (pkAliases primaryKeys.length)
  let selectKeys (scope : List Char) := keys.map fun key => (Expr.column scope key.1, key.2)
  let live (scope : List Char) := if m.softDeleteEnabled then [Test.isNull (.column scope m.deletedAtColumn)] else []
  let tree := "tree".toList
  let treeKey := "tree_key".toList
  let depth := "depth".toList
  { schema := m.schemaName
    table := m.tableName
    walked := "tide_tree".toList
    header := pkAliases primaryKeys.length ++ [treeKey, depth]
    base :=
      { items := selectKeys "node".toList ++ [(.column "node".toList localKey, treeKey), (.literal 1, depth)]
        source := .table
        named := "node".toList
        join := none
        filters := .equal (.column "node".toList foreignKey) (.param 1) :: live "node".toList }
    step :=
      { items := selectKeys "child".toList ++
          [(.column "child".toList localKey, treeKey), (.add (.column tree depth) (.literal 1), depth)]
        source := .table
        named := "child".toList
        join := some ⟨.walked, tree, [.equal (.column "child".toList foreignKey) (.column tree treeKey)]⟩
        filters := .less (.column tree depth) (.param 2) :: live "child".toList }
    columns := m.columnNames.map fun column => .column "result_node".toList column
    named := "result_node".toList
    grouped := (pkAliases primaryKeys.length).map fun aliased => (.column "tide_tree".toList aliased, aliased)
    lowest := (.column "tide_tree".toList depth, depth)
    groupBy := (pkAliases primaryKeys.length).map fun aliased => .column "tide_tree".toList aliased
    groups := "result_tree".toList
    on := keys.map fun key => .equal (.column "result_node".toList key.1) (.column "result_tree".toList key.2)
    orderBy := .column "result_tree".toList depth }

/-- A cell of a row; `T` are the values that are no integers. -/
inductive Cell (T : Type) where
  | null
  | int (n : ℤ)
  | other (value : T)

namespace Cell

variable {T : Type}

def isNull : Cell T → Bool
  | null => true
  | _ => false

/-- A sum of integers fails past 32 bits. -/
def add : Cell T → Cell T → Option (Cell T)
  | int a, int b => if -2 ^ 31 ≤ a + b ∧ a + b < 2 ^ 31 then some (int (a + b)) else none
  | null, null | null, int _ | int _, null => some null
  | _, _ => none

def less : Cell T → Cell T → Option Kleene
  | int a, int b => some (some (a < b))
  | null, _ | _, null => some none
  | _, _ => none

/-- `MIN`, over integers and NULLs, which count for nothing. -/
def lowest : List (Cell T) → Option (Cell T)
  | [] => some null
  | cell :: rest => do
    match cell, ← lowest rest with
    | null, least => return least
    | int a, null => return int a
    | int a, int b => return int (min a b)
    | _, _ => none

/-- The order of other cells than integers is left open. -/
def Before : Cell T → Cell T → Prop
  | int a, int b => a ≤ b
  | _, _ => True

end Cell

/-- How a database reads the bound values and compares cells that are not NULL, and which
quoted names it takes for the same. -/
structure Engine (S T : Type) where
  read : Value S → Cell T
  read_null : ∀ value, value.isNull = true → read value = .null
  read_bigInt : ∀ n, read (.bigInt (some n)) = .int n
  equal : Cell T → Cell T → Bool
  sameName : List Char → List Char → Bool

def Engine.compare {S T : Type} (engine : Engine S T) (a b : Cell T) : Kleene :=
  if a.isNull || b.isNull then none else some (engine.equal a b)

/-- The model's table, whose primary key is `keys`. -/
structure NodeTable {S T : Type} (engine : Engine S T) (keys : List (List Char)) (Row : Type) where
  rows : List Row
  cell : List Char → Row → Cell T
  rows_nodup : rows.Nodup
  /-- no part of a row's key is NULL -/
  key_self : ∀ row ∈ rows, ∀ key ∈ keys, engine.compare (cell key row) (cell key row) = some true
  key_unique : ∀ row ∈ rows, ∀ other ∈ rows,
    (∀ key ∈ keys, engine.compare (cell key row) (cell key other) = some true) → row = other

section Evaluation

variable {S T : Type} (engine : Engine S T) (params : List (Value S))

/-- The columns of a row by their names. -/
abbrev Frame (T : Type) := List Char → Option (Cell T)

/-- The rows that names stand for. -/
abbrev Env (T : Type) := List (List Char × Frame T)

def frame (header : List (List Char)) (row : List (Cell T)) : Frame T := fun name => (header.zip row).lookup name

def Expr.eval (env : Env T) : Expr → Option (Cell T)
  | column scope name => (env.lookup scope).bind fun frame => frame name
  | literal n => some (.int n)
  | add left right => do (← left.eval env).add (← right.eval env)
  | param index => params[index - 1]?.map engine.read

def evalAll (values : List Expr) (env : Env T) : Option (List (Cell T)) := values.mapM fun value => value.eval engine params env

def Test.truth (env : Env T) : Test → Option Kleene
  | equal left right => do return engine.compare (← left.eval engine params env) (← right.eval engine params env)
  | less left right => do (← left.eval engine params env).less (← right.eval engine params env)
  | isNull value => do return some (← value.eval engine params env).isNull

/-- Whether all tests are true, not false or unknown. -/
def hold (tests : List Test) (env : Env T) : Option Bool := do
  return Kleene.all (← tests.mapM fun test => test.truth engine params env) == some true

variable {keys : List (List Char)} {Row : Type} (t : NodeTable engine keys Row) (header : List (List Char))

/-- The rows of a source, where `rows` are those walked last. -/
def Source.frames (rows : List (List (Cell T))) : Source → List (Frame T)
  | table => t.rows.map fun row name => some (t.cell name row)
  | walked => rows.map (frame header)

def Select.envs (rows : List (List (Cell T))) (select : Select) : List (Env T) :=
  (select.source.frames engine t header rows).flatMap fun first =>
    match select.join with
    | none => [[(select.named, first)]]
    | some join => (join.source.frames engine t header rows).map fun second => [(select.named, first), (join.named, second)]

def Select.rows (rows : List (List (Cell T))) (select : Select) : Option (List (List (Cell T))) :=
  selected (hold engine params ((select.join.map Join.on).getD [] ++ select.filters))
    (evalAll engine params (select.items.map Prod.fst)) (select.envs engine t header rows)

end Evaluation

section Answers

variable {S T : Type} {engine : Engine S T} (params : List (Value S)) {keys : List (List Char)} {Row : Type}
  (t : NodeTable engine keys Row) (walk : Walk)

/-- Inside the query a table without a schema that has the walk's own name is the walk, and a
database refuses it there. -/
def Walk.Hides (engine : Engine S T) (walk : Walk) : Prop := walk.schema = none ∧ engine.sameName walk.table walk.walked = true

instance (engine : Engine S T) (walk : Walk) : Decidable (walk.Hides engine) := inferInstanceAs (Decidable (_ ∧ _))

/-- The rows of the walk, with at most `fuel` steps. -/
def Walk.rows (fuel : ℕ) : Option (List (List (Cell T))) :=
  if ¬walk.Hides engine ∧ walk.header.Nodup ∧ walk.base.items.length = walk.header.length ∧ walk.step.items.length = walk.header.length then do
    repeated (fun rows => walk.step.rows engine params t walk.header rows) fuel
      (← walk.base.rows engine params t walk.header [])
  else none

/-- Grouped together are NULLs, and cells that are equal. -/
def sameKeys (engine : Engine S T) (a b : List (Cell T)) : Bool :=
  (a.zip b).all fun cells => (cells.1.isNull && cells.2.isNull) || engine.compare cells.1 cells.2 == some true

def Walk.groupRows (engine : Engine S T) (rows : List (List (Cell T))) : Option (List (List (Cell T))) := do
  let env (row : List (Cell T)) : Env T := [(walk.walked, frame walk.header row)]
  let keyOf (row : List (Cell T)) : Option (List (Cell T) × List (Cell T)) :=
    (evalAll engine params walk.groupBy (env row)).map fun key => (key, row)
  let rowOf (group : (List (Cell T) × List (Cell T)) × List (List (Cell T) × List (Cell T))) : Option (List (Cell T)) := do
    let shown ← evalAll engine params (walk.grouped.map Prod.fst) (env group.1.2)
    let depths ← group.2.mapM fun row => walk.lowest.1.eval engine params (env row.2)
    return shown ++ [← Cell.lowest depths]
  let keyed ← rows.mapM keyOf
  (Lib.groups (fun a b => sameKeys engine a.1 b.1) keyed).mapM rowOf

/-- The columns of the rows that are found, each with what they are ordered by. -/
def Walk.found (fuel : ℕ) : Option (List (List (Cell T) × Cell T)) := do
  let rows ← walk.groupRows params engine (← walk.rows params t fuel)
  let header := walk.grouped.map Prod.snd ++ [walk.lowest.2]
  let envs : List (Env T) := t.rows.flatMap fun row => rows.map fun group =>
    [(walk.named, fun name => some (t.cell name row)), (walk.groups, frame header group)]
  selected (hold engine params walk.on)
    (fun env => do
      let columns ← evalAll engine params walk.columns env
      return (columns, ← walk.orderBy.eval engine params env)) envs

/-- An answer to the query: what is found, in an order that it asks for. -/
def Walk.Answer (fuel : ℕ) (out : List (List (Cell T))) : Prop :=
  ∃ found, ∃ sorted : List (List (Cell T) × Cell T), walk.found params t fuel = some found ∧ sorted.Perm found ∧
    sorted.Pairwise (fun a b => a.2.Before b.2) ∧ out = sorted.map Prod.fst

end Answers

section Subtree

variable {S T : Type} {engine : Engine S T} {keys : List (List Char)} {Row : Type} (m : NodeModel)
  (foreignKey localKey : List Char) (t : NodeTable engine keys Row)

/-- The row is of the table and not deleted. -/
def NodeTable.Live (row : Row) : Prop := row ∈ t.rows ∧ (m.softDeleteEnabled = true → (t.cell m.deletedAtColumn row).isNull = true)

/-- A live row whose foreign key is equal to the key. -/
def NodeTable.Link (key : Cell T) (row : Row) : Prop :=
  t.Live m row ∧ engine.compare (t.cell foreignKey row) key = some true

/-- The row is the end of a chain of so many live links from the parent's key. -/
inductive Chain (parent : Cell T) : ℕ → Row → Prop
  | first {row : Row} (hlink : t.Link m foreignKey parent row) : Chain parent 1 row
  | next {n : ℕ} {row child : Row} (hchain : Chain parent n row) (hlink : t.Link m foreignKey (t.cell localKey row) child) :
      Chain parent (n + 1) child

/-- The length of the shortest chain to the row. -/
noncomputable def shortest (parent : Cell T) (row : Row) : ℕ := sInf {n | Chain m foreignKey localKey t parent n row}

/-- The rows are those that a chain of one to `maxDepth` live links reaches, each once, in the
order of their shortest chains. -/
structure IsSubtree (parent : Cell T) (maxDepth : ℕ) (rows : List Row) : Prop where
  nodup : rows.Nodup
  mem_iff : ∀ row, row ∈ rows ↔ ∃ n, 1 ≤ n ∧ n ≤ maxDepth ∧ Chain m foreignKey localKey t parent n row
  sorted : rows.Pairwise fun a b => shortest m foreignKey localKey t parent a ≤ shortest m foreignKey localKey t parent b

end Subtree

end TideOrm.TreeQuery
