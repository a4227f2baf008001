import TideOrm.Spec.SelectQuery

/-! What `generate_cache_key` feeds the hasher (`query/sql/execution.rs`,
`query/sql/execution/hash_helpers.rs`). -/

namespace TideOrm

/-- A value written to the hasher. -/
inductive Hashed where
  | str (text : String)
  | int (n : ℤ)
  | bool (b : Bool)
  | discriminant (n : ℕ)
deriving DecidableEq

section

variable {A : Type}

/-- `Hash` of a `Vec`, its length first. -/
def hashList (hash : A → List Hashed) (items : List A) : List Hashed := .int items.length :: items.flatMap hash

def hashOption (hash : A → List Hashed) : Option A → List Hashed
  | none => [.discriminant 0]
  | some a => .discriminant 1 :: hash a

def hashStr (text : String) : List Hashed := [.str text]

end

/-- Numbers are tagged by their representation. -/
def hashJsonNumber : JsonNumber → List Hashed
  | .posInt n => if n < 2 ^ 63 then [.int 0, .int n] else [.int 1, .int n]
  | .negInt n => [.int 0, .int n]
  | .float bits => [.int 2, .int bits.toNat]

mutual

def hashJsonValue : Json → List Hashed
  | .null => [.int 0]
  | .bool b => [.int 1, .bool b]
  | .number n => .int 2 :: hashJsonNumber n
  | .string text => [.int 3, .str text]
  | .array items => .int 4 :: .int items.length :: hashJsonAll items
  | .object fields => .int 5 :: .int fields.length :: hashJsonFields fields

def hashJsonAll : List Json → List Hashed
  | [] => []
  | value :: rest => hashJsonValue value ++ hashJsonAll rest

def hashJsonFields : List (String × Json) → List Hashed
  | [] => []
  | (key, value) :: rest => .str key :: (hashJsonValue value ++ hashJsonFields rest)

end

def hashJsonValues (values : List Json) : List Hashed := .int values.length :: hashJsonAll values

def Order.discriminant : Order → ℕ
  | .asc => 0
  | .desc => 1

def LogicalOp.discriminant : LogicalOp → ℕ
  | .and => 0
  | .or => 1

def hashOrderTerm (term : String × Order) : List Hashed := [.str term.1, .discriminant term.2.discriminant]

def hashJoin (join : JoinClause) : List Hashed :=
  [.discriminant join.joinType.ctorIdx, .str join.table] ++ hashOption hashStr join.tableAlias ++
    [.str join.leftColumn, .str join.rightColumn]

def hashFrameBound : FrameBound → List Hashed
  | .unboundedPreceding => [.discriminant 0]
  | .unboundedFollowing => [.discriminant 1]
  | .currentRow => [.discriminant 2]
  | .preceding n => [.discriminant 3, .int n]
  | .following n => [.discriminant 4, .int n]

def hashInt (n : ℤ) : List Hashed := [.int n]

def hashWindowFunctionType : WindowFunctionType → List Hashed
  | .rowNumber => [.discriminant 0]
  | .rank => [.discriminant 1]
  | .denseRank => [.discriminant 2]
  | .ntile n => [.discriminant 3, .int n]
  | .lag column offset defaultSql =>
    .discriminant 4 :: .str column :: (hashOption hashInt offset ++ hashOption hashStr defaultSql)
  | .lead column offset defaultSql =>
    .discriminant 5 :: .str column :: (hashOption hashInt offset ++ hashOption hashStr defaultSql)
  | .firstValue column => [.discriminant 6, .str column]
  | .lastValue column => [.discriminant 7, .str column]
  | .nthValue column n => [.discriminant 8, .str column, .int n]
  | .sum column => [.discriminant 9, .str column]
  | .avg column => [.discriminant 10, .str column]
  | .count column => .discriminant 11 :: hashOption hashStr column
  | .min column => [.discriminant 12, .str column]
  | .max column => [.discriminant 13, .str column]
  | .custom expression => [.discriminant 14, .str expression]

def hashFrameType (frameType : FrameType) : List Hashed := [.discriminant frameType.ctorIdx]

def hashWindow (w : WindowFunction) : List Hashed :=
  hashWindowFunctionType w.function ++ hashList hashStr w.partitionBy ++ hashList hashOrderTerm w.orderBy ++
    hashOption hashFrameType w.frameType ++ hashOption hashFrameBound w.frameStart ++
    hashOption hashFrameBound w.frameEnd ++ [.str w.outputAlias]

/-- What `hash_database_identity` mixes in. -/
inductive DatabaseIdentity where
  | connection (id : ℕ)
  | noConnection
  | unresolved

def DatabaseIdentity.hash : DatabaseIdentity → List Hashed
  | connection id => [.int id]
  | noConnection => [.str "tideorm::no-connection"]
  | unresolved => [.str "tideorm::unresolved-connection"]

/-- What the key reads beside the query; `debug` renders a bound value. -/
structure KeyContext (V : Type) where
  typeName : String
  database : DatabaseIdentity
  debug : V → String

section

variable {V : Type} (debug : V → String)

def hashBoundValues (values : List V) : List Hashed := hashList (fun value => [.str (debug value)]) values

def hashFragment (sql : String) (params : List V) : List Hashed := .str sql :: hashBoundValues debug params

def hashConditionValue : ConditionValue V → List Hashed
  | .single value => .discriminant 0 :: hashJsonValue value
  | .list values => .discriminant 1 :: hashJsonValues values
  | .documentList values sqlNull => .discriminant 2 :: (hashJsonValues values ++ [.bool sqlNull])
  | .range low high => .discriminant 3 :: (hashJsonValue low ++ hashJsonValue high)
  | .none => [.discriminant 4]
  | .rawExpr sql => [.discriminant 5, .str sql]
  | .rawExprWithValues sql values => .discriminant 6 :: hashFragment debug sql values
  | .rawTemplate sql values => .discriminant 7 :: hashFragment debug sql values
  | .column name => [.discriminant 8, .str name]
  | .invalid reason => [.discriminant 9, .str reason]

def hashWhereCondition (condition : WhereCondition V) : List Hashed :=
  .str condition.column :: .discriminant condition.operator.ctorIdx :: hashConditionValue debug condition.value

mutual

def hashOrGroup : OrGroup (WhereCondition V) → List Hashed
  | .mk conditions nested op =>
    .discriminant op.discriminant :: (hashList (hashWhereCondition debug) conditions ++
      .int nested.length :: hashOrGroups nested)

def hashOrGroups : List (OrGroup (WhereCondition V)) → List Hashed
  | [] => []
  | group :: rest => hashOrGroup group ++ hashOrGroups rest

end

def hashSubquery (subquery : SubquerySelect V) : List Hashed :=
  hashFragment debug subquery.querySql subquery.params ++ [.str subquery.outputAlias]

def hashUnion (union : UnionClause V) : List Hashed :=
  hashFragment debug union.querySql union.params ++ [.discriminant union.unionType.ctorIdx]

def hashCte (cte : Cte V) : List Hashed :=
  .str cte.name :: (hashFragment debug cte.querySql cte.params ++ .bool cte.recursive ::
    hashOption (hashList hashStr) cte.columns)

end

/-- The values that `generate_cache_key` feeds the hasher, in turn. -/
def SelectQuery.cacheKeyInput {V : Type} (ctx : RenderContext V) (key : KeyContext V) (q : SelectQuery V) : List Hashed :=
  let c := q.clauses
  .str key.typeName :: (hashOption (fun schema => hashStr (String.ofList schema)) q.model.schemaName ++
    .str (String.ofList q.model.tableName) :: (key.database.hash ++
    (hashOption hashStr c.cacheKey ++
    (List.flatMap (hashWhereCondition key.debug) c.conditions ++
    (hashOrGroups key.debug c.orGroups ++
    (hashList hashOrderTerm c.orderBy ++
    (hashOption (fun n : ℕ => hashInt n) c.limitValue ++
    (hashOption (fun n : ℕ => hashInt n) c.offsetValue ++
    (.bool c.includeTrashed :: .bool c.onlyTrashed ::
    (hashOption (hashList hashStr) c.selectColumns ++
    (hashList hashStr c.rawSelectExpressions ++
    (List.flatMap (hashSubquery key.debug) c.subquerySelectExpressions ++
    (hashList hashJoin c.joins ++
    (hashList hashStr c.groupBy ++
    ((c.havingClauses ctx.builder).flatMap (fun clause => hashFragment key.debug clause.1 clause.2) ++
    (List.flatMap (hashUnion key.debug) c.unions ++
    (List.flatMap (hashCte key.debug) c.ctes ++
    hashList hashWindow c.windowFunctions)))))))))))))))))

end TideOrm
