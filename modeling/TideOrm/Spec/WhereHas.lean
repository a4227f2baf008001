import TideOrm.Spec.ModelMeta
import TideOrm.Spec.Placeholders

/-! Conditions on related rows (`query/predicates.rs`), as the `EXISTS` predicates they render,
and the rows their names resolve to. -/

namespace TideOrm

/-- The alias a query `depth` levels deep in `where_has` subqueries over its own table reads that
table under. -/
def relatedAlias (depth : ℕ) : List Char :=
  if depth = 1 then "tideorm_related".toList else "tideorm_related_".toList ++ decimal depth

/-- The name the model's table goes by in a query. -/
def ownTableRef (m : ModelMeta) (selfJoinDepth : ℕ) : List Char :=
  if selfJoinDepth = 0 then m.tableName else relatedAlias selfJoinDepth

/-- A column reference as a query writes it. -/
def modelIdentifier (m : ModelMeta) (selfJoinDepth : ℕ) (identifier : List Char) (qualifyOwn : Bool) :
    Option (List Char) × List Char :=
  match m.canonicalColumnParts identifier with
  | (some table, column) => (some (if table = m.tableName then ownTableRef m selfJoinDepth else table), column)
  | (none, column) =>
    if qualifyOwn ∧ column ∈ m.columnNames then (some (ownTableRef m selfJoinDepth), column) else (none, column)

/-- A table of a `FROM`, with its alias. -/
structure FromTable where
  schema : Option (List Char)
  table : List Char
  tableAlias : Option (List Char)

/-- The name that columns of the table are qualified with. -/
def FromTable.exposedName (source : FromTable) : List Char := source.tableAlias.getD source.table

/-- A rendered predicate. `column` is a filter on a column reference, `ofModel` when it names a
column of the query's own model by its table; `existsRelated` is
`[NOT] EXISTS (SELECT 1 FROM <source> WHERE <related>.<foreignKey> = <own>.<localKey> AND <filters>)`. -/
inductive Predicate where
  | column (ofModel : Bool) (qualifier : Option (List Char)) (name : List Char)
  | existsRelated (negated : Bool) (source : FromTable) (related foreignKey own localKey : List Char)
      (filters : List Predicate)

/-- A condition of a query. A closure of `whereHas` that does not build on the query it is handed
returns one of a depth of its own, `fresh`. -/
inductive HasCondition where
  | filter (identifier : List Char) (qualifyOwn : Bool)
  | whereHas (negated : Bool) (related : ModelMeta) (foreignKey localKey : List Char) (fresh : Option ℕ)
      (constrain : List HasCondition)
  | hasRelated (negated : Bool) (relatedTable foreignKey localKey : List Char) (conditionColumn : Option (List Char))

/-- The depth of the query `where_has` hands its closure: one more over the query's own table. -/
def relatedQuery (m : ModelMeta) (selfJoinDepth : ℕ) (related : ModelMeta) : ℕ :=
  if related.tableName = m.tableName then selfJoinDepth + 1 else 0

mutual

/-- The predicate a condition renders to in a query over `m`, none when its keys are no columns. -/
def HasCondition.push (m : ModelMeta) (selfJoinDepth : ℕ) : HasCondition → Option Predicate
  | .filter identifier qualifyOwn =>
    let reference := modelIdentifier m selfJoinDepth identifier qualifyOwn
    let ofModel := (m.canonicalColumnParts identifier).1.all fun table => table == m.tableName
    some (.column ofModel reference.1 reference.2)
  | .whereHas negated related foreignKey localKey fresh constrain =>
    match related.ownColumnName foreignKey, m.ownColumnName localKey with
    | some foreignKey, some localKey =>
      let depth := fresh.getD (relatedQuery m selfJoinDepth related)
      let relatedRef := ownTableRef related depth
      let source := ⟨related.schemaName, related.tableName, if 0 < depth then some relatedRef else none⟩
      some (.existsRelated negated source relatedRef foreignKey (ownTableRef m selfJoinDepth) localKey
        (HasCondition.pushAll related depth constrain))
    | _, _ => none
  | .hasRelated negated relatedTable foreignKey localKey conditionColumn =>
    -- The model's own table is read under an alias.
    let tableAlias := if relatedTable = m.tableName then some (relatedAlias (selfJoinDepth + 1)) else none
    let source := ⟨none, relatedTable, tableAlias⟩
    let relatedRef := tableAlias.getD relatedTable
    some (.existsRelated negated source relatedRef foreignKey (ownTableRef m selfJoinDepth) localKey
      (conditionColumn.toList.map fun column => .column true (some relatedRef) column))

def HasCondition.pushAll (m : ModelMeta) (selfJoinDepth : ℕ) : List HasCondition → List Predicate
  | [] => []
  | condition :: rest => (condition.push m selfJoinDepth).toList ++ HasCondition.pushAll m selfJoinDepth rest

end

section

variable (fold : List Char → List Char)

/-- The level a qualifier resolves to, 0 for the innermost: the first whose exposed name is the
same to the database, which compares what `fold` leaves of names. -/
def resolve (scopes : List (List Char)) (qualifier : List Char) : Option ℕ :=
  scopes.findIdx? fun name => fold name == fold qualifier

mutual

/-- In a query whose tables and those around it expose `scopes`, the innermost first, every
correlation is between the level's own row and the row directly around it, and every qualified
column of a level's model is of the level's row. -/
def Predicate.Uncaptured : List (List Char) → Predicate → Prop
  | scopes, .column ofModel qualifier _ => ofModel = true → ∀ name ∈ qualifier, resolve fold scopes name = some 0
  | scopes, .existsRelated _ source related _ own _ filters =>
    resolve fold (source.exposedName :: scopes) related = some 0 ∧
      resolve fold (source.exposedName :: scopes) own = some 1 ∧
      Predicate.AllUncaptured (source.exposedName :: scopes) filters

def Predicate.AllUncaptured : List (List Char) → List Predicate → Prop
  | _, [] => True
  | scopes, predicate :: rest => predicate.Uncaptured scopes ∧ Predicate.AllUncaptured scopes rest

end

mutual

/-- No level goes by the name of the level directly around it, as far as the database can tell. -/
def HasCondition.Separate (m : ModelMeta) (selfJoinDepth : ℕ) : HasCondition → Prop
  | .filter _ _ => True
  | .whereHas _ related foreignKey localKey fresh constrain =>
    (related.ownColumnName foreignKey).isSome → (m.ownColumnName localKey).isSome →
      fold (ownTableRef related (fresh.getD (relatedQuery m selfJoinDepth related))) ≠ fold (ownTableRef m selfJoinDepth) ∧
        HasCondition.AllSeparate related (fresh.getD (relatedQuery m selfJoinDepth related)) constrain
  | .hasRelated _ relatedTable _ _ _ =>
    fold (if relatedTable = m.tableName then relatedAlias (selfJoinDepth + 1) else relatedTable) ≠
      fold (ownTableRef m selfJoinDepth)

def HasCondition.AllSeparate (m : ModelMeta) (selfJoinDepth : ℕ) : List HasCondition → Prop
  | [] => True
  | condition :: rest => condition.Separate m selfJoinDepth ∧ HasCondition.AllSeparate m selfJoinDepth rest

end

end

end TideOrm
