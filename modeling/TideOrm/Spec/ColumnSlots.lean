import TideOrm.Spec.WhereHas
import TideOrm.Spec.Chunk
import TideOrm.Spec.TableTags
import Mathlib.Data.List.DropRight
import Mathlib.Data.List.Dedup
import Mathlib.Data.List.Infix

/-! The slots of a query that take a column by name (`query/builder.rs`,
`query/sql/rendering/select.rs`, `query/advanced/ordering_pagination.rs`): what validation accepts
in them and what they render. -/

namespace TideOrm

/-- `is_safe_identifier_segment` -/
def safeIdentifierSegment : List Char → Bool
  | [] => false
  | first :: rest => (first == '_' || first.isAlpha) && rest.all fun ch => ch == '_' || ch.isAlphanum

def validateIdentifier (kind : String) (value : List Char) : Except String Unit :=
  if safeIdentifierSegment value then .ok ()
  else .error s!"unsafe {kind} '{String.ofList value}': identifiers may only contain ASCII letters, numbers, and underscores, and must not start with a number"

def validateIdentifierReference (kind : String) (value : List Char) : Except String Unit :=
  let parts := value.splitOn '.'
  if parts.length ≤ 3 ∧ parts.all safeIdentifierSegment then .ok ()
  else .error s!"invalid {kind} '{String.ofList value}': expected column, table.column or schema.table.column using only ASCII letters, numbers, and underscores"

def isIdentifierQuote (ch : Option Char) : Bool := ch == some '"' || ch == some '`'

def identifierReferenceParts (value : List Char) : Option (List (List Char)) :=
  let trimmed := trim value
  if trimmed.isEmpty || isIdentifierQuote trimmed.head? || isIdentifierQuote trimmed.getLast? ||
      trimmed.any (fun ch => ch == '(' || ch == ')' || ch == '*' || ch == ' ') then none
  else
    let parts := trimmed.splitOn '.'
    if parts.any List.isEmpty then none else some parts

def formatIdentifierReference (db : DatabaseType) (value : List Char) : Option (List Char) :=
  (identifierReferenceParts value).map fun parts => ['.'].intercalate (parts.map (quoteIdent db))

def isAliasSpace (ch : Char) : Bool := ch == ' ' || ch == '\t' || ch == '\n' || ch == '\r'

/-- Whether the text after a blank is the rest of an ` AS `. -/
def startsAs : List Char → Bool
  | a :: s :: space :: _ => (a == 'a' || a == 'A') && (s == 's' || s == 'S') && isAliasSpace space
  | _ => false

/-- Where the last ` AS ` outside quotes and parentheses begins, from the character `position` on;
the next `skip` characters are read already. -/
def lastAs : ℕ → ℤ → Option Char → ℕ → Option ℕ → List Char → Option ℕ
  | _, _, _, _, last, [] => last
  | skip + 1, depth, quote, position, last, _ :: rest => lastAs skip depth quote (position + 1) last rest
  | 0, depth, some q, position, last, ch :: rest =>
    if ch = q then
      -- a doubled quote is one inside
      if rest.head? = some q then lastAs 1 depth (some q) (position + 1) last rest
      else lastAs 0 depth none (position + 1) last rest
    else lastAs 0 depth (some q) (position + 1) last rest
  | 0, depth, none, position, last, ch :: rest =>
    if isQuote ch then lastAs 0 depth (some ch) (position + 1) last rest
    else if ch = '(' then lastAs 0 (depth + 1) none (position + 1) last rest
    else if ch = ')' then lastAs 0 (depth - 1) none (position + 1) last rest
    else if isAliasSpace ch ∧ depth = 0 ∧ startsAs rest then lastAs 3 depth none (position + 1) (some position) rest
    else lastAs 0 depth none (position + 1) last rest

/-- A SELECT expression and its alias. -/
def splitAlias (value : List Char) : List Char × Option (List Char) :=
  let value := trim value
  match lastAs 0 0 none 0 none value with
  | none => (value, none)
  | some start =>
    let expression := trim (value.take start)
    let aliased := trim (value.drop (start + 4))
    if expression.isEmpty || aliased.isEmpty then (value, none) else (expression, some aliased)

/-- A column reference and the `ASC`/`DESC` written after it, if one is. -/
def splitDirection (term : List Char) : Option (List Char × Order) :=
  let term := trim term
  if term.any isWhitespace then
    let direction := term.rtakeWhile fun ch => !isWhitespace ch
    let column := (term.take (term.length - direction.length - 1)).rdropWhile isWhitespace
    if eqIgnoreAsciiCase direction "asc".toList then some (column, .asc)
    else if eqIgnoreAsciiCase direction "desc".toList then some (column, .desc)
    else none
  else none

/-- The column reference of an ORDER BY term, without its direction. -/
def orderReference (term : List Char) : List Char :=
  let term := trim term
  ((splitDirection term).map Prod.fst).getD term

/-- A table joined to a query. -/
structure JoinedTable where
  table : List Char
  tableAlias : Option (List Char)

def JoinedTable.qualifier (join : JoinedTable) : List Char :=
  join.tableAlias.getD (((textRsplitOnce '.' join.table).map Prod.snd).getD join.table)

/-- What the column slots of a query read of it: its model, the depth its table is aliased at, the
joined tables, whether it has union arms, and the outputs of its projection with their sources. -/
structure SlotQuery where
  model : ModelMeta
  selfJoinDepth : ℕ
  joins : List JoinedTable
  hasUnions : Bool
  projectionOutputs : List (List Char × Option (List Char × List Char))
  projectionIsClosed : Bool

def sortedNames (names : List (List Char)) : List (List Char) := names.dedup.mergeSort fun a b => decide (a ≤ b)

def joinNames (names : List (List Char)) : String := String.ofList (", ".toList.intercalate names)

namespace SlotQuery

variable (q : SlotQuery)

def knownQualifiers : List (List Char) :=
  sortedNames ([q.model.tableName] ++ (q.model.schemaName.toList.map fun schema => schema ++ '.' :: q.model.tableName) ++
    q.joins.flatMap fun join => join.qualifier :: if join.tableAlias.isNone then [join.table] else [])

def knownModelColumnReferences : String × String :=
  if sortedNames q.model.fieldNames = sortedNames q.model.columnNames then
    ("known columns", joinNames (sortedNames q.model.columnNames))
  else ("known fields/columns", joinNames (sortedNames (q.model.fieldNames ++ q.model.columnNames)))

/-- The table, empty for none, and the column that a reference names. -/
def simpleColumnReference (value : List Char) : Option (List Char × List Char) :=
  let value := (splitAlias value).1
  match identifierReferenceParts value with
  | some [column] => some ([], column)
  | some [table, column] => some (table, column)
  | some [schema, table, column] =>
    let qualifier := schema ++ '.' :: table
    some (if q.model.ownsTableReference qualifier then q.model.tableName else qualifier, column)
  | _ => none

def validateModelColumnReference (kind : String) (value : List Char) : Except String Unit :=
  match q.simpleColumnReference value with
  | none => .ok ()
  | some (table, column) => do
    let reference := if table.isEmpty then column else table ++ '.' :: column
    validateIdentifierReference kind reference
    if table.isEmpty || q.model.ownsTableReference table then
      if (q.model.canonicalColumnName column).isSome then .ok ()
      else .error s!"unknown {kind} '{String.ofList reference}' for model '{String.ofList q.model.tableName}'; {q.knownModelColumnReferences.1}: {q.knownModelColumnReferences.2}"
    else if q.knownQualifiers.contains table then .ok ()
    else .error s!"unknown {kind} qualifier '{String.ofList table}' in '{String.ofList reference}' for model '{String.ofList q.model.tableName}'; known table/alias qualifiers: {joinNames q.knownQualifiers}"

def RAW_ORDER_BY_MARKER : List Char := "\x01tideorm_raw_order_by\x01".toList

/-- The check of an ORDER BY or GROUP BY slot that holds no raw expression. -/
def validateOrderOrGroupValue (kind : String) (value : List Char) (allowDirection : Bool) : Except String Unit :=
  let trimmed := trim value
  let (reference, directionIsValid) :=
    match splitDirection trimmed with
    | some (reference, _) => (reference, allowDirection)
    | none => (trimmed, true)
  if !directionIsValid || (q.simpleColumnReference reference).isNone then
    let hint :=
      if allowDirection then
        "expected a column or table.column reference, optionally followed by ASC or DESC; use order_by_raw() for trusted SQL expressions and never pass user input to it"
      else "expected a column or table.column reference; SQL expressions are not accepted here"
    .error s!"unsafe {kind} '{String.ofList trimmed}': {hint}"
  else q.validateModelColumnReference kind reference

def validateSelectValue (value : List Char) : Except String Unit :=
  let trimmed := trim value
  let (expression, aliased) := splitAlias trimmed
  if aliased.isNone && expression == ['*'] then .ok ()
  else if aliased.isNone && ['.', '*'].isSuffixOf expression then
    validateIdentifier "SELECT wildcard qualifier" (expression.take (expression.length - 2))
  else
    match validateIdentifierReference "SELECT column" expression with
    | .error _ => .error s!"unsafe SELECT column '{String.ofList trimmed}': select() takes a column, table.column or `column AS alias`; use select_raw() for trusted SQL expressions and never pass user input to it"
    | .ok () => do
      q.validateModelColumnReference "SELECT column" expression
      match aliased with
      | some aliased => validateIdentifier "SELECT alias" aliased
      | none => .ok ()

/-- The check of the column of a WHERE condition. -/
def validateWhereColumn (column : List Char) : Except String Unit :=
  match validateIdentifierReference "WHERE column" column with
  | .error _ => .error s!"unsafe WHERE column '{String.ofList column}': expected a column or table.column reference; use where_raw() for trusted SQL expressions and never pass user input to it"
  | .ok () => q.validateModelColumnReference "WHERE column" column

/-- A column reference as the query writes it, its parts joined by dots. -/
def canonicalModelIdentifier (identifier : List Char) : List Char :=
  match modelIdentifier q.model q.selfJoinDepth identifier (!q.joins.isEmpty) with
  | (some table, column) => table ++ '.' :: column
  | (none, column) => column

def formatColumnForDb (db : DatabaseType) (column : List Char) : List Char :=
  let trimmed := trim column
  if trimmed.any isWhitespace then trimmed
  else
    let expression := trim (q.canonicalModelIdentifier trimmed)
    (formatIdentifierReference db expression).getD expression

def formatProjectionColumn (db : DatabaseType) (table identifier : List Char) : List Char :=
  if '.' ∈ identifier then q.formatColumnForDb db identifier
  else quoteIdent db table ++ '.' :: quoteIdent db (q.model.columnNamed identifier)

def formatSelectColumnForDb (db : DatabaseType) (table column : List Char) : List Char :=
  let isReference := fun value => (formatIdentifierReference db value).isSome
  match splitAlias column with
  | (identifier, none) => if isReference identifier then q.formatProjectionColumn db table identifier else trim column
  | (identifier, some aliased) =>
    if isReference identifier && isReference aliased then
      q.formatProjectionColumn db table identifier ++ " AS ".toList ++ quoteIdent db aliased
    else trim column

/-- The name that a result row has a column under, when the projection gives it one. -/
def derivedOutputName (column : List Char) : Option (List Char) :=
  let column := trim column
  let parts := q.model.canonicalColumnParts column
  let table := parts.1.getD q.model.tableName
  let name := parts.2
  let named := if '.' ∈ column then none else (q.projectionOutputs.find? fun output => output.1 == column).map Prod.fst
  let selected := (q.projectionOutputs.find? fun output => output.2.any fun source =>
    source.1 == table &&
      (if source.1 = q.model.tableName then q.model.columnNamed source.2 else source.2) == name).map Prod.fst
  named.or (selected.or (if !q.projectionIsClosed && table == q.model.tableName then some name else none))

/-- One ORDER BY term that `order_by` stored. -/
def formatOrderByForDb (db : DatabaseType) (column : List Char) (direction : Order) : List Char :=
  let trimmed := trim column
  let (reference, direction) := (splitDirection trimmed).getD (trimmed, direction)
  -- A union's result rows name a column by its output name alone.
  if q.hasUnions && (reference.splitOn '.').all safeIdentifierSegment then
    let output := (q.derivedOutputName reference).getD (q.model.canonicalColumnParts reference).2
    quoteIdent db output ++ ' ' :: direction.asStr.toList
  else q.formatColumnForDb db reference ++ ' ' :: direction.asStr.toList

def directionName : Order → String
  | .asc => "Asc"
  | .desc => "Desc"

/-- What keeps `order_by` from storing a term. -/
def orderByRefusal (column : List Char) (direction : Order) : Option String :=
  if RAW_ORDER_BY_MARKER <:+: column then
    some s!"invalid ORDER BY column '{String.ofList column}': the raw-expression marker is reserved; use order_by_raw() for trusted SQL expressions"
  else
    match splitDirection column with
    | some (_, written) =>
      if written = direction then none
      else some s!"order_by('{String.ofList column}', Order::{directionName direction}) names two directions; pass the direction once, or sort() a request's sort string"
    | none => none

/-- A term of a sort string. -/
def sortTerm (term : List Char) : List Char × Order :=
  match term with
  | '-' :: column => (trim column, .desc)
  | '+' :: column => (trim column, .asc)
  | term => (splitDirection term).getD (term, .asc)

/-- The terms of a sort string, none when one has no column. -/
def sortTerms (spec : List Char) : Option (List (List Char × Order)) :=
  let terms := (((spec.splitOn ',').map trim).filter fun term => !term.isEmpty).map sortTerm
  if terms.any fun term => term.1.isEmpty then none else some terms

/-- The methods that take a column by name. -/
inductive ColumnSlot where
  | whereColumn
  | orderBy (direction : Order)
  | sort
  | groupBy
  | select

/-- The ORDER BY terms a call stores. -/
def orderTerms : ColumnSlot → List Char → List (List Char × Order)
  | .orderBy direction, text => [(text, direction)]
  | .sort, text => (sortTerms text).getD []
  | _, _ => []

def acceptsOrderTerm (term : List Char × Order) : Prop :=
  orderByRefusal term.1 term.2 = none ∧ q.validateOrderOrGroupValue "ORDER BY column" term.1 true = .ok ()

/-- The checks that the column given to a slot passes before the query runs. -/
def accepts (slot : ColumnSlot) (text : List Char) : Prop :=
  match slot with
  | .whereColumn => q.validateWhereColumn text = .ok ()
  | .orderBy direction => q.acceptsOrderTerm (text, direction)
  | .sort => (sortTerms text).isSome ∧ ∀ term ∈ orderTerms .sort text, q.acceptsOrderTerm term
  | .groupBy => q.validateOrderOrGroupValue "GROUP BY column" text false = .ok ()
  | .select => q.validateSelectValue text = .ok ()

/-- What the slot renders, term by term. -/
def renders (db : DatabaseType) (slot : ColumnSlot) (text : List Char) : List (List Char) :=
  match slot with
  | .whereColumn => [q.formatColumnForDb db text]
  | .orderBy _ | .sort => (orderTerms slot text).map fun term => q.formatOrderByForDb db term.1 term.2
  | .groupBy => [q.formatColumnForDb db text]
  | .select => [q.formatSelectColumnForDb db (ownTableRef q.model q.selfJoinDepth) text]

end SlotQuery

end TideOrm
