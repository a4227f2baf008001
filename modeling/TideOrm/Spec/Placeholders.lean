import TideOrm.Spec.SqlLexer
import Mathlib.Algebra.Group.Nat.Defs

/-! The parts of a statement that each database writes its own way: quoted identifiers
and the markers of bound values, and how the markers of a text rendered on its own are
numbered on behind the values before it (`internal/sql_safety.rs`, `internal/mod.rs`,
`query/db_sql/placeholders.rs`). -/

namespace TideOrm

inductive DatabaseType where
  | postgres
  | mySql
  | mariaDb
  | sqlite
deriving DecidableEq

def DatabaseType.quoteChar : DatabaseType → Char
  | .postgres => '"'
  | .mySql => '`'
  | .mariaDb => '`'
  | .sqlite => '"'

/-- `name` as a quoted identifier, any quote inside it doubled. -/
def quoteIdent (db : DatabaseType) (name : List Char) : List Char :=
  db.quoteChar :: (name.flatMap fun ch => if ch = db.quoteChar then [ch, ch] else [ch]) ++ [db.quoteChar]

def decimal (n : ℕ) : List Char := Nat.toDigits 10 n

/-- The marker for the `index`-th (1-based) bound parameter. -/
def placeholder (db : DatabaseType) (index : ℕ) : List Char :=
  match db with
  | .postgres => '$' :: decimal index
  | .mySql => ['?']
  | .mariaDb => ['?']
  | .sqlite => ['?']

/-- Bind `value` and return the placeholder that refers to it, with the values bound then. -/
def pushParam {V : Type} (db : DatabaseType) (params : List V) (value : V) : List Char × List V :=
  (placeholder db (params ++ [value]).length, params ++ [value])

/-- The `usize` values are those below it. -/
def usizeLimit : ℕ := 2 ^ 64

/-- `str::parse::<usize>` on a text of decimal digits. -/
def parseUsize (digits : List Char) : Option ℕ :=
  let number := digits.foldl (fun n ch => 10 * n + (ch.toNat - 48)) 0
  if digits ≠ [] ∧ digits.all Char.isDigit ∧ number < usizeLimit then some number else none

/-- The text of a token with its number shifted, when it is a `$n` with a number to shift. -/
def offsetToken (offset : ℕ) (kind : Kind) (text : List Char) : List Char :=
  if kind = .parameter then
    match parseUsize (text.drop 1) with
    | some number => if 0 < number ∧ number + offset < usizeLimit then '$' :: decimal (number + offset) else text
    | none => text
  else text

/-- `template`'s tokens with each `?` replaced by the marker `next` gives its index. -/
def mapTemplatePlaceholders (next : ℕ → List Char) : ℕ → List Token → List Char
  | _, [] => []
  | index, t :: rest =>
    if t.text = ['?'] ∧ t.kind = .symbol then next index ++ mapTemplatePlaceholders next (index + 1) rest
    else t.text ++ mapTemplatePlaceholders next index rest

section

variable (u : CharTables)

/-- Shift every `$n` placeholder in `sql` up by `offset`. -/
def offsetPostgresPlaceholders (sql : List Char) (offset : ℕ) : List Char :=
  if offset = 0 then sql else (tokens u sql).flatMap fun t => offsetToken offset t.kind t.text

/-- A fragment rendered on its own, spliced behind `offset` values already bound. -/
def rebasePlaceholders (db : DatabaseType) (sql : List Char) (offset : ℕ) : List Char :=
  match db with
  | .postgres => offsetPostgresPlaceholders u sql offset
  | .mySql => sql
  | .mariaDb => sql
  | .sqlite => sql

def renderTemplate (db : DatabaseType) (template : List Char) (first : ℕ) : List Char :=
  mapTemplatePlaceholders (placeholder db) first (tokens u template)

/-- `render_template` with its index a `usize` that wraps, as in a release build. -/
def renderTemplateUsize (db : DatabaseType) (template : List Char) (first : ℕ) : List Char :=
  mapTemplatePlaceholders (fun index => placeholder db (index % usizeLimit)) first (tokens u template)

/-- How many parameters a template takes. -/
def countTemplatePlaceholders (template : List Char) : ℕ :=
  (tokens u template).countP fun t => t.text = ['?'] ∧ t.kind = .symbol

end

end TideOrm
