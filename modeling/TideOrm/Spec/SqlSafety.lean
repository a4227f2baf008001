import TideOrm.Spec.SqlLexer

/-! The filter raw SQL fragments pass (`internal/sql_safety.rs`): a scan of its own for
statement separators and comments outside quotes. -/

namespace TideOrm

def isQuote (ch : Char) : Bool := ch == '\'' || ch == '"' || ch == '`'

section

variable (u : CharTables)

/-- Whether the `$` that begins `sql` opens a dollar-quoted string: one starting a token. -/
def startsDollarQuote (previous : Option Char) (sql : List Char) : Bool :=
  let tail := sql.drop 1
  let tag := tail.takeWhile fun ch => ch != '$'
  !(previous.any (identifierChar u)) &&
    (decide (tag.length ≠ tail.length) && (dollarTagLen u (sql.take (tag.length + 2))).isSome)

/-- Whether the `[` that begins `sql` and the next `]` hold a quote. -/
def bracketHoldsQuote (sql : List Char) : Bool := ((sql.drop 1).takeWhile fun ch => ch != ']').any isQuote

def consumeQuotedRun (sql : List Char) (quote : Char) : ℕ × QuotedRun := quotedRun quote .rejectAmbiguous sql

/-- What a raw fragment may not contain and `rest` does, after the character `previous`;
the first `skip` characters are inside a quoted run. -/
def findForbiddenFrom : ℕ → Option Char → List Char → Option String
  | _, _, [] => none
  | skip + 1, _, ch :: rest => findForbiddenFrom skip (some ch) rest
  | 0, previous, ch :: rest =>
    if ch = '\'' then
      match consumeQuotedRun (ch :: rest) ch with
      | (consumed, .closed) => findForbiddenFrom (consumed - 1) (some ch) rest
      | (_, .unterminated) => some "unterminated string literals"
      | (_, .ambiguousEscape) => some "backslash-escaped quotes inside string literals"
    else if ch = '"' ∨ ch = '`' then
      match consumeQuotedRun (ch :: rest) ch with
      | (consumed, .closed) => findForbiddenFrom (consumed - 1) (some ch) rest
      | (_, .unterminated) => some "unterminated quoted identifiers"
      | (_, .ambiguousEscape) => some "backslash-escaped quotes inside quoted identifiers"
    else if ch = '$' ∧ startsDollarQuote u previous (ch :: rest) then some "dollar-quoted strings"
    else if ch = '[' ∧ bracketHoldsQuote (ch :: rest) then some "quotes inside square brackets"
    else if ch = ';' then some "statement separators"
    else if ch = '\x00' then some "NUL bytes"
    else if ch = '#' then some "SQL comments"
    else if ch = '-' ∧ rest.head? = some '-' then some "SQL comments"
    else if ch = '/' ∧ rest.head? = some '*' then some "SQL comments"
    else if ch = '*' ∧ rest.head? = some '/' then some "SQL comments"
    else findForbiddenFrom 0 (some ch) rest

def findForbiddenRawSqlToken (sql : List Char) : Option String := findForbiddenFrom u 0 none sql

/-- `str::trim` -/
def trim (sql : List Char) : List Char :=
  ((sql.dropWhile isWhitespace).reverse.dropWhile isWhitespace).reverse

def validateRawSqlFragment (kind : String) (sql : List Char) : Except String Unit :=
  let trimmed := trim sql
  if trimmed.isEmpty then .error s!"unsafe {kind}: SQL fragment cannot be empty"
  else
    match findForbiddenRawSqlToken u trimmed with
    | some reason => .error s!"unsafe {kind}: raw SQL fragments may not contain {reason}; use parameterized query builder APIs instead"
    | none => .ok ()

end

end TideOrm
