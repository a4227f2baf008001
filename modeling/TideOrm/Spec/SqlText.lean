import TideOrm.Spec.SqlSafety

/-! When a token is closed: it is read the same whatever is written after it. -/

namespace TideOrm

/-- Whether the block comment that `depth` levels are open of ends in `rest`. -/
def blockCommentClosed (nested : Bool) : Bool → ℕ → List Char → Bool
  | _, _, [] => false
  | true, depth, _ :: rest => blockCommentClosed nested false depth rest
  | false, depth, ch :: rest =>
    if nested ∧ ch = '/' ∧ rest.head? = some '*' then blockCommentClosed nested true (depth + 1) rest
    else if ch = '*' ∧ rest.head? = some '/' then
      if depth = 1 then true else blockCommentClosed nested true (depth - 1) rest
    else blockCommentClosed nested false depth rest

section

variable (u : CharTables)

/-- Whether the token `first :: rest` begins with is closed: no quoted run, bracket,
comment or dollar quote is left open, and no SQLite parameter has a name. -/
def closedToken (sqlite : Bool) (before : List Char) (first : Char) (rest : List Char) : Bool :=
  let sql := first :: rest
  if spaceChar sqlite first then true
  else if first = '-' ∧ rest.head? = some '-' then sql.contains '\n'
  else if first = '/' ∧ rest.head? = some '*' then blockCommentClosed (!sqlite) false 1 (sql.drop 2)
  else if first = '\'' ∨ first = '"' ∨ first = '`' ∨ first = '[' then
    let escaped := !sqlite && first == '\'' && opensEscaped u before
    (quotedRun (if first = '[' then ']' else first) (if escaped then .backslash else .doubled) sql).2 == .closed
  else if sqlite ∧ (first = '$' ∨ first = ':' ∨ first = '@' ∨ first = '#') then false
  else if first = '$' then (dollarTagLen u sql).isNone || (dollarLen u sql).isSome
  else true

end

end TideOrm
