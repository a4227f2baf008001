import TideOrm.Spec.SqlSafety
import TideOrm.Spec.TableTags

/-! The check of a subquery written as SQL (`internal/sql_safety.rs`): a scan for its words and
symbols that counts parentheses on the way. -/

namespace TideOrm

/-- Whether the token is one of `words`, in any case. -/
def Token.isWord (token : Token) (words : List (List Char)) : Bool := token.kind == .word && anyKeyword words token.text

/-- The length of the number that begins `sql`. -/
def numericLiteralLen (sql : List Char) : ℕ :=
  let digits := 1 + ((sql.drop 1).takeWhile fun ch => ch.isDigit || ch == '.' || ch == '_').length
  match sql.drop digits with
  | [] => digits
  | ch :: rest =>
    if ch = 'e' ∨ ch = 'E' then
      let sign := if rest.head? = some '+' ∨ rest.head? = some '-' then 1 else 0
      let exponent := ((rest.drop sign).takeWhile Char.isDigit).length
      if exponent = 0 then digits else digits + 1 + sign + exponent
    else digits

/-- The characters of an ASCII word. -/
def isWordChar (ch : Char) : Bool := ch == '_' || ch.isAlphanum

/-- One top-level lexical unit of a raw fragment: a bare word at the given parenthesis depth,
`called` when a `(` follows it, or another character outside a literal, a number or a parenthesis. -/
inductive SqlToken where
  | word (text : List Char) (depth : ℕ) (called : Bool)
  | symbol (ch : Char)

/-- The words and symbols of the text, the first `skip` characters of which are read. -/
def scanSqlTokensFrom (kind : String) : ℕ → ℕ → List Char → Except String (List SqlToken)
  | _, parenDepth, [] => if parenDepth ≠ 0 then .error s!"unsafe {kind}: unbalanced parentheses" else .ok []
  | skip + 1, parenDepth, _ :: rest => scanSqlTokensFrom kind skip parenDepth rest
  | 0, parenDepth, ch :: rest =>
    if isWhitespace ch then scanSqlTokensFrom kind 0 parenDepth rest
    else if ch = '\'' then
      match consumeQuotedRun (ch :: rest) ch with
      | (consumed, .closed) => scanSqlTokensFrom kind (consumed - 1) parenDepth rest
      | _ => .error s!"unsafe {kind}: unterminated string literal"
    else if ch = '"' ∨ ch = '`' then
      match consumeQuotedRun (ch :: rest) ch with
      | (consumed, .closed) => scanSqlTokensFrom kind (consumed - 1) parenDepth rest
      | _ => .error s!"unsafe {kind}: unterminated quoted identifier"
    else if ch = '(' then scanSqlTokensFrom kind 0 (parenDepth + 1) rest
    else if ch = ')' then
      if parenDepth = 0 then .error s!"unsafe {kind}: unbalanced closing parenthesis"
      else scanSqlTokensFrom kind 0 (parenDepth - 1) rest
    else if ch.isDigit then scanSqlTokensFrom kind (numericLiteralLen (ch :: rest) - 1) parenDepth rest
    else if ch = '_' ∨ ch.isAlpha then
      let text := (ch :: rest).takeWhile isWordChar
      let next := ((ch :: rest).drop text.length).dropWhile isWhitespace
      (scanSqlTokensFrom kind (text.length - 1) parenDepth rest).map fun tokens =>
        .word text parenDepth (decide (next.head? = some '(')) :: tokens
    else (scanSqlTokensFrom kind 0 parenDepth rest).map fun tokens => .symbol ch :: tokens

def scanSqlTokens (sql : List Char) (kind : String) : Except String (List SqlToken) := scanSqlTokensFrom kind 0 0 sql

/-- The word a token is, lowercased, when it stands outside any parentheses, and whether a `(`
follows it. -/
def SqlToken.topLevelWord? : SqlToken → Option (List Char × Bool)
  | .word text 0 called => some (text.map Char.toLower, called)
  | _ => none

def collectTopLevelSqlWords (sql : List Char) (kind : String) : Except String (List (List Char × Bool)) :=
  (scanSqlTokens sql kind).map fun tokens => tokens.filterMap SqlToken.topLevelWord?

def FORBIDDEN_TOP_LEVEL_SUBQUERY_KEYWORDS : List (List Char) :=
  ["insert".toList, "update".toList, "delete".toList, "drop".toList, "alter".toList, "create".toList,
    "truncate".toList, "returning".toList, "merge".toList, "replace".toList, "upsert".toList, "grant".toList,
    "revoke".toList, "call".toList, "execute".toList, "values".toList]

def isForbiddenTopLevelSubqueryKeyword (token : List Char) : Bool := FORBIDDEN_TOP_LEVEL_SUBQUERY_KEYWORDS.contains token

def SET_OPERATIONS : List (List Char) := ["union".toList, "intersect".toList, "except".toList]

section

variable (u : CharTables)

def validateSubquerySqlWithMode (sql : List Char) (allowTopLevelSetOps : Bool) : Except String Unit := do
  validateRawSqlFragment u "subquery" sql
  let topLevelWords ← collectTopLevelSqlWords sql "subquery"
  let firstWord := topLevelWords.head?.map Prod.fst
  if ¬ (firstWord = some "select".toList ∨ firstWord = some "with".toList) then
    .error "unsafe subquery: expected a SELECT/WITH query generated by QueryBuilder"
  else if firstWord = some "with".toList ∧ ¬ topLevelWords.any (fun word => word.1 == "select".toList) then
    .error "unsafe subquery: WITH queries must terminate in a top-level SELECT statement"
  else
    -- a forbidden word followed by `(` names a function
    match topLevelWords.find? fun word => !word.2 && isForbiddenTopLevelSubqueryKeyword word.1 with
    | some (token, _) =>
      .error s!"unsafe subquery: keyword '{String.ofList token}' is not allowed in raw subquery fragments"
    | none =>
      match if allowTopLevelSetOps then none else topLevelWords.find? fun word => SET_OPERATIONS.contains word.1 with
      | some (token, _) =>
        .error s!"unsafe subquery: top-level '{String.ofList token}' queries are not allowed here; use QueryBuilder union()/union_all()/with_recursive_cte() APIs instead"
      | none => .ok ()

def validateSubquerySql (sql : List Char) : Except String Unit := validateSubquerySqlWithMode u sql false

def validateCompoundSubquerySql (sql : List Char) : Except String Unit := validateSubquerySqlWithMode u sql true

end

end TideOrm
