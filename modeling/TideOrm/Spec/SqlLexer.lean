import Mathlib.Data.List.Basic

/-! Lexical boundaries of SQL text (`internal/sql_lexer.rs`), in the standard reading and
in SQLite's. Text is a list of characters and lengths are counted in them; a token's
`start` is the byte offset the source gives. -/

namespace TideOrm

/-- Texts are told apart character by character. -/
instance lawfulBEqText : LawfulBEq (List Char) := inferInstance

/-- `char::is_whitespace`: the characters with Unicode's `White_Space` property. -/
def isWhitespace (ch : Char) : Bool :=
  let n := ch.toNat
  decide (9 ≤ n ∧ n ≤ 13) || n == 0x20 || n == 0x85 || n == 0xa0 || n == 0x1680 ||
    decide (0x2000 ≤ n ∧ n ≤ 0x200a) || n == 0x2028 || n == 0x2029 || n == 0x202f || n == 0x205f ||
    n == 0x3000

/-- `char::is_ascii_whitespace` -/
def isAsciiWhitespace (ch : Char) : Bool :=
  ch == ' ' || ch == '\t' || ch == '\n' || ch == '\x0c' || ch == '\r'

/-- White space as the lexer reads it: SQLite skips a byte order mark too. -/
def spaceChar (sqlite : Bool) (ch : Char) : Bool := isWhitespace ch || (sqlite && ch == '\ufeff')

def isAscii (ch : Char) : Bool := decide (ch.toNat < 128)

/-- The tables behind `char::is_alphabetic` and `char::is_numeric`. Only what they say of
ASCII and of white space is used. -/
structure CharTables where
  isAlphabetic : Char → Bool
  isNumeric : Char → Bool
  ascii : ∀ ch, isAscii ch = true → isAlphabetic ch = ch.isAlpha ∧ isNumeric ch = ch.isDigit
  space : ∀ ch, spaceChar true ch = true → isAlphabetic ch = false ∧ isNumeric ch = false

inductive Kind where
  | word
  | identifier
  | literal
  | comment
  | space
  | symbol
  | parameter
deriving DecidableEq

structure Token where
  text : List Char
  start : ℕ
  kind : Kind
deriving DecidableEq

inductive EscapeMode where
  | doubled
  | backslash
  | rejectAmbiguous
deriving DecidableEq

inductive QuotedRun where
  | closed
  | unterminated
  | ambiguousEscape
deriving DecidableEq

/-- Scan after an opening delimiter, from `index`; `stop` is where the text ends. `taken`
when the character before consumed the next one. -/
def quotedEnd (close : Char) (mode : EscapeMode) (stop : ℕ) : Bool → ℕ → List Char → ℕ × QuotedRun
  | _, _, [] => (stop, .unterminated)
  | true, index, _ :: rest => quotedEnd close mode stop false (index + 1) rest
  | false, index, ch :: rest =>
    if ch = '\\' ∧ mode ≠ .doubled then
      if mode = .rejectAmbiguous then
        if rest.head? = some close then (index, .ambiguousEscape)
        else quotedEnd close mode stop (decide (rest.head? = some '\\')) (index + 1) rest
      else quotedEnd close mode stop true (index + 1) rest
    else if ch = close then
      if rest.head? = some close then quotedEnd close mode stop true (index + 1) rest
      else (index + 1, .closed)
    else quotedEnd close mode stop false (index + 1) rest

/-- The run opened by the first character of `sql`, and how it ends. -/
def quotedRun (close : Char) (mode : EscapeMode) (sql : List Char) : ℕ × QuotedRun :=
  quotedEnd close mode sql.length false 1 (sql.drop 1)

def quotedLen (sql : List Char) (delimiter : Char) (backslash : Bool) : ℕ :=
  let close := if delimiter = '[' then ']' else delimiter
  (quotedRun close (if backslash then .backslash else .doubled) sql).1

def blockCommentFrom (nested : Bool) : Bool → ℕ → ℕ → List Char → ℕ
  | _, _, pos, [] => pos
  | true, depth, pos, _ :: rest => blockCommentFrom nested false depth (pos + 1) rest
  | false, depth, pos, ch :: rest =>
    if nested ∧ ch = '/' ∧ rest.head? = some '*' then blockCommentFrom nested true (depth + 1) (pos + 1) rest
    else if ch = '*' ∧ rest.head? = some '/' then
      if depth = 1 then pos + 2 else blockCommentFrom nested true (depth - 1) (pos + 1) rest
    else blockCommentFrom nested false depth (pos + 1) rest

def blockCommentLen (sql : List Char) (nested : Bool) : ℕ := blockCommentFrom nested false 1 2 (sql.drop 2)

/-- Where `pattern` first occurs. -/
def findText (pattern : List Char) : List Char → Option ℕ
  | [] => if pattern = [] then some 0 else none
  | ch :: rest => if pattern.isPrefixOf (ch :: rest) then some 0 else (findText pattern rest).map (· + 1)

section

variable (u : CharTables)

def CharTables.isAlphanumeric (ch : Char) : Bool := u.isAlphabetic ch || u.isNumeric ch

/-- Whether `ch` can continue an unquoted identifier. -/
def identifierChar (ch : Char) : Bool := ch == '_' || ch == '$' || u.isAlphanumeric ch

/-- The length of the delimiter `$$` or `$tag$` that opens `sql`. -/
def dollarTagLen (sql : List Char) : Option ℕ :=
  let tail := sql.drop 1
  let tag := tail.takeWhile fun ch => ch != '$'
  if tag.length = tail.length then none
  else if !(tag.head?.any Char.isDigit) && tag.all (fun ch => ch == '_' || u.isAlphanumeric ch) then
    some (tag.length + 2)
  else none

def dollarLen (sql : List Char) : Option ℕ :=
  match dollarTagLen u sql with
  | none => none
  | some opening =>
    let delimiter := sql.take opening
    (findText delimiter (sql.drop opening)).map fun n => opening + n + delimiter.length

/-- The parenthesized suffix of a SQLite parameter, which white space also ends. -/
def sqliteSuffixLen : ℕ → List Char → ℕ
  | pos, [] => pos
  | pos, ch :: rest =>
    if isAsciiWhitespace ch then pos
    else if ch = ')' then pos + 1
    else sqliteSuffixLen (pos + 1) rest

def sqliteNameLen : Bool → Bool → ℕ → List Char → ℕ
  | _, _, pos, [] => pos
  | hasName, true, pos, _ :: rest => sqliteNameLen hasName false (pos + 1) rest
  | hasName, false, pos, ch :: rest =>
    if identifierChar u ch || !isAscii ch then sqliteNameLen true false (pos + 1) rest
    else if ch = ':' ∧ rest.head? = some ':' then sqliteNameLen hasName true (pos + 1) rest
    else if ch = '(' ∧ hasName then sqliteSuffixLen (pos + 1) rest
    else pos

def sqliteParameterLen (sql : List Char) : ℕ := sqliteNameLen u false false 1 (sql.drop 1)

/-- Whether the `'` after `before` (the nearest character first) opens an `E` string. -/
def opensEscaped (before : List Char) : Bool :=
  match before with
  | [] => false
  | ch :: earlier => (ch == 'e' || ch == 'E') && !(earlier.head?.any (identifierChar u))

/-- The kind and the length of the token `first :: rest` begins with. -/
def lexToken (sqlite : Bool) (before : List Char) (first : Char) (rest : List Char) : Kind × ℕ :=
  let sql := first :: rest
  if spaceChar sqlite first then (.space, (sql.takeWhile (spaceChar sqlite)).length)
  else if first = '-' ∧ rest.head? = some '-' then (.comment, (sql.takeWhile fun ch => ch != '\n').length)
  else if first = '/' ∧ rest.head? = some '*' then (.comment, blockCommentLen sql !sqlite)
  else if first = '\'' ∨ first = '"' ∨ first = '`' ∨ first = '[' then
    let escaped := !sqlite && first == '\'' && opensEscaped u before
    (if first = '\'' then .literal else .identifier, quotedLen sql first escaped)
  else if sqlite ∧ (first = '$' ∨ first = ':' ∨ first = '@' ∨ first = '#') then
    (.parameter, sqliteParameterLen u sql)
  else if first = '$' then
    match dollarLen u sql with
    | some n => (.literal, n)
    | none =>
      let len := 1 + (rest.takeWhile Char.isDigit).length
      (if 1 < len then .parameter else .symbol, len)
  else if first = '_' ∨ u.isAlphabetic first then
    (.word, (sql.takeWhile (identifierChar u)).length)
  else (.symbol, 1)

/-- The tokens of `rest`, which begins at the byte `offset`, after `before`; its first
`skip` characters belong to the token before. -/
def scanFrom (sqlite : Bool) : ℕ → List Char → ℕ → List Char → List Token
  | _, _, _, [] => []
  | skip + 1, before, offset, ch :: rest => scanFrom sqlite skip (ch :: before) (offset + ch.utf8Size) rest
  | 0, before, offset, first :: rest =>
    let lexed := lexToken u sqlite before first rest
    { text := (first :: rest).take lexed.2, start := offset, kind := lexed.1 } ::
      scanFrom sqlite (lexed.2 - 1) (first :: before) (offset + first.utf8Size) rest

def scan (sql : List Char) (sqlite : Bool) : List Token := scanFrom u sqlite 0 [] 0 sql

def tokens (sql : List Char) : List Token := scan u sql false

def sqliteTokens (sql : List Char) : List Token := scan u sql true

end

end TideOrm
