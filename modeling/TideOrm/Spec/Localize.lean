import TideOrm.Spec.SqlTree

/-! The rebinding of a stored MySQL definition to another database (`schema/writer/mysql_objects.rs`),
and the text as MySQL reads it. Offsets are in bytes, as the source counts them. -/

namespace TideOrm

def charBoundary (text : List Char) (index : ℕ) : Bool := utf8Len (takeBytes index text) == index

/-- `&text[start..stop]`, which panics off the boundaries of characters. -/
def strSlice (text : List Char) (start stop : ℕ) : Option (List Char) :=
  if start ≤ stop ∧ charBoundary text start ∧ charBoundary text stop then some (sliceBytes text start stop) else none

/-- `String::replace_range` by the empty text. -/
def removeRange (text : List Char) (range : ℕ × ℕ) : Option (List Char) :=
  if range.1 ≤ range.2 ∧ charBoundary text range.1 ∧ charBoundary text range.2 then
    some (takeBytes range.1 text ++ dropBytes range.2 text)
  else none

def modeHas (mode : List Char) (name : String) : Bool := (mode.splitOn ',').contains name.toList

def backslashEscapes (mode : List Char) : Bool := !modeHas mode "NO_BACKSLASH_ESCAPES"

def ansiQuotes (mode : List Char) : Bool := modeHas mode "ANSI_QUOTES"

/-- A token, the bytes from `start` to `stop`, with the text compared; `ident` when it is a name. -/
structure MysqlToken where
  start : ℕ
  stop : ℕ
  text : List Char
  ident : Bool
deriving DecidableEq

/-- Whether a comment up to the end of the line begins here. -/
def lineComment (first : Char) (rest : List Char) : Bool :=
  first == '#' ||
    (first == '-' && rest.head? == some '-' &&
      (rest.drop 1).head?.any fun ch => isAsciiWhitespace ch || decide (ch.toNat < 32) || ch == '\x7f')

section

variable (u : CharTables)

/-- The tokens of `rest`, which begins at the byte `pos`; its first `skip` characters are
read. None when a slice of a quoted identifier panics. -/
def mysqlTokensFrom (backslash ansi : Bool) : ℕ → ℕ → List Char → Option (List MysqlToken)
  | _, _, [] => some []
  | skip + 1, pos, ch :: rest => mysqlTokensFrom backslash ansi skip (pos + ch.utf8Size) rest
  | 0, pos, ch :: rest =>
    let sql := ch :: rest
    let next := pos + ch.utf8Size
    if isWhitespace ch then mysqlTokensFrom backslash ansi 0 next rest
    else if ch = '/' ∧ rest.head? = some '*' then
      mysqlTokensFrom backslash ansi (blockCommentLen sql false - 1) next rest
    else if lineComment ch rest then
      mysqlTokensFrom backslash ansi ((sql.takeWhile fun ch => ch != '\n').length - 1) next rest
    else if ch = '\'' ∨ ch = '"' ∨ ch = '`' then
      let len := quotedLen sql ch (backslash && ch != '`')
      let bytes := utf8Len (sql.take len)
      if ch = '`' ∨ ch = '"' ∧ ansi then
        (strSlice sql 1 (bytes - 1)).bind fun body =>
          (mysqlTokensFrom backslash ansi (len - 1) next rest).map fun tokens =>
            ⟨pos, pos + bytes, undouble ch body, true⟩ :: tokens
      else
        (mysqlTokensFrom backslash ansi (len - 1) next rest).map fun tokens => ⟨pos, pos + bytes, [], false⟩ :: tokens
    else if ch = '_' ∨ u.isAlphabetic ch then
      let word := sql.takeWhile (identifierChar u)
      (mysqlTokensFrom backslash ansi (word.length - 1) next rest).map fun tokens =>
        ⟨pos, pos + utf8Len word, word, true⟩ :: tokens
    else (mysqlTokensFrom backslash ansi 0 next rest).map fun tokens => ⟨pos, next, [ch], false⟩ :: tokens

end

/-- Whether a comma introduces another table, and whether a table comes next. -/
structure RelationContext where
  list : Bool
  expects : Bool

/-- The contexts of the open parentheses, the innermost apart. -/
structure LocalizePass where
  context : RelationContext
  outer : List RelationContext
  triggerHeader : Bool
  indexHeader : Bool

/-- The keywords a list of tables follows. -/
def RELATION_LIST_KEYWORDS : List String := ["DELETE", "FROM", "JOIN", "USING", "TABLE", "TABLES"]

/-- The keywords one qualified name follows. -/
def RELATION_KEYWORDS : List String :=
  ["INTO", "REFERENCES", "CALL", "TO", "TRUNCATE", "DESCRIBE", "DESC", "VIEW", "FUNCTION", "PROCEDURE", "TRIGGER",
    "EVENT", "SEQUENCE"]

def CLAUSE_KEYWORDS : List String :=
  ["SELECT", "WHERE", "HAVING", "GROUP", "ORDER", "LIMIT", "SET", "VALUES", "RETURNING", "UNION"]

/-- The words that may stand before an expected name. -/
def RELATION_MODIFIERS : List String :=
  ["IF", "NOT", "EXISTS", "ONLY", "LOW_PRIORITY", "HIGH_PRIORITY", "DELAYED", "IGNORE", "LATERAL"]

/-- One token of the pass; `word` when it is an unquoted one. None when the loop goes on to
the next token, else whether a table was expected here. -/
def LocalizePass.read (s : LocalizePass) (previous : Option MysqlToken) (token : MysqlToken) (word : Bool)
    (next : Option MysqlToken) : LocalizePass × Option Bool :=
  let upper := String.ofList (if word then token.text.map Char.toUpper else [])
  if token.text = ['('] then
    ({ s with
      context := ⟨s.context.expects, s.context.expects⟩
      outer := { s.context with expects := false } :: s.outer }, none)
  else if token.text = [')'] then
    match s.outer with
    | [] => (s, none)
    | context :: outer => ({ s with context := context, outer := outer }, none)
  else
    let s := if token.text = [';'] then ⟨⟨false, false⟩, s.outer, false, false⟩ else s
    if token.text = [','] ∧ s.context.list then ({ s with context := { s.context with expects := true } }, none)
    else
      let s := if upper = "INDEX" then { s with indexHeader := true } else s
      let s := if upper = "TRIGGER" then { s with triggerHeader := true } else s
      let s := if s.triggerHeader ∧ upper = "FOR" then { s with triggerHeader := false } else s
      if upper ∈ RELATION_LIST_KEYWORDS then ({ s with context := ⟨true, true⟩ }, none)
      else if upper = "UPDATE" ∧ ¬(previous.any fun t => eqIgnoreAsciiCase t.text "KEY".toList) then
        ({ s with context := ⟨true, true⟩ }, none)
      else if (upper = "INSERT" ∨ upper = "REPLACE") ∧ next.all fun t => t.text != ['('] then
        ({ s with context := { s.context with expects := true } }, none)
      else if upper ∈ RELATION_KEYWORDS then ({ s with context := { s.context with expects := true } }, none)
      else if upper = "ON" ∧ (s.triggerHeader ∨ s.indexHeader) then
        ({ s with context := { s.context with expects := true }, indexHeader := false }, none)
      else if upper ∈ CLAUSE_KEYWORDS then ({ s with context := ⟨false, false⟩ }, none)
      else if upper ∈ RELATION_MODIFIERS ∧ s.context.expects then (s, none)
      else
        ({ s with context := { s.context with expects := s.context.expects && !token.ident } }, some s.context.expects)

/-- Whether `name` is the database's, in any case when names fold. -/
def namesDatabase (database : List Char) (foldNames : Bool) (name : List Char) : Bool :=
  name == database || (foldNames && eqIgnoreAsciiCase name database)

/-- The ranges of the qualifiers to remove, from the tokens not yet read. -/
def removalsFrom (sql database : List Char) (foldNames : Bool) :
    LocalizePass → Option MysqlToken → List MysqlToken → List (ℕ × ℕ)
  | _, _, [] => []
  | s, previous, token :: rest =>
    let word := token.ident && !((dropBytes token.start sql).head?.any fun ch => ch == '`' || ch == '"')
    let run := s.read previous token word rest.head?
    let others := removalsFrom sql database foldNames run.1 (some token) rest
    match run.2, rest with
    | some relation, dot :: name :: tail =>
      if token.ident ∧ namesDatabase database foldNames token.text ∧ dot.text = ['.'] ∧ name.ident ∧
          (relation ∨ tail.head?.any fun t => t.text == ['.'] || t.text == ['(']) then
        (token.start, dot.stop) :: others
      else others
    | _, _ => others

/-- The text bound to the database in use; none when the function panics. -/
def localize (u : CharTables) (sql database mode : List Char) (foldNames : Bool) : Option (List Char) :=
  (mysqlTokensFrom u (backslashEscapes mode) (ansiQuotes mode) 0 0 sql).bind fun tokens =>
    let remove := removalsFrom sql database foldNames ⟨⟨false, false⟩, [], false, false⟩ none tokens
    remove.foldr (fun range output => output.bind fun text => removeRange text range) (some sql)

/-- A character of an unquoted MySQL name, which may begin with any of them. -/
def mysqlNameChar (ch : Char) : Bool := ch.isAlphanum || ch == '_' || ch == '$' || !isAscii ch

/-- A character of the name of a variable or of a host. -/
def variableChar (ch : Char) : Bool := mysqlNameChar ch || ch == '.' || ch == '@'

/-- MySQL's own reading: a quoted identifier is closed by the first undoubled quote, a
string's quote may also be escaped; a run of digits alone is no name; `@` begins a variable
or the host of an account. -/
def mysqlToken (backslash ansi : Bool) (_before : List Char) (first : Char) (rest : List Char) : Kind × ℕ :=
  let sql := first :: rest
  if isAscii first ∧ isWhitespace first then (.space, 1)
  else if first = '/' ∧ rest.head? = some '*' then (.comment, blockCommentLen sql false)
  else if lineComment first rest then (.comment, (sql.takeWhile fun ch => ch != '\n').length)
  else if first = '`' ∨ first = '"' ∧ ansi then (.identifier, quotedLen sql first false)
  else if first = '\'' ∨ first = '"' then (.literal, quotedLen sql first backslash)
  else if mysqlNameChar first then
    let run := sql.takeWhile mysqlNameChar
    (if run.all Char.isDigit then .symbol else .word, run.length)
  else if first = '@' then (.parameter, (sql.takeWhile variableChar).length)
  else (.symbol, 1)

def mysqlReading (mode sql : List Char) : List (Kind × List Char) :=
  readFrom (mysqlToken (backslashEscapes mode) (ansiQuotes mode)) 0 [] sql

/-- Whether the quoted run is closed, by its last character. -/
def closedRun (escapes : EscapeMode) (text : List Char) : Bool :=
  text.head?.any fun first => quotedRun first escapes text == (text.length, .closed)

def stringEscapes (backslash : Bool) : EscapeMode := if backslash then .backslash else .doubled

/-- Whether a quoted token is terminated under MySQL's rules. -/
def terminated (backslash : Bool) (piece : Kind × List Char) : Bool :=
  match piece.1 with
  | .literal => closedRun (stringEscapes backslash) piece.2
  | .identifier => closedRun .doubled piece.2
  | _ => true

/-- Whether a double-quoted identifier ends where a string in double quotes would. -/
def endsAsString (backslash : Bool) (piece : Kind × List Char) : Bool :=
  piece.1 != .identifier || piece.2.head? != some '"' || closedRun (stringEscapes backslash) piece.2

/-- What an identifier spells. -/
def pieceName (piece : Kind × List Char) : Option (List Char) :=
  match piece.1, piece.2 with
  | .word, text => some text
  | .identifier, first :: rest => some (undouble first rest.dropLast)
  | _, _ => none

/-- A blank or a comment. -/
def blankPiece (piece : Kind × List Char) : Bool := piece.1 == .space || piece.1 == .comment

section

variable (u : CharTables)

/-- A word begins at a letter or an underscore, wherever it stands. -/
def wordPart (_before : List Char) (first : Char) (rest : List Char) : Kind × ℕ :=
  if first = '_' ∨ u.isAlphabetic first then (.word, ((first :: rest).takeWhile (identifierChar u)).length)
  else (.symbol, 1)

/-- A name, number or variable, cut into the words and single characters in it unless it is
one; the cuttings have the kind of a parameter. -/
def pieceParts (piece : Kind × List Char) : List (Kind × List Char) :=
  if piece.1 = .word ∨ piece.1 = .parameter ∨ piece.1 = .symbol then
    let parts := readFrom (wordPart u) 0 [] piece.2
    if parts = [piece] then [piece] else parts.map fun part => (.parameter, part.2)
  else [piece]

/-- Whether the piece or cutting is a word or an identifier. -/
def pieceIdent (piece : Kind × List Char) : Bool :=
  if piece.1 = .parameter then piece.2.head?.any fun ch => ch == '_' || u.isAlphabetic ch else (pieceName piece).isSome

/-- What it spells. -/
def pieceText (piece : Kind × List Char) : List Char :=
  match piece.1 with
  | .symbol | .parameter => piece.2
  | _ => (pieceName piece).getD []

/-- A blank, a comment, or a cutting that is white space outside ASCII. -/
def skippedPiece (piece : Kind × List Char) : Bool :=
  blankPiece piece || (piece.1 == .parameter && piece.2.all isWhitespace)

/-- Whether a word that spells the database and has a dot after it is always a whole name of
MySQL's, with a dot of its own and MySQL's blanks between. -/
def bareDots (names : List Char → Bool) : List (Kind × List Char) → Bool
  | [] => true
  | piece :: rest =>
    let next := (rest.dropWhile skippedPiece).head?
    (!(pieceIdent u piece && names (pieceText piece) && next.any fun next => pieceText next == ['.']) ||
        (piece.1 != .parameter && (rest.takeWhile skippedPiece).all blankPiece && next == some (.symbol, ['.']))) &&
      bareDots names rest

end

/-- What is left when some qualifiers are deleted: an identifier with one of the `names`, the
dot after it and the blanks and comments between them. -/
inductive Unqualified (names : List Char → Bool) : List (Kind × List Char) → List (Kind × List Char) → Prop
  | nil : Unqualified names [] []
  | keep (piece : Kind × List Char) {rest kept : List (Kind × List Char)} (h : Unqualified names rest kept) :
    Unqualified names (piece :: rest) (piece :: kept)
  | delete (piece : Kind × List Char) (name : List Char) (hname : pieceName piece = some name) (hnames : names name = true)
    (blanks : List (Kind × List Char)) (hblanks : ∀ blank ∈ blanks, blankPiece blank = true)
    {rest kept : List (Kind × List Char)} (h : Unqualified names rest kept) :
    Unqualified names (piece :: (blanks ++ (.symbol, ['.']) :: rest)) kept

end TideOrm
