import TideOrm.Lib.Decimal
import TideOrm.Lib.Lexer
import TideOrm.Spec.SqlSafety

/-! Search text rewritten for the full-text parsers of the databases (`internal/sql_safety/fulltext.rs`),
and what those parsers read. -/

namespace TideOrm

open Lib

structure SearchSegment where
  text : List Char
  quoted : Bool
  /-- Written right before a quoted phrase; an unquoted term keeps its operator in `text`. -/
  operator : Option Char
deriving DecidableEq

namespace SearchSegment

/-- Whether a boolean search leaves out what this segment matches. -/
def excluded (segment : SearchSegment) : Bool :=
  if segment.quoted then segment.operator == some '-' else segment.text.head? == some '-'

end SearchSegment

def isBooleanOperator (ch : Char) : Bool := ch == '+' || ch == '-' || ch == '~' || ch == '<' || ch == '>'

/-- The segment gathered in `current`, dropped when it is blank. -/
def flushSegment (current : List Char) (quoted : Bool) (operator : Option Char) : List SearchSegment :=
  let text := trim current
  if text.isEmpty then [] else [⟨text, quoted, operator⟩]

/-- The operator of a phrase that is opened when `current` is gathered. -/
def phraseOperator (current : List Char) : Option Char :=
  let pending := trim current
  if !pending.isEmpty && pending.all isBooleanOperator then pending.getLast? else none

/-- The segments of the rest of the input. -/
def segmentsFrom : List Char → Bool → Option Char → List Char → List SearchSegment
  | current, inQuotes, operator, [] => flushSegment current inQuotes operator
  | current, inQuotes, operator, ch :: rest =>
    if ch = '"' then
      if inQuotes then flushSegment current true operator ++ segmentsFrom [] false none rest
      else
        let operator := phraseOperator current
        (if operator.isSome then [] else flushSegment current false none) ++ segmentsFrom [] true operator rest
    else if isWhitespace ch && !inQuotes then flushSegment current false none ++ segmentsFrom [] false operator rest
    else segmentsFrom (current ++ [ch]) inQuotes operator rest

def splitSearchSegments (input : List Char) : List SearchSegment := segmentsFrom [] false none input

section

variable (u : CharTables)

def hasSearchableChar (text : List Char) : Bool := text.any u.isAlphanumeric

def searchWords (input : List Char) : List (List Char) :=
  (input.splitOnP fun ch => isWhitespace ch || ch == '"').filter (hasSearchableChar u)

section Postgres

def isLexemeChar (ch : Char) : Bool := u.isAlphanumeric ch || ch == '_' || ch == '\''

def lexemesFrom : List Char → List Char → List (List Char)
  | current, [] => if current.isEmpty then [] else [current]
  | current, ch :: rest =>
    if isLexemeChar u ch then lexemesFrom (current ++ [ch]) rest
    else if current.isEmpty then lexemesFrom current rest
    else current :: lexemesFrom [] rest

def extractPostgresLexemes (input : List Char) : List (List Char) := (lexemesFrom u [] input).filter (hasSearchableChar u)

def formatPostgresLexeme (lexeme : List Char) (starred : Bool) : List Char :=
  let quoted := '\'' :: (doubled '\'' lexeme ++ ['\''])
  if starred then quoted ++ [':', '*'] else quoted

/-- One phrase for each segment, and whether a boolean search excludes it. -/
def postgresTsqueryPhrases (input : List Char) (starred : Bool) (joiner : Bool → List Char) : List (List Char × Bool) :=
  (splitSearchSegments input).filterMap fun segment =>
    match (extractPostgresLexemes u segment.text).map fun lexeme => formatPostgresLexeme lexeme starred with
    | [] => none
    | [lexeme] => some (lexeme, segment.excluded)
    | lexemes => some ('(' :: ((joiner segment.quoted).intercalate lexemes ++ [')']), segment.excluded)

def sanitizePostgresTsqueryLiterals (input : List Char) (starred : Bool) : List Char :=
  [' ', '&', ' '].intercalate
    ((postgresTsqueryPhrases u input starred fun quoted => if quoted then " <-> ".toList else " & ".toList).map Prod.fst)

def postgresProximityLimit : ℕ := 64

/-- The phrases within `distance` words of each other, either way round. -/
def within (distance : ℕ) (left right : List Char) : List Char :=
  let alternatives := (List.range' 1 (min (max distance 1) postgresProximityLimit)).flatMap fun apart =>
    let follows := ' ' :: '<' :: (Nat.toDigits 10 apart ++ ['>', ' '])
    [left ++ follows ++ right, right ++ follows ++ left]
  '(' :: ([' ', '|', ' '].intercalate alternatives ++ [')'])

def sanitizePostgresProximityTsqueryLiterals (input : List Char) (distance : ℕ) : List Char :=
  let phrases := (postgresTsqueryPhrases u input false fun _ => " <-> ".toList).map Prod.fst
  if phrases.length < 2 then phrases.flatten
  else [' ', '&', ' '].intercalate (List.zipWith (within distance) phrases phrases.tail)

def sanitizePostgresBooleanTsquery (input : List Char) : List Char :=
  let phrases := postgresTsqueryPhrases u input false fun quoted => if quoted then " <-> ".toList else " & ".toList
  [' ', '&', ' '].intercalate (phrases.map fun (phrase, excluded) => if excluded then '!' :: phrase else phrase)

end Postgres

section Fts5

def doubleQuoted (text : List Char) : List Char := '"' :: (doubled '"' text ++ ['"'])

def searchableSegments (input : List Char) : List SearchSegment :=
  (splitSearchSegments input).filter fun segment => hasSearchableChar u segment.text

def escapeFts5QueryLiteralTerms (input : List Char) : List Char :=
  [' '].intercalate ((searchableSegments u input).map fun segment => doubleQuoted segment.text)

def fts5BooleanQuery (input : List Char) : List Char :=
  let (excluded, included) := (searchableSegments u input).partition SearchSegment.excluded
  if included.isEmpty then []
  else
    let query := '(' :: (" AND ".toList.intercalate (included.map fun segment => doubleQuoted segment.text) ++ [')'])
    excluded.foldl (fun query segment => query ++ " NOT ".toList ++ doubleQuoted segment.text) query

def fts5PhraseQuery (input : List Char) : List Char :=
  let words := searchWords u input
  if words.isEmpty then [] else doubleQuoted ([' '].intercalate words)

def fts5PrefixQuery (input : List Char) : List Char :=
  [' '].intercalate ((searchWords u input).map fun word => doubleQuoted word ++ ['*'])

def fts5NearQuery (input : List Char) (distance : ℕ) : List Char :=
  match (searchWords u input).map doubleQuoted with
  | [] => []
  | [word] => word
  | words => "NEAR(".toList ++ [' '].intercalate words ++ ", ".toList ++ Nat.toDigits 10 distance ++ [')']

end Fts5

section Mysql

def mysqlFulltextOperators : List Char := ['+', '-', '<', '>', '(', ')', '~', '*', '"', '@']

/-- What a word is cut at. -/
def separatesWords (ch : Char) : Bool := isWhitespace ch || mysqlFulltextOperators.contains ch

def mysqlFulltextWords (text : List Char) : List Char :=
  [' '].intercalate ((text.splitOnP separatesWords).filter (hasSearchableChar u))

/-- What a segment is written as in a boolean search, if it holds a term. -/
def mysqlSegment (segment : SearchSegment) : Option (List Char) :=
  if segment.quoted then
    let phrase := segment.text.map fun ch => if ch = '"' then ' ' else ch
    if hasSearchableChar u phrase then some (segment.operator.toList ++ '"' :: (trim phrase ++ ['"'])) else none
  else
    let operator := segment.text.head?.filter isBooleanOperator
    let words := mysqlFulltextWords u segment.text
    if words.isEmpty then none
    else some (operator.toList ++ words ++ (if segment.text.getLast? = some '*' then ['*'] else []))

def sanitizeMysqlFulltextQuery (input : List Char) (boolean : Bool) : List Char :=
  if boolean then [' '].intercalate ((splitSearchSegments input).filterMap (mysqlSegment u)) else mysqlFulltextWords u input

end Mysql

end

end TideOrm
