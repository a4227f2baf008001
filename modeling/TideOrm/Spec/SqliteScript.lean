import TideOrm.Lib.Lexer
import TideOrm.Lib.Radix
import TideOrm.Spec.ForeignKeys
import TideOrm.Spec.QuotedTokens

/-! Scripts as SQLite reads them: the tokens of a text by SQLite's own rules, its statements, and what
a `PRAGMA` statement asks for. -/

namespace TideOrm

/-- `sqlite3Isspace` -/
def isSqliteSpace (ch : Char) : Bool := isAsciiWhitespace ch || ch == '\x0b'

/-- What SQLite takes into a name: any character outside ASCII too. -/
def isIdChar (ch : Char) : Bool := !isAscii ch || ch == '_' || ch == '$' || ch.isAlphanum

/-- What begins a name: no digit and no `$`, and not the byte order mark. -/
def startsName (ch : Char) : Bool := ch == '_' || ch.isAlpha || (!isAscii ch && ch != '\ufeff')

/-- SQLite's `nm`: a name, bare or quoted, or a string. -/
inductive Nm where
  | bare (text : List Char)
  | quoted (quote : Char) (content : List Char)
deriving DecidableEq

namespace Nm

/-- What the name spells. -/
def text : Nm → List Char
  | bare text => text
  | quoted _ content => content

/-- How the name is written: quotes in it are doubled. -/
def spell : Nm → List Char
  | bare text => text
  | quoted quote content => quote :: (Lib.doubled (closingQuote quote) content ++ [closingQuote quote])

end Nm

/-- A token of SQLite's. A `blank` separates other tokens, and `blob` is the whole literal with the strings right behind it. -/
inductive SqliteToken where
  | blank (text : List Char)
  | name (nm : Nm)
  | number (text : List Char)
  | parameter (text : List Char)
  | blob (mark : Char) (content : List Char)
  | symbol (text : List Char)
deriving DecidableEq

def SqliteToken.spell : SqliteToken → List Char
  | blank text => text
  | name nm => nm.spell
  | number text => text
  | parameter text => text
  | blob mark content => mark :: (Nm.quoted '\'' content).spell
  | symbol text => text

def SQLITE_SYMBOLS : List (List Char) :=
  ["-", "->", "->>", "(", ")", ";", "+", "*", "/", "%", "=", "==", "<", "<=", "<>", "<<", ">", ">=", ">>", "!=", "|", "||", ",",
    "&", "~", "."].map String.toList

/-- Digits and the separators between them. -/
inductive DigitRun : List Char → Prop where
  | intro {first : Char} {more : List Char} (hfirst : first.isDigit = true) (hmore : ∀ ch ∈ more, (ch.isDigit || ch == '_') = true) :
      DigitRun (first :: more)

inductive Exponent : List Char → Prop where
  | none : Exponent []
  | some {mark : Char} {sign digits : List Char} (hmark : mark = 'e' ∨ mark = 'E') (hsign : sign ∈ [[], ['+'], ['-']])
      (hdigits : DigitRun digits) : Exponent (mark :: (sign ++ digits))

/-- A number, without its sign. -/
inductive SqliteNumber : List Char → Prop where
  | hex {mark first : Char} {more : List Char} (hmark : mark = 'x' ∨ mark = 'X') (hfirst : isHexDigit first = true)
      (hmore : ∀ ch ∈ more, (isHexDigit ch || ch == '_') = true) : SqliteNumber ('0' :: mark :: first :: more)
  | whole {digits exponent : List Char} (hdigits : DigitRun digits) (hexponent : Exponent exponent) : SqliteNumber (digits ++ exponent)
  | decimal {digits fraction exponent : List Char} (hdigits : DigitRun digits)
      (hfraction : ∀ ch ∈ fraction, (ch.isDigit || ch == '_') = true) (hexponent : Exponent exponent) :
      SqliteNumber (digits ++ '.' :: (fraction ++ exponent))
  | fraction {digits exponent : List Char} (hdigits : DigitRun digits) (hexponent : Exponent exponent) :
      SqliteNumber ('.' :: (digits ++ exponent))

/-- The name of a parameter, with `::` in it. The index says whether it has a character of its own. -/
inductive ParameterName : Bool → List Char → Prop where
  | nil : ParameterName false []
  | char {ch : Char} {named : Bool} {rest : List Char} (h : isIdChar ch = true) (hrest : ParameterName named rest) : ParameterName true (ch :: rest)
  | path {named : Bool} {rest : List Char} (hrest : ParameterName named rest) : ParameterName named (':' :: ':' :: rest)

namespace SqliteToken

/-- The token stands before `rest`, and is as long as it can be there. -/
inductive Before : SqliteToken → List Char → Prop where
  | space {ch : Char} {text rest : List Char} (hfirst : isAsciiWhitespace ch = true) (h : ∀ ch ∈ text, isSqliteSpace ch = true) :
      Before (blank (ch :: text)) rest
  | byteOrderMark {rest : List Char} : Before (blank ['\ufeff']) rest
  | line {text rest : List Char} (h : '\n' ∉ text) (hrest : ∀ ch ∈ rest.head?, ch = '\n') : Before (blank ('-' :: '-' :: text)) rest
  | block {text rest : List Char} (h : ¬['*', '/'] <:+: text) : Before (blank ('/' :: '*' :: (text ++ ['*', '/']))) rest
  | unclosed {text : List Char} (hne : text ≠ []) (h : ¬['*', '/'] <:+: text) : Before (blank ('/' :: '*' :: text)) []
  | bare {ch : Char} {text rest : List Char} (hfirst : startsName ch = true) (h : ∀ ch ∈ text, isIdChar ch = true)
      (hrest : ∀ ch ∈ rest.head?, isIdChar ch = false)
      -- `x'` opens a blob
      (hblob : ch :: text = ['x'] ∨ ch :: text = ['X'] → rest.head? ≠ some '\'') : Before (name (.bare (ch :: text))) rest
  | quoted {quote : Char} {content rest : List Char} (hquote : quote = '\'' ∨ quote = '"' ∨ quote = '`' ∨ quote = '[')
      (hbracket : quote = '[' → ']' ∉ content) (hrest : rest.head? ≠ some (closingQuote quote)) : Before (name (.quoted quote content)) rest
  | number {text rest : List Char} (h : SqliteNumber text) (hrest : ∀ ch ∈ rest.head?, isIdChar ch = false ∧ ch ≠ '.') :
      Before (number text) rest
  | numbered {text rest : List Char} (h : ∀ ch ∈ text, ch.isDigit = true) (hrest : ∀ ch ∈ rest.head?, ch.isDigit = false) :
      Before (parameter ('?' :: text)) rest
  | named {sigil : Char} {name rest : List Char} (hsigil : sigil = '$' ∨ sigil = ':' ∨ sigil = '@' ∨ sigil = '#') (h : ParameterName true name)
      (hrest : ∀ ch ∈ rest.head?, isIdChar ch = false ∧ ch ≠ '(') (hpath : rest.take 2 ≠ [':', ':']) :
      Before (parameter (sigil :: name)) rest
  | called {sigil : Char} {name suffix rest : List Char} (hsigil : sigil = '$' ∨ sigil = ':' ∨ sigil = '@' ∨ sigil = '#')
      (h : ParameterName true name) (hsuffix : ∀ ch ∈ suffix, isSqliteSpace ch = false ∧ ch ≠ ')') :
      Before (parameter (sigil :: (name ++ '(' :: (suffix ++ [')'])))) rest
  | blob {mark : Char} {content rest : List Char} (hmark : mark = 'x' ∨ mark = 'X') (hrest : rest.head? ≠ some '\'') :
      Before (blob mark content) rest
  | symbol {text rest : List Char} (h : text ∈ SQLITE_SYMBOLS)
      (hrest : ∀ ch ∈ rest.head?, text ++ [ch] ∉ SQLITE_SYMBOLS ∧ text ++ [ch] ≠ "--".toList ∧ text ++ [ch] ≠ "/*".toList)
      (hdot : text = ['.'] → ∀ ch ∈ rest.head?, ch.isDigit = false) : Before (symbol text) rest

end SqliteToken

/-- SQLite reads the text as these tokens. -/
inductive SqliteReads : List Char → List SqliteToken → Prop where
  | nil : SqliteReads [] []
  | cons {token : SqliteToken} {rest : List Char} {tokens : List SqliteToken} (h : token.Before rest) (hrest : SqliteReads rest tokens) :
      SqliteReads (token.spell ++ rest) (token :: tokens)

def SqliteToken.significant : SqliteToken → Bool
  | blank _ => false
  | _ => true

/-- The statements, without blanks and comments. -/
def sqliteStatements (tokens : List SqliteToken) : List (List SqliteToken) :=
  (tokens.filter SqliteToken.significant).splitOnP fun token => token == .symbol [';']

/-- The value a pragma is given. -/
inductive PragmaValue where
  | name (nm : Nm)
  | number (text : List Char)
  | plus (text : List Char)
  | minus (text : List Char)

namespace PragmaValue

def tokens : PragmaValue → List SqliteToken
  | name nm => [.name nm]
  | number text => [.number text]
  | plus text => [.symbol ['+'], .number text]
  | minus text => [.symbol ['-'], .number text]

/-- What SQLite converts: a unary plus is dropped. -/
def text : PragmaValue → List Char
  | name nm => nm.text
  | number text => text
  | plus text => text
  | minus text => '-' :: text

end PragmaValue

/-- How the value is given: behind `=`, behind `==` or in parentheses. -/
inductive PragmaForm where
  | single
  | double
  | called
deriving DecidableEq

def PragmaForm.wrap : PragmaForm → List SqliteToken → List SqliteToken
  | single, value => .symbol ['='] :: value
  | double, value => .symbol ['=', '='] :: value
  | called, value => .symbol ['('] :: (value ++ [.symbol [')']])

/-- A `PRAGMA` statement. -/
structure Pragma where
  keyword : List Char
  isPragma : eqIgnoreAsciiCase keyword "pragma".toList = true
  schema : Option Nm
  name : Nm
  argument : Option (PragmaForm × PragmaValue)

def Pragma.tokens (p : Pragma) : List SqliteToken :=
  .name (.bare p.keyword) :: ((p.schema.elim [] fun schema => [.name schema, .symbol ['.']]) ++
    .name p.name :: p.argument.elim [] fun argument => argument.1.wrap argument.2.tokens)

/-- The integer that the digits write, if it is a signed 32-bit one. -/
def pragmaInteger (radix : ℕ) (digits : List Char) : ℕ :=
  let number := Lib.radixValue radix (digits.map hexDigitValue)
  if number ≤ 2147483647 then number else 0

/-- The integer a value begins with. -/
def leadingInteger (value : List Char) : ℕ :=
  if value.head? = some '0' ∧ (value[1]? = some 'x' ∨ value[1]? = some 'X') ∧ value[2]?.any isHexDigit then
    pragmaInteger 16 ((value.drop 2).takeWhile isHexDigit)
  else pragmaInteger 10 (value.takeWhile Char.isDigit)

/-- Whether SQLite reads the value as false. -/
def pragmaFalse (value : List Char) : Bool :=
  if value.head?.any Char.isDigit then leadingInteger value % 256 == 0
  else !anyKeyword ["on".toList, "yes".toList, "true".toList] value

/-- The statement gives `foreign_keys` a value, in this form. -/
structure SetsForeignKeys (statement : List SqliteToken) (form : PragmaForm) (value : PragmaValue) (p : Pragma) : Prop where
  reads : statement = p.tokens
  name : eqIgnoreAsciiCase p.name.text "foreign_keys".toList = true
  argument : p.argument = some (form, value)

/-- The statement switches the foreign keys off. -/
def TurnsOff (statement : List SqliteToken) : Prop :=
  ∃ form value p, SetsForeignKeys statement form value p ∧ pragmaFalse value.text = true

/-- The statement switches the foreign keys on, by `==`. -/
def TurnsOnDouble (statement : List SqliteToken) : Prop :=
  ∃ value p, SetsForeignKeys statement .double value p ∧ pragmaFalse value.text = false

/-- A script of SQLite statements. Those that begin with `PRAGMA` are complete. -/
structure SqliteScript where
  text : List Char
  tokens : List SqliteToken
  reads : SqliteReads text tokens
  pragmas : ∀ statement ∈ sqliteStatements tokens, ∀ keyword, statement.head? = some (.name (.bare keyword)) →
    eqIgnoreAsciiCase keyword "pragma".toList = true → ∃ p : Pragma, statement = p.tokens

namespace SqliteScript

def statements (script : SqliteScript) : List (List SqliteToken) := sqliteStatements script.tokens

def TurnsForeignKeysOff (script : SqliteScript) : Prop := ∃ statement ∈ script.statements, TurnsOff statement

/-- The bare names are read whole: outside ASCII they hold letters and digits only, and begin with a letter. -/
def PlainNames (u : CharTables) (script : SqliteScript) : Prop :=
  ∀ text, .name (.bare text) ∈ script.tokens →
    (∀ ch ∈ text.head?, ch = '_' ∨ u.isAlphabetic ch = true) ∧ ∀ ch ∈ text, identifierChar u ch = true

end SqliteScript

end TideOrm
