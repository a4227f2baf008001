import TideOrm.Spec.TableTags

/-! Where a quoted token of a text ends, apart from the scan that looks for it. -/

namespace TideOrm

/-- Text inside a quoted token: its closing quote stands there doubled only, or behind a backslash where
backslashes escape. -/
inductive Inside (close : Char) (escaped : Bool) : List Char → Prop where
  | nil : Inside close escaped []
  | plain {ch : Char} {rest : List Char} (hclose : ch ≠ close) (hslash : escaped = true → ch ≠ '\\') (h : Inside close escaped rest) :
      Inside close escaped (ch :: rest)
  | doubled {rest : List Char} (h : Inside close escaped rest) : Inside close escaped (close :: close :: rest)
  | backslash {ch : Char} {rest : List Char} (hescaped : escaped = true) (h : Inside close escaped rest) :
      Inside close escaped ('\\' :: ch :: rest)

/-- The quote that closes a token whose opening quote `rest` follows is in `rest`. -/
def Closes (close : Char) (escaped : Bool) (rest : List Char) : Prop :=
  ∃ body tail, rest = body ++ close :: tail ∧ Inside close escaped body ∧ tail.head? ≠ some close

/-- `rest` ends inside, right behind a closing quote that is escaped. -/
def EndsEscaped (close : Char) (escaped : Bool) (rest : List Char) : Prop :=
  Inside close escaped rest ∧ rest.getLast? = some close

def closingQuote (quote : Char) : Char := if quote = '[' then ']' else quote

def Token.Quoted (t : Token) : Prop := t.kind = .identifier ∨ (t.kind = .literal ∧ t.text.head? = some '\'')

section

variable (u : CharTables)

/-- Whether backslashes escape in the token that `quote` opens behind `before`. -/
def escapes (sqlite : Bool) (before : List Char) (quote : Char) : Bool :=
  !sqlite && quote == '\'' && opensEscaped u before.reverse

/-- The quoted token stands behind `before`: its opening quote, and the text from behind it on. -/
structure QuotedAt (sqlite : Bool) (sql before : List Char) (quote : Char) (rest : List Char) (t : Token) : Prop where
  scanned : t ∈ scan u sql sqlite
  quoted : t.Quoted
  text : sql = before ++ quote :: rest
  start : t.start = utf8Len before

/-- The quoted tokens that spell no name are those the text ends in. -/
def UnterminatedNoticed (sqlite : Bool) (sql : List Char) : Prop :=
  ∀ before quote rest t, QuotedAt u sqlite sql before quote rest t →
    (t.unquoted = none ↔ ¬Closes (closingQuote quote) (escapes u sqlite before quote) rest)

end

end TideOrm
