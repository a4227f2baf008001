import TideOrm.Spec.Error
import TideOrm.Spec.Placeholders
import TideOrm.Spec.SqlSafety
import TideOrm.Spec.TableTags
import TideOrm.Lib.Separated

/-! Foreign keys moved out of a MySQL table's definition (`schema/writer.rs`). -/

namespace TideOrm

open Lib

/-- What the rounds of the loop step over: a quoted run, or else one character. The next `skip`
characters belong to the run before. -/
def mysqlRunsFrom : ℕ → List Char → List (List Char)
  | _, [] => []
  | skip + 1, _ :: rest => mysqlRunsFrom skip rest
  | 0, ch :: rest =>
    let len := if isQuote ch then quotedLen (ch :: rest) ch (ch != '`') else 1
    (ch :: rest).take len :: mysqlRunsFrom (len - 1) rest

def mysqlRuns (ddl : List Char) : List (List Char) := mysqlRunsFrom 0 ddl

/-- The state of the loop, which `stop` ends. -/
structure DefinitionLoop where
  pos : ℕ
  depth : ℤ
  start : Option ℕ
  stop : Option ℕ
  boundary : ℕ
  parts : List (List Char)

def definitionRound (ddl : List Char) (s : DefinitionLoop) (run : List Char) : DefinitionLoop :=
  let part := (ddl.take s.pos).drop s.boundary
  if s.stop.isSome then s
  else if run = ['('] then
    { s with
      pos := s.pos + 1, depth := s.depth + 1, start := some (s.start.getD s.pos)
      boundary := if s.start.isNone then s.pos + 1 else s.boundary }
  else if run = [')'] then
    if s.depth - 1 = 0 then { s with depth := s.depth - 1, parts := s.parts ++ [part], stop := some s.pos }
    else { s with pos := s.pos + 1, depth := s.depth - 1 }
  else if run = [','] ∧ s.depth = 1 then
    { s with pos := s.pos + 1, parts := s.parts ++ [part], boundary := s.pos + 1 }
  else { s with pos := s.pos + run.length }

def definitionLoop (ddl : List Char) : DefinitionLoop :=
  (mysqlRuns ddl).foldl (definitionRound ddl) ⟨0, 0, none, none, 0, []⟩

section

variable (u : CharTables)

def Token.spells (word : List Char) (token : Token) : Bool :=
  token.kind == .word && eqIgnoreAsciiCase token.text word

/-- Whether a definition is a foreign key's, perhaps after `CONSTRAINT` and the constraint's name. -/
def isForeignKey (part : List Char) : Bool :=
  let tokens := significant u part
  let first := tokens.head?
  let first := if first.any (Token.spells "CONSTRAINT".toList) then tokens[2]? else first
  first.any (Token.spells "FOREIGN".toList)

def addDefinition (table part : List Char) : List Char :=
  "ALTER TABLE ".toList ++ quoteIdent .mySql table ++ " ADD ".toList ++ trim part

def mysqlDeferForeignKeys (ddl table : List Char) : Except Error (List Char × List (List Char)) :=
  let s := definitionLoop ddl
  match s.start, s.stop with
  | some start, some stop =>
    let foreignKeys := (s.parts.filter (isForeignKey u)).map (addDefinition table)
    let kept := s.parts.filter fun part => !isForeignKey u part
    if foreignKeys.isEmpty then .ok (ddl, foreignKeys)
    else .ok (ddl.take (start + 1) ++ [','].intercalate kept ++ ')' :: ddl.drop (stop + 1), foreignKeys)
  | _, _ => .error (.internal "SHOW CREATE TABLE returned an invalid table definition")

/-- The text with the foreign keys among its definitions removed. -/
def withoutForeignKeys (ddl front tail : List Char) (parts : List (List Char)) : List Char :=
  if parts.filter (isForeignKey u) = [] then ddl
  else front ++ '(' :: [','].intercalate (parts.filter fun part => !isForeignKey u part) ++ ')' :: tail

/-- A definition that begins with the word `FOREIGN`, perhaps after `CONSTRAINT` and a name in
backticks. -/
inductive ForeignKeyText : List Char → Prop where
  | unnamed {gap word rest : List Char} (hgap : ∀ ch ∈ gap, isWhitespace ch)
      (hword : eqIgnoreAsciiCase word "FOREIGN".toList) (hrest : ∀ ch ∈ rest.head?, identifierChar u ch = false) :
      ForeignKeyText (gap ++ (word ++ rest))
  | named {gap constraint gap' name gap'' word rest : List Char} (hgap : ∀ ch ∈ gap ++ gap' ++ gap'', isWhitespace ch)
      (hconstraint : eqIgnoreAsciiCase constraint "CONSTRAINT".toList) (hword : eqIgnoreAsciiCase word "FOREIGN".toList)
      (hrest : ∀ ch ∈ rest.head?, identifierChar u ch = false) :
      ForeignKeyText (gap ++ (constraint ++ (gap' ++ (quoteIdent .mySql name ++ (gap'' ++ (word ++ rest))))))

end

/-- The parentheses open after some runs. -/
def parensAfter (depth : ℕ) (runs : List (List Char)) : Option ℕ := nesting (· == ['(']) (· == [')']) depth runs

/-- The first unquoted parenthesis of a text opens and is closed. -/
structure Parenthesized (ddl : List Char) (front inner tail : List (List Char)) : Prop where
  runs : mysqlRuns ddl = front ++ ['('] :: inner ++ [')'] :: tail
  first : ∀ run ∈ front, run ≠ ['('] ∧ run ≠ [')']
  closed : parensAfter 0 inner = some 0

/-- A definition: its runs close what they open, and hold no comma outside of parentheses. -/
abbrev Definition : List (List Char) → Prop := Item (· == ['(']) (· == [')']) [',']

end TideOrm
