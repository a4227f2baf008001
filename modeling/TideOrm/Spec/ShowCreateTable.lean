import TideOrm.Spec.AlterTable
import TideOrm.Lib.Nesting

/-! The line of a column in a `SHOW CREATE TABLE`: its quoted name, its type, the character set and
collation where they are not the table's, and its attributes. -/

namespace TideOrm

open Lib

/-- What stands by itself up to white space or a parenthesis. -/
def isPlainWord (text : List Char) : Bool :=
  text.head?.any (fun ch => !isQuote ch) && text.all fun ch => !isWhitespace ch && ch != '('

structure PlainWord where
  text : List Char
  plain : isPlainWord text = true
deriving DecidableEq

/-- What a type's list may hold: a length, or a value of an `ENUM` or a `SET`. -/
inductive TypeItem where
  | number (digits : List Char) (h : digits.all Char.isDigit = true)
  | value (text : List Char)

namespace TypeItem

def text : TypeItem → List Char
  | number digits _ => digits
  | value text => '\'' :: (text.flatMap fun ch => if ch = '\'' then [ch, ch] else [ch]) ++ ['\'']

/-- What the quotes hold. -/
def content : TypeItem → List Char
  | number _ _ => []
  | value text => text

end TypeItem

inductive CharacterClause where
  | characterSet (name : PlainWord)
  | collate (name : PlainWord)

def CharacterClause.words : CharacterClause → List (List Char)
  | characterSet name => ["CHARACTER".toList, "SET".toList, name.text]
  | collate name => ["COLLATE".toList, name.text]

/-- The words that the reader of a column's definition stops at. -/
def isKeyword (word : List Char) : Bool :=
  eqIgnoreAsciiCase word "CHARACTER".toList || eqIgnoreAsciiCase word "CHARSET".toList ||
    eqIgnoreAsciiCase word "COLLATE".toList || ATTRIBUTES.any (eqIgnoreAsciiCase word)

structure ColumnLine where
  name : List Char
  typeName : PlainWord
  typeName_plain : isKeyword typeName.text = false
  items : Option (List TypeItem)
  clauses : List CharacterClause
  /-- the first word of the attributes, and what follows it -/
  first : PlainWord
  first_mem : ATTRIBUTES.any (eqIgnoreAsciiCase first.text)
  more : List Char
  more_apart : more.head?.all (fun ch => isWhitespace ch || ch == '(') = true
  ends : (first.text ++ more).getLast?.all (fun ch => !isWhitespace ch && ch != ',') = true

namespace ColumnLine

variable (line : ColumnLine)

def list : List Char :=
  line.items.elim [] fun items => '(' :: [','].intercalate (items.map TypeItem.text) ++ [')']

def attributes : List Char := line.first.text ++ line.more

def text : List Char :=
  quoteIdent .mySql line.name ++ ' ' :: line.typeName.text ++ line.list ++
    (line.clauses.flatMap CharacterClause.words).flatMap (fun word => ' ' :: word) ++ ' ' :: line.attributes

/-- What the line declares besides the type. -/
def declared : KeptAttributes :=
  ⟨[' '].intercalate (line.clauses.flatMap CharacterClause.words), line.attributes⟩

end ColumnLine

/-- The parentheses open after a text, none when one is closed that was not opened. -/
def openAfter (depth : ℕ) (text : List Char) : Option ℕ := nesting (· == '(') (· == ')') depth text

/-- The parentheses in the values match. -/
def ColumnLine.Balanced (line : ColumnLine) : Prop :=
  openAfter 0 ((line.items.getD []).flatMap TypeItem.content) = some 0

instance (line : ColumnLine) : Decidable line.Balanced := inferInstanceAs (Decidable (_ = _))

end TideOrm
