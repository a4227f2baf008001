import TideOrm.Spec.TableTags

/-! SQL text as a tree of its parentheses, array constructors and dotted names, and the
tables that follow `FROM`, `JOIN` or a comma of a `FROM` list in it. The text is read by
the lexer's rules, but for the square brackets: these are symbols of their own where the
database writes array constructors with them, and quote names where it does not. -/

namespace TideOrm

/-- The kinds and texts of the tokens that `lex` finds. -/
def readFrom (lex : List Char → Char → List Char → Kind × ℕ) : ℕ → List Char → List Char → List (Kind × List Char)
  | _, _, [] => []
  | skip + 1, before, ch :: rest => readFrom lex skip (ch :: before) rest
  | 0, before, first :: rest =>
    let lexed := lex before first rest
    (lexed.1, (first :: rest).take lexed.2) :: readFrom lex (lexed.2 - 1) (first :: before) rest

section

variable (u : CharTables)

def sqlToken (before : List Char) (first : Char) (rest : List Char) : Kind × ℕ :=
  if first = '[' then (.symbol, 1) else lexToken u false before first rest

def reading (arrays : Bool) (sql : List Char) : List (Kind × List Char) :=
  readFrom (if arrays then sqlToken u else lexToken u false) 0 [] sql

end

inductive Quote where
  | double
  | backtick
  | bracket
deriving DecidableEq

def Quote.opening : Quote → Char
  | .double => '"'
  | .backtick => '`'
  | .bracket => '['

def Quote.closing : Quote → Char
  | .double => '"'
  | .backtick => '`'
  | .bracket => ']'

inductive Ident where
  | bare (text : List Char)
  | quoted (quote : Quote) (name : List Char)
deriving DecidableEq

namespace Ident

def lexeme : Ident → Kind × List Char
  | bare text => (.word, text)
  | quoted quote name =>
    (.identifier,
      quote.opening :: ((name.flatMap fun ch => if ch = quote.closing then [ch, ch] else [ch]) ++ [quote.closing]))

/-- The unquoted name; SQL has no empty one. -/
def name? : Ident → Option (List Char)
  | bare text => if text = [] then none else some text
  | quoted _ name => if name = [] then none else some name

def isWord (words : List (List Char)) : Ident → Bool
  | bare text => anyKeyword words text
  | quoted _ _ => false

end Ident

/-- White space or a comment. -/
structure Gap where
  comment : Bool
  text : List Char
deriving DecidableEq

def Gap.lexeme (g : Gap) : Kind × List Char := (if g.comment then .comment else .space, g.text)

/-- The symbols that are not part of the text's structure. -/
def plainMark (ch : Char) : Bool := ch != '(' && ch != ')' && ch != ',' && ch != '[' && ch != ']'

/-- What may stand after a dot: a name, or the `*` of `t.*` or a digit of `.5`. -/
inductive Part where
  | ident (name : Ident)
  | other (ch : Char) (plain : plainMark ch = true)
deriving DecidableEq

def Part.lexeme : Part → Kind × List Char
  | .ident name => name.lexeme
  | .other ch _ => (.symbol, [ch])

def Part.ident? : Part → Option Ident
  | .ident name => some name
  | .other _ _ => none

structure Dotted where
  before : List Gap
  after : List Gap
  part : Part
deriving DecidableEq

def Dotted.lexemes (d : Dotted) : List (Kind × List Char) :=
  d.before.map Gap.lexeme ++ (.symbol, ['.']) :: (d.after.map Gap.lexeme ++ [d.part.lexeme])

def textOf (lexemes : List (Kind × List Char)) : List Char := lexemes.flatMap Prod.snd

/-- What a word is in the grammar of the text's database. -/
inductive Use where
  | plain
  /-- the first word of the clause after a `FROM` list -/
  | clause
  /-- `ONLY` or `LATERAL` before a table -/
  | ahead
deriving DecidableEq

inductive SqlTree where
  | done
  | gap (space : Gap) (rest : SqlTree)
  | name (use : Use) (head : Ident) (tail : List Dotted) (rest : SqlTree)
  | mark (ch : Char) (plain : plainMark ch = true) (rest : SqlTree)
  | parameter (digits : List Char) (rest : SqlTree)
  | literal (text : List Char) (rest : SqlTree)
  | comma (rest : SqlTree)
  | parens (inner rest : SqlTree)
  /-- An array constructor or a subscript, with the fields selected from it. -/
  | array (inner : SqlTree) (tail : List Dotted) (rest : SqlTree)

namespace SqlTree

def lexemes : SqlTree → List (Kind × List Char)
  | done => []
  | gap space rest => space.lexeme :: rest.lexemes
  | name _ head tail rest => head.lexeme :: (tail.flatMap Dotted.lexemes ++ rest.lexemes)
  | mark ch _ rest => (.symbol, [ch]) :: rest.lexemes
  | parameter digits rest => (.parameter, '$' :: digits) :: rest.lexemes
  | literal text rest => (.literal, text) :: rest.lexemes
  | comma rest => (.symbol, [',']) :: rest.lexemes
  | parens inner rest => (.symbol, ['(']) :: (inner.lexemes ++ (.symbol, [')']) :: rest.lexemes)
  | array inner tail rest =>
    (.symbol, ['[']) :: (inner.lexemes ++ (.symbol, [']']) :: (tail.flatMap Dotted.lexemes ++ rest.lexemes))

/-- Whether a dot comes next, literals apart. -/
def dotNext : SqlTree → Bool
  | gap _ rest => rest.dotNext
  | literal _ rest => rest.dotNext
  | mark ch _ _ => ch == '.'
  | _ => false

/-- Every name has all its dotted parts. -/
def settled : SqlTree → Bool
  | done => true
  | gap _ rest => rest.settled
  | name _ _ _ rest => !rest.dotNext && rest.settled
  | mark _ _ rest => rest.settled
  | parameter _ rest => rest.settled
  | literal _ rest => rest.settled
  | comma rest => rest.settled
  | parens inner rest => inner.settled && rest.settled
  | array inner _ rest => inner.settled && !rest.dotNext && rest.settled

/-- Whether a parenthesis comes next: what stands before is a function. -/
def called : SqlTree → Bool
  | gap _ rest => rest.called
  | parens _ _ => true
  | _ => false

/-- Whether the tree is a query, and no group of joined tables. -/
def isQuery : SqlTree → Bool
  | gap _ rest => rest.isQuery
  | name _ head tail _ =>
    tail.isEmpty && head.isWord ["select".toList, "values".toList, "with".toList, "table".toList]
  | _ => false

end SqlTree

/-- The base name of the table that a dotted name is. No table is named by a reserved word;
when `seen`, nor by the words that the collector passes over. -/
def tableName (seen : Bool) (head : Ident) (tail : List Dotted) : Option (List Char) :=
  match tail.getLast? with
  | none =>
    if head.isWord ["select".toList, "from".toList, "join".toList] ||
      (seen && head.isWord (NOT_A_TABLE ++ BEFORE_A_TABLE)) then none else head.name?
  | some last => if tail.all fun d => d.part.ident?.isSome then last.part.ident?.bind Ident.name? else none

namespace SqlTree

/-- The tables of the `FROM` list being read, `first` when a table comes next, `list` when
the list goes on after it. When `seen`, it does not after a word that the collector takes
for its end. -/
def listed (seen : Bool) : Bool → Bool → SqlTree → List (List Char)
  | _, _, done => []
  | first, list, gap _ rest => rest.listed seen first list
  | first, list, name use head tail rest =>
    if use = .clause then []
    else if use = .ahead && tail.isEmpty && head.isWord ["only".toList, "lateral".toList] then
      rest.listed seen first list
    else
      let ends := seen && tail.isEmpty && head.isWord LIST_END
      (if first && !rest.called then (tableName seen head tail).toList else []) ++ rest.listed seen false (list && !ends)
  | _, list, mark _ _ rest => rest.listed seen false list
  | _, list, parameter _ rest => rest.listed seen false list
  | _, list, literal _ rest => rest.listed seen false list
  | _, list, comma rest => if list then rest.listed seen true true else []
  | first, list, parens inner rest =>
    (if first && !inner.isQuery then inner.listed seen true true else []) ++ rest.listed seen false list
  | _, list, array _ _ rest => rest.listed seen false list

/-- The tables that follow `FROM`, `JOIN` or a comma of a `FROM` list; when `seen`, not
those in an array constructor, those named by a word that the collector passes over, and
those after one that it takes for the end of their list. -/
def tables (seen : Bool) : SqlTree → List (List Char)
  | done => []
  | gap _ rest => rest.tables seen
  | name _ head tail rest =>
    (if tail.isEmpty && head.isWord ["from".toList] then rest.listed seen true true
      else if tail.isEmpty && head.isWord ["join".toList] then rest.listed seen true false else []) ++ rest.tables seen
  | mark _ _ rest => rest.tables seen
  | parameter _ rest => rest.tables seen
  | literal _ rest => rest.tables seen
  | comma rest => rest.tables seen
  | parens inner rest => inner.tables seen ++ rest.tables seen
  | array inner _ rest => (if seen then [] else inner.tables seen) ++ rest.tables seen

/-- No array constructor holds a closing bracket: none is nested in it, and no literal,
name or comment in it has one. -/
def flatArrays : SqlTree → Bool
  | done => true
  | gap _ rest => rest.flatArrays
  | name _ _ _ rest => rest.flatArrays
  | mark _ _ rest => rest.flatArrays
  | parameter _ rest => rest.flatArrays
  | literal _ rest => rest.flatArrays
  | comma rest => rest.flatArrays
  | parens inner rest => inner.flatArrays && rest.flatArrays
  | array inner _ rest => !(textOf inner.lexemes).contains ']' && rest.flatArrays

end SqlTree

end TideOrm
