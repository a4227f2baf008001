import TideOrm.Spec.SqlLexer
import Mathlib.Algebra.GroupWithZero.Nat

/-! The tables a SQL text names, collected as cache tags (`query/sql/execution.rs`), and the
names that text spells when it is read as SQL. -/

namespace TideOrm

/-- `str::eq_ignore_ascii_case` -/
def eqIgnoreAsciiCase (a b : List Char) : Bool := a.map Char.toLower == b.map Char.toLower

def utf8Len (text : List Char) : ℕ := (text.map Char.utf8Size).sum

/-- The byte after the token's last one. -/
def Token.stop (t : Token) : ℕ := t.start + utf8Len t.text

def dropBytes : ℕ → List Char → List Char
  | 0, text => text
  | _ + 1, [] => []
  | n + 1, ch :: rest => dropBytes (n + 1 - ch.utf8Size) rest

def takeBytes : ℕ → List Char → List Char
  | 0, _ => []
  | _ + 1, [] => []
  | n + 1, ch :: rest => ch :: takeBytes (n + 1 - ch.utf8Size) rest

/-- `&sql[start..stop]`, in bytes. -/
def sliceBytes (sql : List Char) (start stop : ℕ) : List Char := takeBytes (stop - start) (dropBytes start sql)

/-- `str::replace` of the doubled `close` by a single one. -/
def undouble (close : Char) : List Char → List Char
  | first :: next :: rest =>
    if first = close ∧ next = close then close :: undouble close rest else first :: undouble close (next :: rest)
  | text => text

/-- The name a quoted identifier or a single-quoted string spells. -/
def Token.unquoted (t : Token) : Option (List Char) :=
  if t.kind ≠ .identifier ∧ ¬(t.kind = .literal ∧ t.text.head? = some '\'') then some t.text
  else match t.text with
    | [] => none
    | first :: rest =>
      let close := if first = '[' then ']' else first
      if (first :: rest).getLast? = some close ∧ rest ≠ [] then some (undouble close rest.dropLast) else none

def namePart (kind : Kind) : Bool := kind == .word || kind == .identifier

/-- The last part of a dotted name. -/
def lastPart : Token → List Token → Option Token
  | name, [] => if namePart name.kind then some name else none
  | _, [_] => none
  | name, dot :: part :: rest => if namePart name.kind ∧ dot.text = ['.'] then lastPart part rest else none

def NOT_A_TABLE : List (List Char) := ["select".toList, "unnest".toList, "values".toList]

/-- Words a table may follow. -/
def BEFORE_A_TABLE : List (List Char) := ["only".toList, "lateral".toList]

/-- The keywords that end a `FROM` list. -/
def LIST_END : List (List Char) :=
  ["where".toList, "group".toList, "order".toList, "limit".toList, "offset".toList, "having".toList,
    "union".toList, "intersect".toList, "except".toList, "window".toList, "for".toList, "returning".toList,
    "fetch".toList]

def anyKeyword (words : List (List Char)) (word : List Char) : Bool := words.any fun other => eqIgnoreAsciiCase word other

/-- How many of the tokens after a name's first part belong to it, and where it ends. -/
def dottedEnd : List Token → ℕ → ℕ × ℕ
  | dot :: part :: rest, stop =>
    if dot.text = ['.'] then
      let run := dottedEnd rest part.stop
      (run.1 + 2, run.2)
    else (0, stop)
  | [dot], stop => if dot.text = ['.'] then (1, stop) else (0, stop)
  | [], stop => (0, stop)

/-- The words of `sql` from its tokens; the first `skip` of them belong to the word before. -/
def sqlTokensFrom (sql : List Char) : ℕ → List Token → List (List Char)
  | _, [] => []
  | skip + 1, _ :: rest => sqlTokensFrom sql skip rest
  | 0, first :: rest =>
    let run := if namePart first.kind then dottedEnd rest first.stop else (0, first.stop)
    sliceBytes sql first.start run.2 :: sqlTokensFrom sql run.1 rest

structure Collector where
  depth : ℕ
  lists : List ℕ
  expectTable : Bool
  tables : List (List Char)

section

variable (u : CharTables)

def significant (sql : List Char) : List Token :=
  (tokens u sql).filter fun token => token.kind != .space && token.kind != .comment

/-- A rendered table reference reduced to the bare name used as a cache tag. -/
def normalizeTableName (token : List Char) : Option (List Char) :=
  match significant u token with
  | [] => none
  | first :: rest =>
    ((lastPart first rest).bind Token.unquoted).bind fun decoded => if decoded = [] then none else some decoded

def pushTableTag (tables : List (List Char)) (table : List Char) : List (List Char) :=
  match normalizeTableName u table with
  | none => tables
  | some table => if table ∈ tables then tables else tables ++ [table]

/-- Words and the `(`, `)` and `,` between them. -/
def sqlTokens (sql : List Char) : List (List Char) :=
  sqlTokensFrom sql 0 ((significant u sql).filter fun token => token.kind != .literal)

/-- One token of the loop over the text's words. -/
def Collector.read (s : Collector) (word : List Char) : Collector :=
  if word = ['('] then
    { s with depth := s.depth + 1, lists := if s.expectTable then s.lists ++ [s.depth + 1] else s.lists }
  else if word = [')'] then
    { s with depth := s.depth - 1, lists := s.lists.filter fun list => list ≤ s.depth - 1 }
  else if word = [','] then { s with expectTable := s.lists.getLast? == some s.depth }
  else if eqIgnoreAsciiCase word "from".toList then { s with lists := s.lists ++ [s.depth], expectTable := true }
  else if eqIgnoreAsciiCase word "join".toList then { s with expectTable := true }
  else
    let lists := if s.lists.getLast? = some s.depth ∧ anyKeyword LIST_END word then s.lists.dropLast else s.lists
    if s.expectTable then
      if anyKeyword BEFORE_A_TABLE word then { s with lists := lists, expectTable := true }
      else if !anyKeyword NOT_A_TABLE word then
        { s with lists := lists, expectTable := false, tables := pushTableTag u s.tables word }
      else { s with lists := lists, expectTable := false }
    else { s with lists := lists, expectTable := false }

def collectTablesFromSql (sql : List Char) (tables : List (List Char)) : List (List Char) :=
  ((sqlTokens u sql).foldl (Collector.read u) ⟨0, [], false, tables⟩).tables

end

end TideOrm
