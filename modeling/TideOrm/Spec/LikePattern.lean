import TideOrm.Lib.Wildcard
import TideOrm.Lib.Utf8

/-! Patterns of literal text (`columns.rs`, `query/filters.rs`) and the tests that stand for them
on SQLite (`query/sql/condition_builders/comparison_pattern_list.rs`). -/

namespace TideOrm

open Lib

def LIKE_ESCAPE_CHAR : Char := '!'

def escapeLikeLiteral (value : List Char) : List Char :=
  value.flatMap fun ch => if ch = LIKE_ESCAPE_CHAR ∨ ch = '%' ∨ ch = '_' then [LIKE_ESCAPE_CHAR, ch] else [ch]

namespace LikePattern

def contains (value : List Char) : List Char := '%' :: (escapeLikeLiteral value ++ ['%'])

def startsWith (value : List Char) : List Char := escapeLikeLiteral value ++ ['%']

def endsWith (value : List Char) : List Char := '%' :: escapeLikeLiteral value

/-- How `LIKE .. ESCAPE '!'` reads a pattern; one that ends in the escape is none. -/
def parse : List Char → Option (List (Wild Char))
  | [] => some []
  | ['!'] => none
  | '!' :: ch :: rest => (parse rest).map (.item ch :: ·)
  | '%' :: rest => (parse rest).map (.many :: ·)
  | '_' :: rest => (parse rest).map (.one :: ·)
  | ch :: rest => (parse rest).map (.item ch :: ·)

/-- `text LIKE pattern ESCAPE '!'`, characters compared as `fold` folds them. -/
def like (fold : Char → Char) (pattern text : List Char) : Bool :=
  (parse pattern).any fun pattern => wildMatch fold pattern text

/-- The characters of a pattern, each with whether it is a `%`; none for what only LIKE can test. -/
def tokens : List Char → Option (List (Char × Bool))
  | [] => some []
  | ['!'] => none
  | '!' :: ch :: rest => (tokens rest).map ((ch, false) :: ·)
  | '_' :: _ => none
  | '%' :: rest => (tokens rest).map (('%', true) :: ·)
  | other :: rest => (tokens rest).map ((other, false) :: ·)

/-- The literal of a pattern, and whether a `%` leads and trails it. -/
def sqliteLiteralPattern (pattern : List Char) : Option (List Char × Bool × Bool) :=
  (tokens pattern).bind fun tokens =>
    let leading := tokens.head?.any Prod.snd
    let trailing := tokens.getLast?.any Prod.snd
    let start := if leading then 1 else 0
    let stop := max (tokens.length - if trailing then 1 else 0) start
    let middle := (tokens.take stop).drop start
    if middle.any Prod.snd then none else some (middle.map Prod.fst, leading, trailing)

/-- `instr` of two blobs -/
def instr : List UInt8 → List UInt8 → ℕ
  | [], needle => if needle.isEmpty then 1 else 0
  | byte :: hay, needle =>
    if needle.isPrefixOf (byte :: hay) then 1
    else
      match instr hay needle with
      | 0 => 0
      | n + 1 => n + 2

/-- `substr(hay, -n)`; from position 0 it is all of the blob. -/
def substrLast (hay : List UInt8) (n : ℕ) : List UInt8 := if n = 0 then hay else hay.drop (hay.length - n)

/-- The test of two blobs that the wildcards around a literal pick. -/
def literalTest (leading trailing : Bool) (hay needle : List UInt8) : Bool :=
  match leading, trailing with
  | true, true => decide (0 < instr hay needle)
  | false, true => hay.take needle.length == needle
  | true, false => needle.length == 0 || substrLast hay needle.length == needle
  | false, false => hay == needle

end LikePattern

end TideOrm
