import Mathlib.Data.List.DropRight
import TideOrm.Spec.Fulltext

/-! What the search builder reads in a search text (`fulltext/search_builder.rs`, `fulltext/core.rs`), and how a
boolean search text is written. -/

namespace TideOrm

open Lib

inductive SearchMode where
  | natural
  | boolean
  | phrase
  | prefixed
  | proximity (distance : ℕ)
deriving DecidableEq

structure FullTextConfig where
  mode : SearchMode
  minWordLength : Option ℕ
  maxWordLength : Option ℕ
  stopWords : List (List Char)

structure FullTextSearchBuilder where
  query : List Char
  config : FullTextConfig

/-- `split_whitespace` -/
def splitWhitespace (text : List Char) : List (List Char) := (text.splitOnP isWhitespace).filter fun word => !word.isEmpty

/-- The tokens of the rest of a text; `start` is what the open one has gathered. -/
def searchTokensFrom : Option (List Char) → Bool → List Char → List (List Char)
  | start, _, [] => start.toList
  | start, inQuotes, ch :: rest =>
    let inQuotes := if ch = '"' then !inQuotes else inQuotes
    if isWhitespace ch && !inQuotes then start.toList ++ searchTokensFrom none inQuotes rest
    else searchTokensFrom (some (start.getD [] ++ [ch])) inQuotes rest

def searchTokens (text : List Char) : List (List Char) := searchTokensFrom none false text

section

variable (u : CharTables)

/-- A word without the marks around it. -/
def trimMarks (word : List Char) : List Char :=
  (word.dropWhile fun ch => !u.isAlphanumeric ch).rdropWhile fun ch => !u.isAlphanumeric ch

variable (toLowercase : List Char → List Char)

namespace FullTextConfig

def filtersTerms (config : FullTextConfig) : Bool :=
  config.minWordLength.isSome || config.maxWordLength.isSome || !config.stopWords.isEmpty

def keepsTerm (config : FullTextConfig) (token : List Char) : Bool :=
  let word := trimMarks u token
  if word.isEmpty then true
  else
    let tooShort := config.minWordLength.any fun shortest => word.length < shortest
    let tooLong := config.maxWordLength.any fun longest => longest < word.length
    let stopWord := config.stopWords.any fun stop => toLowercase stop == toLowercase word
    !(tooShort || tooLong || stopWord)

end FullTextConfig

namespace FullTextSearchBuilder

variable (search : FullTextSearchBuilder)

def queryText : List Char :=
  if search.config.mode = .phrase ∨ search.config.filtersTerms = false then search.query
  else
    [' '].intercalate ((searchTokens search.query).filter fun token =>
      token.contains '"' || search.config.keepsTerm u toLowercase token)

def highlightTerms : List Char :=
  let boolean : Bool := search.config.mode = .boolean
  [' '].intercalate ((((searchTokens (search.queryText u toLowercase)).filter fun token =>
    !(boolean && token.head? == some '-')).flatMap (searchWords u)).map (trimMarks u))

def hasSearchTerms : Bool :=
  if search.config.mode = .boolean then hasSearchableChar u (search.highlightTerms u toLowercase)
  else hasSearchableChar u (search.queryText u toLowercase)

/-- The words that the pattern of `term_pattern` looks for. -/
def markedWords : List (List Char) := splitWhitespace (search.highlightTerms u toLowercase)

end FullTextSearchBuilder

end

/-! How a search text is written: blanks, words, and phrases in quotes behind their operators. -/

inductive SearchItem where
  | blank (ch : Char)
  | word (text : List Char)
  | phrase (operators text : List Char)
  /-- A phrase at the end of the text without its closing quote. -/
  | cut (operators text : List Char)
deriving DecidableEq

namespace SearchItem

def spell : SearchItem → List Char
  | blank ch => [ch]
  | word text => text
  | phrase operators text => operators ++ '"' :: (text ++ ['"'])
  | cut operators text => operators ++ '"' :: text

/-- What may stand behind a word: operators before a quote are not one, and what stands before them is none of theirs. -/
def Follow (text : List Char) : List SearchItem → Prop
  | [] | blank _ :: _ => True
  | phrase [] _ :: _ | cut [] _ :: _ => text.all isBooleanOperator = false
  | _ => False

inductive Written : List SearchItem → Prop where
  | nil : Written []
  | blank {ch : Char} {rest : List SearchItem} (hspace : isWhitespace ch = true) (hrest : Written rest) : Written (blank ch :: rest)
  | word {text : List Char} {rest : List SearchItem} (hne : text ≠ []) (htext : ∀ ch ∈ text, isWhitespace ch = false ∧ ch ≠ '"')
      (hfollow : Follow text rest) (hrest : Written rest) : Written (word text :: rest)
  | phrase {operators text : List Char} {rest : List SearchItem} (hoperators : operators.all isBooleanOperator = true)
      (htext : '"' ∉ text) (hrest : Written rest) : Written (phrase operators text :: rest)
  | cut {operators text : List Char} (hoperators : operators.all isBooleanOperator = true) (htext : '"' ∉ text) :
      Written [cut operators text]

end SearchItem

structure SearchText where
  items : List SearchItem
  written : SearchItem.Written items

/-- A word or phrase of a search text, without the blanks around it. -/
structure SearchTerm where
  text : List Char
  /-- Its own minus: the first character of a word, the last operator of a phrase. -/
  excluded : Bool
  /-- The block it stands in, up to the next blank outside quotes, begins with a minus. -/
  led : Bool

namespace SearchTerm

def words (u : CharTables) (term : SearchTerm) : List (List Char) :=
  ((term.text.splitOnP isWhitespace).filter (hasSearchableChar u)).map (trimMarks u)

end SearchTerm

namespace SearchItem

/-- The terms of the rest of a text; `led` is said of the block that is open. -/
def termsFrom : Option Bool → List SearchItem → List SearchTerm
  | _, [] => []
  | _, blank _ :: rest => termsFrom none rest
  | led, word text :: rest =>
    let led := led.getD (text.head? == some '-')
    ⟨text, text.head? == some '-', led⟩ :: termsFrom (some led) rest
  | led, phrase operators text :: rest | led, cut operators text :: rest =>
    let led := led.getD (operators.head? == some '-')
    ⟨trim text, operators.getLast? == some '-', led⟩ :: termsFrom (some led) rest

end SearchItem

namespace SearchText

def spell (text : SearchText) : List Char := text.items.flatMap SearchItem.spell

def terms (text : SearchText) : List SearchTerm := SearchItem.termsFrom none text.items

/-- Whether the minus before a block and the minus before a term leave out the same words: each term left out
within a block without a minus repeats words of a term that is searched for, and a term searched for within a block
with one is not the only one. -/
def ReadAlike (u : CharTables) (text : SearchText) : Prop :=
  (∀ term ∈ text.terms, term.led = false → term.excluded = true →
    ∀ word ∈ term.words u, ∃ other ∈ text.terms, other.excluded = false ∧ word <:+: other.text) ∧
  ((∃ term ∈ text.terms, term.led = true ∧ term.excluded = false ∧ hasSearchableChar u term.text = true) →
    ∃ term ∈ text.terms, term.led = false ∧ hasSearchableChar u term.text = true)

end SearchText

end TideOrm
