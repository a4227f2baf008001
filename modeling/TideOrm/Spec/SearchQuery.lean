import TideOrm.Spec.Fulltext

/-! The search expressions of the databases: how PostgreSQL reads a `tsquery`, SQLite an FTS5 expression,
and what MySQL reads in boolean mode. -/

namespace TideOrm

open Lib

/-- A language of search expressions over tokens of type `τ`. -/
structure SearchLanguage (τ : Type) where
  lexer : Lexer Char τ
  /-- A token that ends before such a character is read whole. -/
  stops : Char → Bool
  write : τ → List Char
  isBlank : τ → Bool
  /-- The text a token quotes. -/
  content : τ → Option (List Char)
  /-- The expressions, from the closest bound, an operand, to the loosest. -/
  Query : ℕ → List τ → Prop

section Postgres

inductive TsToken where
  | blank
  | lexeme (text : List Char) (starred : Bool)
  /-- What stands between `<` and `>`. -/
  | distance (text : List Char)
  | symbol (ch : Char)
deriving DecidableEq

namespace TsToken

def write : TsToken → List Char
  | blank => [' ']
  | lexeme text starred => '\'' :: (doubled '\'' text ++ '\'' :: (if starred then [':', '*'] else []))
  | distance text => '<' :: (text ++ ['>'])
  | symbol ch => [ch]

def content : TsToken → Option (List Char)
  | lexeme text _ => some text
  | _ => none

/-- How loosely an operator binds that joins two operands. -/
def looseness : TsToken → Option ℕ
  | distance text =>
    if text = ['-'] ∨ (text ≠ [] ∧ text.all Char.isDigit ∧ digitsValue text ≤ 16384) then some 1 else none
  | symbol ch => if ch = '&' then some 2 else if ch = '|' then some 3 else none
  | _ => none

def next : List Char → Option (TsToken × List Char)
  | [] => none
  | ch :: rest =>
    if isAsciiWhitespace ch then some (blank, rest)
    else if ch = '\'' then
      (readDoubled '\'' (fun ch => ch == '\\') rest).map fun read =>
        if [':', '*'] <+: read.2 then (lexeme read.1 true, read.2.drop 2) else (lexeme read.1 false, read.2)
    else if ch = '<' then
      match rest.dropWhile fun ch => ch != '>' with
      | [] => none
      | _ :: after => some (distance (rest.takeWhile fun ch => ch != '>'), after)
    else if ['&', '|', '!', '(', ')'].contains ch then some (symbol ch, rest)
    else none

theorem next_shorter {text rest : List Char} {token : TsToken} (h : next text = some (token, rest)) : rest.length < text.length := by
  cases text with
  | nil => cases h
  | cons ch text =>
    rw [next] at h
    split_ifs at h
    · cases h
      exact Nat.lt_succ_self _
    · obtain ⟨⟨read, after⟩, hread, heq⟩ := Option.map_eq_some_iff.1 h
      have hlt := readDoubled_length text hread
      dsimp only at heq
      split_ifs at heq
      · cases heq
        rw [List.length_drop, List.length_cons]
        omega
      · cases heq
        exact Nat.lt_succ_of_lt hlt
    · split at h
      · cases h
      · next after hdrop =>
        cases h
        have hle : (text.dropWhile fun ch => ch != '>').length ≤ text.length := (List.dropWhile_suffix _).length_le
        rw [hdrop] at hle
        exact Nat.lt_succ_of_lt hle
    · cases h
      exact Nat.lt_succ_self _

end TsToken

inductive TsQuery : ℕ → List TsToken → Prop where
  | lexeme (text : List Char) (starred : Bool) : TsQuery 0 [.lexeme text starred]
  | not {query : List TsToken} (h : TsQuery 0 query) : TsQuery 0 (.symbol '!' :: query)
  | group {level : ℕ} {query : List TsToken} (h : TsQuery level query) :
      TsQuery 0 (.symbol '(' :: (query ++ [.symbol ')']))
  | join {level l r : ℕ} {left right : List TsToken} {operator : TsToken} (hoperator : operator.looseness = some level)
      (hleft : TsQuery l left) (hl : l ≤ level) (hright : TsQuery r right) (hr : r ≤ level) :
      TsQuery level (left ++ operator :: right)

def tsquery : SearchLanguage TsToken where
  lexer := ⟨TsToken.next, TsToken.next_shorter⟩
  stops ch := ch == ' ' || ch == ')'
  write := TsToken.write
  isBlank token := token == .blank
  content := TsToken.content
  Query := TsQuery

end Postgres

section Fts5

inductive Fts5Token where
  | blank
  | string (text : List Char)
  | bareword (text : List Char)
  | symbol (ch : Char)
deriving DecidableEq

namespace Fts5Token

def write : Fts5Token → List Char
  | blank => [' ']
  | string text => '"' :: (doubled '"' text ++ ['"'])
  | bareword text => text
  | symbol ch => [ch]

def content : Fts5Token → Option (List Char)
  | string text => some text
  | _ => none

def looseness : Fts5Token → Option ℕ
  | bareword text =>
    if text = ['N', 'O', 'T'] then some 2 else if text = ['A', 'N', 'D'] then some 3 else if text = ['O', 'R'] then some 4 else none
  | _ => none

def isBarewordChar (ch : Char) : Bool := !isAscii ch || ch.isAlphanum || ch == '_' || ch == '\x1a'

/-- The text ends at a NUL, which leaves a string that holds one unterminated. -/
def next : List Char → Option (Fts5Token × List Char)
  | [] => none
  | ch :: rest =>
    if ch == ' ' || ch == '\t' || ch == '\n' || ch == '\r' then some (blank, rest)
    else if ch = '\x00' then some (blank, [])
    else if ch = '"' then
      ((readDoubled '"' (fun _ => false) rest).filter fun read => !read.1.contains '\x00').map fun read =>
        (string read.1, read.2)
    else if isBarewordChar ch then some (bareword (ch :: rest.takeWhile isBarewordChar), rest.dropWhile isBarewordChar)
    else if ['(', ')', '{', '}', ':', ',', '+', '*', '-', '^'].contains ch then some (symbol ch, rest)
    else none

theorem next_shorter {text rest : List Char} {token : Fts5Token} (h : next text = some (token, rest)) :
    rest.length < text.length := by
  cases text with
  | nil => cases h
  | cons ch text =>
    rw [next] at h
    split_ifs at h
    · cases h
      exact Nat.lt_succ_self _
    · cases h
      exact Nat.succ_pos _
    · obtain ⟨⟨read, after⟩, hread, heq⟩ := Option.map_eq_some_iff.1 h
      cases heq
      exact Nat.lt_succ_of_lt (readDoubled_length text (Option.filter_eq_some_iff.1 hread).1)
    · cases h
      exact Nat.lt_succ_of_le (List.dropWhile_suffix isBarewordChar).length_le
    · cases h
      exact Nat.lt_succ_self _

end Fts5Token

/-- An operand is a string, a prefix or `NEAR(..)`; side by side, operands are all required. -/
inductive Fts5Query : ℕ → List Fts5Token → Prop where
  | string (text : List Char) : Fts5Query 0 [.string text]
  | starred (text : List Char) : Fts5Query 0 [.string text, .symbol '*']
  | near {texts : List (List Char)} {digits : List Char} (htexts : texts ≠ []) (hdigits : digits ≠ [])
      (hdigit : ∀ ch ∈ digits, ch.isDigit = true) :
      Fts5Query 0 (.bareword ['N', 'E', 'A', 'R'] :: .symbol '(' :: (texts.map .string ++
        [.symbol ',', .bareword digits, .symbol ')']))
  | beside {l r : ℕ} {left right : List Fts5Token} (hleft : Fts5Query l left) (hl : l ≤ 1) (hright : Fts5Query r right)
      (hr : r ≤ 1) : Fts5Query 1 (left ++ right)
  | group {level : ℕ} {query : List Fts5Token} (h : Fts5Query level query) :
      Fts5Query 2 (.symbol '(' :: (query ++ [.symbol ')']))
  | join {level l r : ℕ} {left right : List Fts5Token} {operator : Fts5Token} (hoperator : operator.looseness = some level)
      (hleft : Fts5Query l left) (hl : l ≤ level) (hright : Fts5Query r right) (hr : r ≤ level) :
      Fts5Query level (left ++ operator :: right)

def fts5 : SearchLanguage Fts5Token where
  lexer := ⟨Fts5Token.next, Fts5Token.next_shorter⟩
  stops ch := ch == ' ' || ch == '(' || ch == ')' || ch == ',' || ch == '*'
  write := Fts5Token.write
  isBlank token := token == .blank
  content := Fts5Token.content
  Query := Fts5Query

end Fts5

variable (u : CharTables)

/-- A text holds something to search for, and is made of runs of the input with blanks between them. -/
def Taken (input text : List Char) : Prop :=
  hasSearchableChar u text = true ∧ ∃ runs : List (List Char), (∀ run ∈ runs, run <:+: input) ∧ text = [' '].intercalate runs

/-- What a builder writes: tokens of its `own`, and quoted texts taken from the input. -/
def Writes {τ : Type} (language : SearchLanguage τ) (own : List τ) (input : List Char) (token : τ) : Prop :=
  match language.content token with
  | none => token ∈ own
  | some text => Taken u input text

/-- The output is empty, or reads as an expression of the tokens it is written of. -/
def StaysText {τ : Type} (language : SearchLanguage τ) (own : List τ) (input output : List Char) : Prop :=
  output = [] ∨ ∃ tokens level, output = tokens.flatMap language.write ∧ language.lexer.tokens output = some tokens ∧
    language.Query level (tokens.filter fun token => !language.isBlank token) ∧
    ∀ token ∈ tokens, Writes u language own input token

/-- No piece of the input that the FTS5 builders quote holds a NUL. -/
structure NoNul (input : List Char) : Prop where
  segments : ∀ segment ∈ searchableSegments u input, '\x00' ∉ segment.text
  words : ∀ word ∈ searchWords u input, '\x00' ∉ word

section Mysql

def IsMysqlWord (word : List Char) : Prop := hasSearchableChar u word = true ∧ ∀ ch ∈ word, separatesWords ch = false

/-- An optional operator before a phrase, or before words of which the last may have a star. -/
inductive MysqlItem : List Char → Prop where
  | phrase {operator : Option Char} {text : List Char} (hoperator : ∀ ch ∈ operator, isBooleanOperator ch = true)
      (htext : hasSearchableChar u text = true) (hquote : '"' ∉ text) : MysqlItem (operator.toList ++ '"' :: (text ++ ['"']))
  | words {operator : Option Char} {words : List (List Char)} (starred : Bool)
      (hoperator : ∀ ch ∈ operator, isBooleanOperator ch = true) (hne : words ≠ []) (hwords : ∀ word ∈ words, IsMysqlWord u word) :
      MysqlItem (operator.toList ++ [' '].intercalate words ++ (if starred then ['*'] else []))

end Mysql

end TideOrm
