import TideOrm.Lib.ByteText
import TideOrm.Spec.SqlLexer

/-! The lexer over byte offsets, as `internal/sql_lexer.rs` has it. `none` is a panic: a slice that cuts a character
or leaves the text, an index behind the end, an `unwrap` of nothing. A loop that uses up its fuel is `none` too. -/

namespace TideOrm

open Lib

/-- `quoted_end` over any positions, with the width of a character there. -/
def quotedEndAt (close : Char) (mode : EscapeMode) (stop : ℕ) (width : Char → ℕ) : Bool → List (ℕ × Char) → ℕ × QuotedRun
  | _, [] => (stop, .unterminated)
  | true, _ :: chars => quotedEndAt close mode stop width false chars
  | false, (index, ch) :: chars =>
    let next := chars.head?.map Prod.snd
    if ch = '\\' ∧ mode ≠ .doubled then
      if mode = .rejectAmbiguous then
        if next = some close then (index, .ambiguousEscape)
        else quotedEndAt close mode stop width (decide (next = some '\\')) chars
      else quotedEndAt close mode stop width true chars
    else if ch = close then
      if next = some close then quotedEndAt close mode stop width true chars else (index + width ch, .closed)
    else quotedEndAt close mode stop width false chars

def quotedLenBytes (sql : List Char) (delimiter : Char) (backslash : Bool) : ℕ :=
  let close := if delimiter = '[' then ']' else delimiter
  let mode := if backslash then EscapeMode.backslash else .doubled
  (quotedEndAt close mode (byteLen sql) Char.utf8Size false ((charIndices 0 sql).drop 1)).1

/-- `depth` is an `i32` that wraps, as in a release build. -/
def blockCommentAt (sql : List Char) (nested : Bool) : ℕ → BitVec 32 → ℕ → Option ℕ
  | 0, _, _ => none
  | fuel + 1, depth, pos =>
    if pos < byteLen sql then do
      let rest ← sliceFrom sql pos
      if nested ∧ ['/', '*'].isPrefixOf rest then blockCommentAt sql nested fuel (depth + 1) (pos + 2)
      else if ['*', '/'].isPrefixOf rest then
        if depth - 1 = 0 then some (pos + 2) else blockCommentAt sql nested fuel (depth - 1) (pos + 2)
      else do
        let ch ← rest.head?
        blockCommentAt sql nested fuel depth (pos + ch.utf8Size)
    else some pos

def blockCommentBytes (sql : List Char) (nested : Bool) : Option ℕ := blockCommentAt sql nested (byteLen sql + 1) 1 2

/-- The inner loop of `sqlite_parameter_len`. -/
def sqliteSuffixAt (sql : List Char) : ℕ → ℕ → Option ℕ
  | 0, _ => none
  | fuel + 1, pos =>
    if pos < byteLen sql then do
      let rest ← sliceFrom sql pos
      let ch ← rest.head?
      if isAsciiWhitespace ch then some pos
      else if ch = ')' then some (pos + ch.utf8Size)
      else sqliteSuffixAt sql fuel (pos + ch.utf8Size)
    else some pos

section

variable (u : CharTables)

def sqliteNameAt (sql : List Char) : ℕ → Bool → ℕ → Option ℕ
  | 0, _, _ => none
  | fuel + 1, hasName, pos =>
    if pos < byteLen sql then do
      let rest ← sliceFrom sql pos
      let ch ← rest.head?
      if identifierChar u ch || !isAscii ch then sqliteNameAt sql fuel true (pos + ch.utf8Size)
      else if [':', ':'].isPrefixOf rest then sqliteNameAt sql fuel hasName (pos + 2)
      else if ch = '(' ∧ hasName then sqliteSuffixAt sql (byteLen sql + 1) (pos + 1)
      else some pos
    else some pos

def sqliteParameterBytes (sql : List Char) : Option ℕ := sqliteNameAt u sql (byteLen sql + 1) false 1

def dollarTagBytes (sql : List Char) : Option (Option ℕ) := do
  let tail ← sliceFrom sql 1
  match findChar (· == '$') tail with
  | none => some none
  | some found =>
    let stop := found + 1
    let tag ← slice sql 1 stop
    if !(tag.head?.any Char.isDigit) && tag.all (fun ch => ch == '_' || u.isAlphanumeric ch) then some (some (stop + 1))
    else some none

def dollarBytes (sql : List Char) : Option (Option ℕ) := do
  match ← dollarTagBytes u sql with
  | none => some none
  | some opening =>
    let delimiter ← sliceTo sql opening
    let rest ← sliceFrom sql opening
    some ((findStr delimiter rest).map fun found => opening + found + byteLen delimiter)

/-- Whether the `'` at `offset` opens an `E` string: the byte before it, and the character before that. -/
def opensEscapedAt (sql : List Char) (offset : ℕ) : Option Bool :=
  if 0 < offset then do
    let byte ← (utf8Bytes sql)[offset - 1]?
    if byte = 101 ∨ byte = 69 then
      if offset = 1 then some true
      else do
        let before ← sliceTo sql (offset - 1)
        some !(before.getLast?.any (identifierChar u))
    else some false
  else some false

def asciiDigit (byte : UInt8) : Bool := decide (48 ≤ byte ∧ byte ≤ 57)

/-- The kind and the length of the token that `rest` begins with, which is `sql` from `offset` on. -/
def tokenBytes (sqlite : Bool) (sql : List Char) (offset : ℕ) (rest : List Char) (first : Char) : Option (Kind × ℕ) :=
  if spaceChar sqlite first then
    some (.space, (findChar (fun ch => !spaceChar sqlite ch) rest).getD (byteLen rest))
  else if ['-', '-'].isPrefixOf rest then some (.comment, (findChar (· == '\n') rest).getD (byteLen rest))
  else if ['/', '*'].isPrefixOf rest then (blockCommentBytes rest !sqlite).map (Kind.comment, ·)
  else if first = '\'' ∨ first = '"' ∨ first = '`' ∨ first = '[' then
    (if !sqlite && first == '\'' then opensEscapedAt u sql offset else some false).map fun escaped =>
      (if first = '\'' then .literal else .identifier, quotedLenBytes rest first escaped)
  else if sqlite ∧ (first = '$' ∨ first = ':' ∨ first = '@' ∨ first = '#') then
    (sqliteParameterBytes u rest).map (Kind.parameter, ·)
  else if first = '$' then do
    match ← dollarBytes u rest with
    | some len => some (.literal, len)
    | none =>
      let tail ← sliceFrom rest 1
      let len := 1 + ((utf8Bytes tail).takeWhile asciiDigit).length
      some (if 1 < len then .parameter else .symbol, len)
  else if first = '_' ∨ u.isAlphabetic first then
    some (.word, (findChar (fun ch => !identifierChar u ch) rest).getD (byteLen rest))
  else some (.symbol, first.utf8Size)

/-- One call of the closure in `scan`: the token at `offset` and the offset behind it, `some none` at the end. -/
def nextToken (sqlite : Bool) (sql : List Char) (offset : ℕ) : Option (Option (Token × ℕ)) := do
  let rest ← sliceFrom sql offset
  match rest.head? with
  | none => some none
  | some first =>
    let (kind, len) ← tokenBytes u sqlite sql offset rest first
    let text ← sliceTo rest len
    some (some (⟨text, offset, kind⟩, offset + len))

/-- The tokens from `offset` on, where `scan` ends within `fuel` calls. -/
def scanAt (sqlite : Bool) (sql : List Char) : ℕ → ℕ → Option (List Token)
  | 0, _ => none
  | fuel + 1, offset => do
    match ← nextToken u sqlite sql offset with
    | none => some []
    | some (token, offset') =>
      let more ← scanAt sqlite sql fuel offset'
      some (token :: more)

end

end TideOrm
