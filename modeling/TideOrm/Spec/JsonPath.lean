import TideOrm.Lib.Decimal
import TideOrm.Lib.JsonString
import TideOrm.Spec.Migrator

/-! JSON paths (`query/db_sql.rs`): the steps of a path, the texts they are written as and the scanner
that reads them. -/

namespace TideOrm

open Lib

inductive JsonPathStep where
  | member (key : String)
  | element (index : UInt64)
deriving DecidableEq

section Rendering

/-- The JSON path of the member `key` below `path`, the key quoted. -/
def jsonMemberPath (path : List Char) (key : String) : List Char := path ++ '.' :: JsonString.write key.toList

def jsonStepPath (path : List Char) : JsonPathStep → List Char
  | .member key => jsonMemberPath path key
  | .element index => path ++ '[' :: (Nat.toDigits 10 index.toNat ++ [']'])

def jsonPathText (steps : List JsonPathStep) : List Char := steps.foldl jsonStepPath ['$']

/-- `str::replace` of one character. -/
def replaceChar (ch : Char) (replacement text : List Char) : List Char :=
  text.flatMap fun other => if other = ch then replacement else [other]

/-- The key, or the index in decimal. -/
def JsonPathStep.text : JsonPathStep → List Char
  | .member key => key.toList
  | .element index => Nat.toDigits 10 index.toNat

/-- One element of the `text[]` literal. -/
def postgresPathElement (step : JsonPathStep) : List Char :=
  '"' :: (replaceChar '"' ['\\', '"'] (replaceChar '\\' ['\\', '\\'] step.text) ++ ['"'])

/-- A JSON path as the `text[]` literal PostgreSQL's `jsonb_set` takes. -/
def postgresJsonPathArray (steps : List JsonPathStep) : List Char :=
  '{' :: ([','].intercalate (steps.map postgresPathElement) ++ ['}'])

end Rendering

section Parsing

/-- The JSON string between quotes put together, up to the closing quote, and the characters after it. -/
def scanQuoted (quote : Char) (json : List Char) : List Char → Option (List Char × List Char)
  | [] => none
  | ch :: rest =>
    if ch = quote then some (json ++ ['"'], rest)
    else if ch = '\\' then
      match rest with
      | [] => none
      | escaped :: rest =>
        scanQuoted quote (json ++ if quote = '\'' ∧ escaped = '\'' then ['\''] else ['\\', escaped]) rest
    else scanQuoted quote (json ++ if ch = '"' then ['\\', ch] else [ch]) rest

/-- The key between the quotes, of which `quote` is the opening one, and the characters after it. -/
def parseQuotedJsonPathSegment (quote : Char) (chars : List Char) : Option (String × List Char) :=
  (scanQuoted quote ['"'] chars).bind fun (json, rest) =>
    (JsonString.read json).map fun key => (String.ofList key, rest)

/-- `str::parse::<u64>` of digits. -/
def parseU64 (digits : List Char) : Option UInt64 :=
  if digitsValue digits < 2 ^ 64 then some (.ofNat (digitsValue digits)) else none

/-- The characters of an unquoted key. -/
def inSegment (ch : Char) : Bool := ch != '.' && ch != '['

/-- What follows a dot. -/
def parseDotStep : List Char → Option (JsonPathStep × List Char)
  | [] => none
  | ch :: rest =>
    if ch = '"' ∨ ch = '\'' then (parseQuotedJsonPathSegment ch rest).map fun (key, rest) => (.member key, rest)
    else
      let segment := String.ofList ((ch :: rest).takeWhile inSegment)
      if isSafeIdentifierSegment segment then some (.member segment, (ch :: rest).dropWhile inSegment) else none

/-- What stands between brackets, the closing one still to come. -/
def parseBracketed : List Char → Option (JsonPathStep × List Char)
  | [] => none
  | ch :: rest =>
    if ch = '"' ∨ ch = '\'' then (parseQuotedJsonPathSegment ch rest).map fun (key, rest) => (.member key, rest)
    else if ch.isDigit then
      (parseU64 ((ch :: rest).takeWhile Char.isDigit)).map fun index => (.element index, (ch :: rest).dropWhile Char.isDigit)
    else none

def parseStep : List Char → Option (JsonPathStep × List Char)
  | '.' :: rest => parseDotStep rest
  | '[' :: rest => (parseBracketed rest).bind fun (step, rest) =>
    match rest with
    | ']' :: rest => some (step, rest)
    | _ => none
  | _ => none

theorem scanQuoted_length {quote : Char} {json chars json' rest : List Char}
    (h : scanQuoted quote json chars = some (json', rest)) : rest.length < chars.length := by
  fun_induction scanQuoted quote json chars with
  | case1 => cases h
  | case2 =>
    obtain ⟨-, rfl⟩ := Prod.mk.inj (Option.some.inj h)
    exact Nat.lt_succ_self _
  | case3 => cases h
  | case4 _ _ _ _ ih => exact (ih h).trans (Nat.lt_succ_of_lt (Nat.lt_succ_self _))
  | case5 _ _ _ _ _ ih => exact (ih h).trans (Nat.lt_succ_self _)

theorem parseQuoted_length {quote : Char} {chars rest : List Char} {key : String}
    (h : parseQuotedJsonPathSegment quote chars = some (key, rest)) : rest.length < chars.length := by
  obtain ⟨⟨json, rest'⟩, hscan, hread⟩ := Option.bind_eq_some_iff.1 h
  obtain ⟨text, -, heq⟩ := Option.map_eq_some_iff.1 hread
  obtain ⟨-, rfl⟩ := Prod.mk.inj heq
  exact scanQuoted_length hscan

theorem parseQuotedStep_length {quote : Char} {chars rest : List Char} {step : JsonPathStep}
    (h : ((parseQuotedJsonPathSegment quote chars).map fun (key, rest) => (JsonPathStep.member key, rest)) = some (step, rest)) :
    rest.length < chars.length := by
  obtain ⟨⟨key, rest'⟩, hparse, heq⟩ := Option.map_eq_some_iff.1 h
  obtain ⟨-, rfl⟩ := Prod.mk.inj heq
  exact parseQuoted_length hparse

theorem parseStep_length {chars rest : List Char} {step : JsonPathStep} (h : parseStep chars = some (step, rest)) :
    rest.length < chars.length := by
  have hquoted {ch : Char} {chars rest : List Char} {step : JsonPathStep}
      (h : ((parseQuotedJsonPathSegment ch chars).map fun (key, rest) => (JsonPathStep.member key, rest)) = some (step, rest)) :
      rest.length ≤ (ch :: chars).length := (parseQuotedStep_length h).le.trans (Nat.le_succ _)
  unfold parseStep at h
  split at h
  · next rest' =>
    refine Nat.lt_succ_of_le ?_
    unfold parseDotStep at h
    split at h
    · cases h
    · split_ifs at h
      · exact hquoted h
      · dsimp only at h
        split_ifs at h
        obtain ⟨-, rfl⟩ := Prod.mk.inj (Option.some.inj h)
        exact (List.dropWhile_suffix _).length_le
  · next rest' =>
    obtain ⟨⟨step', after⟩, hstep, hclose⟩ := Option.bind_eq_some_iff.1 h
    have hafter : after.length ≤ rest'.length := by
      unfold parseBracketed at hstep
      split at hstep
      · cases hstep
      · split_ifs at hstep
        · exact hquoted hstep
        · obtain ⟨index, -, heq⟩ := Option.map_eq_some_iff.1 hstep
          obtain ⟨-, rfl⟩ := Prod.mk.inj heq
          exact (List.dropWhile_suffix _).length_le
    dsimp only at hclose
    split at hclose
    · obtain ⟨-, rfl⟩ := Prod.mk.inj (Option.some.inj hclose)
      rw [List.length_cons] at hafter
      rw [List.length_cons]
      omega
    · cases hclose
  · cases h

def parseSteps (chars : List Char) : Option (List JsonPathStep) :=
  match chars with
  | [] => some []
  | ch :: rest =>
    match h : parseStep (ch :: rest) with
    | none => none
    | some (step, after) =>
      have := parseStep_length h
      (parseSteps after).map (step :: ·)
termination_by chars.length
decreasing_by exact this

/-- The steps of a path; `none` for what is no path of such steps. -/
def parseJsonPath : List Char → Option (List JsonPathStep)
  | '$' :: rest => parseSteps rest
  | _ => none

end Parsing

/-- What PostgreSQL's array input is reading: the start of an element, a quoted element, or what follows one. -/
inductive ArrayInput where
  | start
  | quoted (text : List Char)
  | done

/-- The elements of an array literal, all of them quoted: a backslash takes the next character as it is. -/
def readElements : ArrayInput → List (List Char) → List Char → Option (List (List Char))
  | _, _, [] => none
  | .start, elements, ch :: rest => if ch = '"' then readElements (.quoted []) elements rest else none
  | .quoted text, elements, ch :: rest =>
    if ch = '"' then readElements .done (elements ++ [text]) rest
    else if ch = '\\' then
      match rest with
      | [] => none
      | escaped :: rest => readElements (.quoted (text ++ [escaped])) elements rest
    else readElements (.quoted (text ++ [ch])) elements rest
  | .done, elements, ch :: rest =>
    if ch = ',' then readElements .start elements rest else if ch = '}' ∧ rest.isEmpty then some elements else none

/-- The elements of a `text[]` literal. -/
def readTextArray : List Char → Option (List (List Char))
  | ['{', '}'] => some []
  | '{' :: rest => readElements .start [] rest
  | _ => none

end TideOrm
