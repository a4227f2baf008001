import TideOrm.Spec.JsonPath

/-! The texts of a JSON path are read back as its steps: the path by the scanner, and the array of its
keys and indices as PostgreSQL reads one. -/

namespace TideOrm

open Lib

section Keys

theorem scanQuoted_plain {quote ch : Char} (json rest : List Char) (hquote : ch ≠ quote) (hslash : ch ≠ '\\') (hdouble : ch ≠ '"') :
    scanQuoted quote json (ch :: rest) = scanQuoted quote (json ++ [ch]) rest := by
  rw [scanQuoted.eq_def]
  dsimp only
  rw [if_neg hquote, if_neg hslash, if_neg hdouble]

theorem scanQuoted_escaped (json rest : List Char) (mark : Char) :
    scanQuoted '"' json ('\\' :: mark :: rest) = scanQuoted '"' (json ++ ['\\', mark]) rest := by
  rw [scanQuoted, if_neg (by decide), if_pos rfl, if_neg fun h => absurd h.1 (by decide)]

theorem not_quote_of_hexValue {ch : Char} {n : ℕ} (h : JsonString.hexValue ch = some n) : ch ≠ '"' ∧ ch ≠ '\\' := by
  have hquote : JsonString.hexValue '"' = none := by decide
  have hslash : JsonString.hexValue '\\' = none := by decide
  refine ⟨fun heq => ?_, fun heq => ?_⟩
  · rw [heq, hquote] at h
    cases h
  · rw [heq, hslash] at h
    cases h

/-- What is written for a character is put together as it is written. -/
theorem scanQuoted_escape (ch : Char) (json rest : List Char) :
    scanQuoted '"' json (JsonString.escape ch ++ rest) = scanQuoted '"' (json ++ JsonString.escape ch) rest := by
  rcases JsonString.escape_cases ch with ⟨mark, hescape, -, -⟩ | ⟨high, low, hescape, hunit, -⟩ | ⟨hescape, hquote, hslash, -⟩
  · rw [hescape]
    exact scanQuoted_escaped json rest mark
  · obtain ⟨a, -, b, -, c, hc, d, hd, -⟩ : ∃ a, JsonString.hexValue '0' = some a ∧ ∃ b, JsonString.hexValue '0' = some b ∧
        ∃ c, JsonString.hexValue high = some c ∧ ∃ d, JsonString.hexValue low = some d ∧ _ := by
      simpa only [JsonString.codeUnit, bind, Option.bind_eq_some_iff] using hunit
    have hhigh := not_quote_of_hexValue hc
    have hlow := not_quote_of_hexValue hd
    rw [hescape]
    show scanQuoted '"' json ('\\' :: 'u' :: '0' :: '0' :: high :: low :: rest) = _
    rw [scanQuoted_escaped, scanQuoted_plain _ _ (by decide) (by decide) (by decide),
      scanQuoted_plain _ _ (by decide) (by decide) (by decide), scanQuoted_plain _ _ hhigh.1 hhigh.2 hhigh.1,
      scanQuoted_plain _ _ hlow.1 hlow.2 hlow.1]
    simp only [List.append_assoc, List.cons_append, List.nil_append]
  · rw [hescape]
    exact scanQuoted_plain json rest hquote hslash hquote

theorem scanQuoted_write (text json rest : List Char) :
    scanQuoted '"' json (text.flatMap JsonString.escape ++ '"' :: rest) =
      some (json ++ text.flatMap JsonString.escape ++ ['"'], rest) := by
  induction text generalizing json with
  | nil =>
    rw [List.flatMap_nil, List.append_nil, List.nil_append, scanQuoted.eq_def]
    exact if_pos rfl
  | cons ch text ih =>
    rw [List.flatMap_cons, List.append_assoc, scanQuoted_escape, ih, List.append_assoc json]

theorem parseQuoted_write (key : String) (rest : List Char) :
    parseQuotedJsonPathSegment '"' (key.toList.flatMap JsonString.escape ++ '"' :: rest) = some (key, rest) := by
  rw [parseQuotedJsonPathSegment, scanQuoted_write, Option.bind_some]
  have hread := JsonString.read_write key.toList
  rw [JsonString.write] at hread
  dsimp only
  rw [List.singleton_append, List.cons_append, hread, Option.map_some, String.ofList_toList]

end Keys

section Steps

/-- What a step adds to a path. -/
def stepText : JsonPathStep → List Char
  | .member key => '.' :: JsonString.write key.toList
  | .element index => '[' :: (Nat.toDigits 10 index.toNat ++ [']'])

theorem jsonPathText_eq (steps : List JsonPathStep) : jsonPathText steps = '$' :: steps.flatMap stepText := by
  have hfold (path : List Char) : steps.foldl jsonStepPath path = path ++ steps.flatMap stepText := by
    induction steps generalizing path with
    | nil => rw [List.flatMap_nil, List.append_nil]; rfl
    | cons step steps ih =>
      have hstep : jsonStepPath path step = path ++ stepText step := by cases step <;> rfl
      rw [List.foldl_cons, ih, hstep, List.flatMap_cons, List.append_assoc]
  exact hfold ['$']

theorem parseU64_toDigits (index : UInt64) : parseU64 (Nat.toDigits 10 index.toNat) = some index := by
  unfold parseU64
  rw [digitsValue_toDigits, if_pos index.toNat_lt, UInt64.ofNat_toNat]

theorem parseBracketed_toDigits (index : UInt64) (rest : List Char) :
    parseBracketed (Nat.toDigits 10 index.toNat ++ ']' :: rest) = some (.element index, ']' :: rest) := by
  have hdigits := isDigit_toDigits index.toNat
  have htake : (Nat.toDigits 10 index.toNat ++ ']' :: rest).takeWhile Char.isDigit = Nat.toDigits 10 index.toNat := by
    rw [List.takeWhile_append_of_pos hdigits, List.takeWhile_cons_of_neg (by decide), List.append_nil]
  have hdrop : (Nat.toDigits 10 index.toNat ++ ']' :: rest).dropWhile Char.isDigit = ']' :: rest := by
    rw [List.dropWhile_append_of_pos hdigits, List.dropWhile_cons_of_neg (by decide)]
  obtain ⟨ch, digits, heq⟩ := List.exists_cons_of_ne_nil (Nat.toDigits_ne_nil (b := 10) (n := index.toNat))
  have hch : ch.isDigit = true := hdigits ch (heq ▸ List.mem_cons_self)
  have hquote : ¬(ch = '"' ∨ ch = '\'') := by
    rintro (rfl | rfl)
    · exact absurd hch (by decide)
    · exact absurd hch (by decide)
  have hparse := parseU64_toDigits index
  rw [heq, List.cons_append] at htake hdrop ⊢
  rw [heq] at hparse
  rw [parseBracketed, if_neg hquote, if_pos hch, htake, hdrop, hparse]
  rfl

theorem parseStep_stepText (step : JsonPathStep) (rest : List Char) : parseStep (stepText step ++ rest) = some (step, rest) := by
  cases step with
  | member key =>
    show parseStep ('.' :: '"' :: (key.toList.flatMap JsonString.escape ++ ['"'] ++ rest)) = _
    rw [parseStep, parseDotStep, if_pos (.inl rfl), List.append_assoc, List.singleton_append, parseQuoted_write]
    rfl
  | element index =>
    show parseStep ('[' :: (Nat.toDigits 10 index.toNat ++ [']'] ++ rest)) = _
    rw [parseStep, List.append_assoc, List.singleton_append, parseBracketed_toDigits]
    rfl

theorem parseSteps_flatMap (steps : List JsonPathStep) : parseSteps (steps.flatMap stepText) = some steps := by
  induction steps with
  | nil => rw [List.flatMap_nil, parseSteps]
  | cons step steps ih =>
    have hstep := parseStep_stepText step (steps.flatMap stepText)
    rw [List.flatMap_cons]
    obtain ⟨ch, text, heq⟩ : ∃ ch text, stepText step ++ steps.flatMap stepText = ch :: text := by
      cases step <;> exact ⟨_, _, rfl⟩
    rw [heq] at hstep ⊢
    rw [parseSteps]
    split
    · next hnone => rw [hstep] at hnone; cases hnone
    · next hsome =>
      rw [hstep] at hsome
      obtain ⟨rfl, rfl⟩ := Prod.mk.inj (Option.some.inj hsome)
      rw [ih, Option.map_some]

theorem parseJsonPath_jsonPathText (steps : List JsonPathStep) : parseJsonPath (jsonPathText steps) = some steps := by
  rw [jsonPathText_eq]
  exact parseSteps_flatMap steps

end Steps

section Arrays

/-- The two replacements escape quotes and backslashes, and nothing else. -/
theorem replaceChar_twice (text : List Char) :
    replaceChar '"' ['\\', '"'] (replaceChar '\\' ['\\', '\\'] text) =
      text.flatMap fun ch => if ch = '"' ∨ ch = '\\' then ['\\', ch] else [ch] := by
  unfold replaceChar
  rw [List.flatMap_assoc]
  refine List.flatMap_congr fun ch _ => ?_
  by_cases hslash : ch = '\\'
  · subst hslash
    rfl
  · by_cases hquote : ch = '"'
    · subst hquote
      rfl
    · simp [hslash, hquote]

theorem readElements_quoted (text read : List Char) (elements : List (List Char)) (rest : List Char) :
    readElements (.quoted read) elements
        (replaceChar '"' ['\\', '"'] (replaceChar '\\' ['\\', '\\'] text) ++ '"' :: rest) =
      readElements .done (elements ++ [read ++ text]) rest := by
  rw [replaceChar_twice]
  induction text generalizing read with
  | nil =>
    rw [List.flatMap_nil, List.append_nil, List.nil_append, readElements.eq_def]
    exact if_pos rfl
  | cons ch text ih =>
    have hread : read ++ ch :: text = read ++ [ch] ++ text := by rw [List.append_assoc, List.singleton_append]
    rw [List.flatMap_cons, hread, ← ih]
    split_ifs with hspecial
    · show readElements (.quoted read) elements ('\\' :: ch :: _) = _
      rw [readElements, if_neg (by decide), if_pos rfl]
      rfl
    · rw [not_or] at hspecial
      show readElements (.quoted read) elements (ch :: _) = _
      rw [readElements.eq_def]
      dsimp only
      rw [if_neg hspecial.1, if_neg hspecial.2]
      rfl

theorem readElements_steps (step : JsonPathStep) (steps : List JsonPathStep) (elements : List (List Char)) :
    readElements .start elements ([','].intercalate ((step :: steps).map postgresPathElement) ++ ['}']) =
      some (elements ++ (step :: steps).map JsonPathStep.text) := by
  have helement (step : JsonPathStep) (elements : List (List Char)) (rest : List Char) :
      readElements .start elements (postgresPathElement step ++ rest) =
        readElements .done (elements ++ [step.text]) rest := by
    show readElements .start elements ('"' :: (_ ++ ['"'] ++ rest)) = _
    rw [readElements, if_pos rfl, List.append_assoc, List.singleton_append]
    exact readElements_quoted step.text [] elements rest
  induction steps generalizing step elements with
  | nil =>
    rw [List.map_singleton, List.intercalate_singleton, helement, List.map_singleton]
    rfl
  | cons next steps ih =>
    rw [List.map_cons, List.map_cons, List.intercalate_cons_cons, List.append_assoc, List.append_assoc, helement,
      List.singleton_append, readElements, if_pos rfl, ← List.map_cons, ih, List.append_assoc]
    rfl

theorem readTextArray_postgresJsonPathArray (steps : List JsonPathStep) :
    readTextArray (postgresJsonPathArray steps) = some (steps.map JsonPathStep.text) := by
  cases steps with
  | nil => rfl
  | cons step steps =>
    have hread := readElements_steps step steps []
    rw [postgresJsonPathArray, readTextArray]
    · exact hread
    · intro heq
      rw [heq, readElements, if_neg (by decide)] at hread
      cases hread

end Arrays

/-- A path survives being written: as the path that MySQL and SQLite read, and as the array that PostgreSQL
does. -/
theorem json_path_round_trip :
    (∀ steps, parseJsonPath (jsonPathText steps) = some steps) ∧
      (∀ steps, readTextArray (postgresJsonPathArray steps) = some (steps.map JsonPathStep.text)) ∧
      ∀ path steps, parseJsonPath path = some steps → parseJsonPath (jsonPathText steps) = some steps :=
  ⟨parseJsonPath_jsonPathText, readTextArray_postgresJsonPathArray, fun _ steps _ => parseJsonPath_jsonPathText steps⟩

end TideOrm
