import Mathlib.Data.List.Basic

/-! Strings between quotes, written and read back. -/

namespace TideOrm.QuotedText

/-- Quotes and backslashes are escaped. -/
def escaped (text : List Char) : List Char := text.flatMap fun ch => if ch = '"' ∨ ch = '\\' then ['\\', ch] else [ch]

def quotedText (text : List Char) : List Char := '"' :: (escaped text ++ ['"'])

/-- The JSON text of a list of strings. -/
def listText (texts : List String) : String :=
  String.ofList ('[' :: ([','].intercalate (texts.map fun text => quotedText text.toList) ++ [']']))

/-- The strings between quotes; `some` is what is read of one. -/
@[simp] def readStrings : Option (List Char) → List Char → List (List Char)
  | _, [] => []
  | none, '"' :: rest => readStrings (some []) rest
  | none, _ :: rest => readStrings none rest
  | some text, '"' :: rest => text :: readStrings none rest
  | some text, '\\' :: ch :: rest => readStrings (some (text ++ [ch])) rest
  | some text, ch :: rest => readStrings (some (text ++ [ch])) rest

theorem readStrings_escaped (text read rest : List Char) :
    readStrings (some read) (escaped text ++ '"' :: rest) = (read ++ text) :: readStrings none rest := by
  induction text generalizing read with
  | nil => rw [List.append_nil]; rfl
  | cons ch text ih =>
    have hstep : readStrings (some read) (escaped (ch :: text) ++ '"' :: rest) =
        readStrings (some (read ++ [ch])) (escaped text ++ '"' :: rest) := by
      rw [escaped, List.flatMap_cons]
      split_ifs with hquote
      · rfl
      · rw [not_or] at hquote
        rw [List.append_assoc, List.singleton_append, readStrings]
        · rfl
        · exact hquote.1
        · exact fun _ _ hslash _ => hquote.2 hslash
    rw [hstep, ih, List.append_assoc, List.singleton_append]

theorem readStrings_quoted (text rest : List Char) : readStrings none (quotedText text ++ rest) = text :: readStrings none rest := by
  rw [quotedText, List.cons_append, readStrings, List.append_assoc]
  exact readStrings_escaped text [] rest

theorem readStrings_items (texts : List (List Char)) :
    readStrings none ([','].intercalate (texts.map quotedText) ++ [']']) = texts := by
  induction texts with
  | nil => rfl
  | cons text texts ih =>
    cases texts with
    | nil =>
      rw [List.map_singleton, List.intercalate_singleton, readStrings_quoted]
      rfl
    | cons next texts =>
      rw [List.map_cons, List.map_cons, List.intercalate_cons_cons, List.append_assoc, List.append_assoc, readStrings_quoted,
        List.singleton_append, readStrings, ← List.map_cons, ih]
      exact fun h => absurd h (by decide)

/-- The elements of a JSON list of strings. -/
def jsonEach (text : String) : List String := (readStrings none text.toList).map String.ofList

theorem jsonEach_listText (texts : List String) : jsonEach (listText texts) = texts := by
  have hitems := readStrings_items (texts.map String.toList)
  rw [List.map_map] at hitems
  rw [jsonEach, listText, String.toList_ofList, readStrings]
  · refine (congrArg (List.map String.ofList) hitems).trans ?_
    rw [List.map_map]
    exact List.map_id'' (fun text => String.ofList_toList) texts
  · exact fun h => absurd h (by decide)

end TideOrm.QuotedText
