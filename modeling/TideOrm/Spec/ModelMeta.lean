import TideOrm.Spec.SqlSafety

/-! The names of a model's table and columns, and how a reference to a column is read against
them (`model/meta.rs`). -/

namespace TideOrm

structure ModelMeta where
  schemaName : Option (List Char)
  tableName : List Char
  fieldNames : List (List Char)
  columnNames : List (List Char)

/-- `str::split_once` -/
def textSplitOnce (separator : Char) (text : List Char) : Option (List Char × List Char) :=
  if separator ∈ text then
    some (text.takeWhile (· != separator), (text.dropWhile (· != separator)).drop 1)
  else none

/-- `str::rsplit_once` -/
def textRsplitOnce (separator : Char) (text : List Char) : Option (List Char × List Char) :=
  (textSplitOnce separator text.reverse).map fun parts => (parts.2.reverse, parts.1.reverse)

namespace ModelMeta

def canonicalColumnName (m : ModelMeta) (name : List Char) : Option (List Char) :=
  (m.columnNames.find? (· == name)).or
    ((m.fieldNames.zip m.columnNames).findSome? fun names => if names.1 = name then some names.2 else none)

def columnNamed (m : ModelMeta) (name : List Char) : List Char := (m.canonicalColumnName name).getD name

/-- Whether a bare or schema-qualified table reference identifies this model. -/
def ownsTableReference (m : ModelMeta) (reference : List Char) : Bool :=
  match textSplitOnce '.' reference with
  | some (schema, table) => some schema == m.schemaName && table == m.tableName
  | none => reference == m.tableName

/-- The qualifier of a column reference and the model's canonical column name. -/
def canonicalColumnParts (m : ModelMeta) (name : List Char) : Option (List Char) × List Char :=
  match textRsplitOnce '.' name with
  | some (table, column) =>
    if m.ownsTableReference table then (some m.tableName, m.columnNamed column) else (some table, column)
  | none => (none, m.columnNamed name)

/-- The column `name` names when it is one of this model's own. -/
def ownColumnName (m : ModelMeta) (name : List Char) : Option (List Char) :=
  match textRsplitOnce '.' (trim name) with
  | some (table, column) => if m.ownsTableReference table then m.canonicalColumnName column else none
  | none => m.canonicalColumnName (trim name)

end ModelMeta

end TideOrm
