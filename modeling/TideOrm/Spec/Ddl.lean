import TideOrm.Spec.Placeholders
import TideOrm.Spec.SqlSafety
import TideOrm.Spec.TableTags

/-! How a column is written in a statement (`migration/types.rs`, `migration/ddl.rs`). -/

namespace TideOrm

namespace Ddl

inductive ColumnType where
  | smallInteger
  | integer
  | bigInteger
  | tinyUnsigned
  | smallUnsigned
  | unsigned
  | bigUnsigned
  | float
  | double
  | decimal (precision scale : UInt32)
  | numeric
  | string
  | varchar (length : UInt32)
  | text
  | boolean
  | date
  | time
  | dateTime
  | timestamp
  | timestampTz
  | uuid
  | json
  | jsonb
  | binary
  | integerArray
  | bigIntegerArray
  | textArray
  | booleanArray
  | doubleArray
  | jsonArray
  | custom (sql : List Char)
deriving DecidableEq

namespace ColumnType

def canAutoIncrement : ColumnType → Bool
  | smallInteger | integer | bigInteger | tinyUnsigned | smallUnsigned | unsigned | bigUnsigned | custom _ => true
  | _ => false

/-- `VARCHAR(n)` -/
def varcharSql (length : UInt32) : List Char := "VARCHAR(".toList ++ TideOrm.decimal length.toNat ++ [')']

/-- `DECIMAL(p, s)` -/
def decimalSql (precision scale : UInt32) : List Char :=
  "DECIMAL(".toList ++ TideOrm.decimal precision.toNat ++ ", ".toList ++ TideOrm.decimal scale.toNat ++ [')']

def toPostgresSql : ColumnType → List Char
  | smallInteger => "SMALLINT".toList
  | integer => "INTEGER".toList
  | bigInteger => "BIGINT".toList
  | tinyUnsigned => "SMALLINT".toList
  | smallUnsigned => "INTEGER".toList
  | unsigned => "INTEGER".toList
  | bigUnsigned => "BIGINT".toList
  | float => "REAL".toList
  | double => "DOUBLE PRECISION".toList
  | decimal precision scale => decimalSql precision scale
  | numeric => "DECIMAL".toList
  | string => "VARCHAR(255)".toList
  | varchar length => varcharSql length
  | text => "TEXT".toList
  | boolean => "BOOLEAN".toList
  | date => "DATE".toList
  | time => "TIME".toList
  | dateTime => "TIMESTAMP".toList
  | timestamp => "TIMESTAMP".toList
  | timestampTz => "TIMESTAMPTZ".toList
  | uuid => "UUID".toList
  | json => "JSON".toList
  | jsonb => "JSONB".toList
  | binary => "BYTEA".toList
  | integerArray => "INTEGER[]".toList
  | bigIntegerArray => "BIGINT[]".toList
  | textArray => "TEXT[]".toList
  | booleanArray => "BOOLEAN[]".toList
  | doubleArray => "DOUBLE PRECISION[]".toList
  | jsonArray => "JSONB[]".toList
  | custom sql => sql

def toMysqlSql : ColumnType → List Char
  | smallInteger => "SMALLINT".toList
  | integer => "INT".toList
  | bigInteger => "BIGINT".toList
  | tinyUnsigned => "TINYINT UNSIGNED".toList
  | smallUnsigned => "SMALLINT UNSIGNED".toList
  | unsigned => "INT UNSIGNED".toList
  | bigUnsigned => "BIGINT UNSIGNED".toList
  | float => "FLOAT".toList
  | double => "DOUBLE".toList
  | decimal precision scale => decimalSql precision scale
  | numeric => "DECIMAL(65,30)".toList
  | string => "VARCHAR(255)".toList
  | varchar length => varcharSql length
  | text => "LONGTEXT".toList
  | boolean => "TINYINT(1)".toList
  | date => "DATE".toList
  | time => "TIME(6)".toList
  | dateTime | timestamp | timestampTz => "DATETIME(6)".toList
  | uuid => "BINARY(16)".toList
  | json | jsonb => "JSON".toList
  | binary => "LONGBLOB".toList
  | integerArray | bigIntegerArray | textArray | booleanArray | doubleArray | jsonArray => "JSON".toList
  | custom sql => sql

def toSqliteSql : ColumnType → List Char
  | smallInteger | integer | bigInteger | tinyUnsigned | smallUnsigned | unsigned | bigUnsigned | boolean =>
    "INTEGER".toList
  | float | double | decimal _ _ | numeric => "REAL".toList
  | string | varchar _ | text | uuid | date | time | dateTime | timestamp | timestampTz | json | jsonb
  | integerArray | bigIntegerArray | textArray | booleanArray | doubleArray | jsonArray => "TEXT".toList
  | binary => "BLOB".toList
  | custom sql => sql

def toSql (columnType : ColumnType) : DatabaseType → List Char
  | .postgres => columnType.toPostgresSql
  | .mySql => columnType.toMysqlSql
  | .mariaDb => columnType.toMysqlSql
  | .sqlite => columnType.toSqliteSql

end ColumnType

/-- One column of a `CREATE TABLE` or an `ALTER TABLE ... ADD COLUMN`. -/
structure ColumnDefinition where
  name : List Char
  columnType : ColumnType
  nullable : Bool
  default : Option (List Char)
  primaryKey : Bool
  autoIncrement : Bool
  unique : Bool
  check : Option (List Char)
  extra : Option (List Char)
deriving DecidableEq

def ColumnDefinition.new (name : List Char) (columnType : ColumnType) : ColumnDefinition where
  name := name
  columnType := columnType
  nullable := true
  default := none
  primaryKey := false
  autoIncrement := false
  unique := false
  check := none
  extra := none

/-- The current timestamp in one of the spellings the backends share. -/
def isCurrentTimestamp (default : List Char) : Bool :=
  ["CURRENT_TIMESTAMP".toList, "CURRENT_TIMESTAMP()".toList, "NOW()".toList, "LOCALTIMESTAMP".toList,
    "LOCALTIMESTAMP()".toList].contains ((trim default).map Char.toUpper)

/-- `char::to_uppercase` as far as the names of the integer types go: of the characters outside
ASCII only these two become one of their letters. -/
def toUppercase (ch : Char) : Char := if ch = 'ı' then 'I' else if ch = 'ſ' then 'S' else ch.toUpper

/-- The serial pseudo-type as wide as an integer type of PostgreSQL. -/
def postgresSerialType (sqlType : List Char) : Option (List Char) :=
  let upper := (trim sqlType).map toUppercase
  if ["SMALLINT".toList, "INT2".toList].contains upper then some "SMALLSERIAL".toList
  else if ["INTEGER".toList, "INT".toList, "INT4".toList].contains upper then some "SERIAL".toList
  else if ["BIGINT".toList, "INT8".toList].contains upper then some "BIGSERIAL".toList
  else none

namespace ColumnDefinition

def typeSql (column : ColumnDefinition) (db : DatabaseType) : List Char :=
  let sql := column.columnType.toSql db
  if column.autoIncrement ∧ db = .postgres then (postgresSerialType sql).getD sql else sql

/-- The types MySQL takes only an expression as the default of. -/
def takesExpressionDefault : ColumnType → Bool
  | .text | .json | .jsonb | .binary | .integerArray | .bigIntegerArray | .textArray | .booleanArray
  | .doubleArray | .jsonArray => true
  | _ => false

def defaultSql (column : ColumnDefinition) (db : DatabaseType) (default : List Char) : List Char :=
  match db with
  | .postgres => default
  | .sqlite => if isCurrentTimestamp default then "CURRENT_TIMESTAMP".toList else default
  | .mySql | .mariaDb =>
    let acceptedAsIs := eqIgnoreAsciiCase default "NULL".toList ||
      (default.head? == some '(' && default.getLast? == some ')')
    if [ColumnType.dateTime, .timestamp, .timestampTz].contains column.columnType && isCurrentTimestamp default then
      "CURRENT_TIMESTAMP(6)".toList
    else if takesExpressionDefault column.columnType && !acceptedAsIs then '(' :: default ++ [')']
    else default

def toSql (column : ColumnDefinition) (db : DatabaseType) : List Char :=
  quoteIdent db column.name ++ ' ' :: column.typeSql db ++
    (if column.autoIncrement && (db == .mySql || db == .mariaDb) && column.columnType.canAutoIncrement
      then " AUTO_INCREMENT".toList else []) ++
    (if !column.nullable && (!column.primaryKey || db == .sqlite) then " NOT NULL".toList else []) ++
    (column.default.elim [] fun default => " DEFAULT ".toList ++ column.defaultSql db default) ++
    (if column.unique && !column.primaryKey then " UNIQUE".toList else []) ++
    (column.check.elim [] fun check => " CHECK (".toList ++ check ++ [')']) ++
    column.extra.elim [] fun extra => ' ' :: extra

end ColumnDefinition

/-- Render `ALTER TABLE ... ADD COLUMN` on the already-quoted `table`. -/
def addColumn (db : DatabaseType) (table : List Char) (column : ColumnDefinition) : List Char :=
  "ALTER TABLE ".toList ++ table ++ " ADD COLUMN ".toList ++ column.toSql db

def MAX_IDENTIFIER_BYTES : ℕ := 63

/-- The longest whole characters at the front of `name` within `bytes` bytes. -/
def cutAtBoundary : ℕ → List Char → List Char
  | _, [] => []
  | bytes, ch :: rest => if ch.utf8Size ≤ bytes then ch :: cutAtBoundary (bytes - ch.utf8Size) rest else []

/-- FNV-1a of the bytes of `name`. -/
def nameHash (name : List Char) : UInt32 :=
  (name.flatMap String.utf8EncodeChar).foldl (fun hash byte => (hash ^^^ byte.toUInt32) * 0x01000193) 0x811c9dc5

/-- A number in hexadecimal, padded to eight digits. -/
def hex8 (n : UInt32) : List Char :=
  let digits := Nat.toDigits 16 n.toNat
  List.replicate (8 - digits.length) '0' ++ digits

def boundedIndexName (name : List Char) : List Char :=
  if utf8Len name ≤ MAX_IDENTIFIER_BYTES then name
  else cutAtBoundary (MAX_IDENTIFIER_BYTES - 9) name ++ '_' :: hex8 (nameHash name)

/-- The name an index on `table`'s `columns` gets when none is given. -/
def indexName (table : List Char) (columns : List (List Char)) (unique : Bool) : List Char :=
  boundedIndexName ("idx_".toList ++ table ++ '_' :: ['_'].intercalate columns ++
    if unique then "_unique".toList else [])

end Ddl

end TideOrm
