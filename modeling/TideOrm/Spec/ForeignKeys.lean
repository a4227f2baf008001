import TideOrm.Spec.Subquery

/-! The scan of a migration for statements that switch SQLite's foreign keys off
(`migration/sqlite_foreign_keys.rs`). -/

namespace TideOrm

/-- Whether the token is one of `symbols`. -/
def Token.isSymbol (token : Token) (symbols : List (List Char)) : Bool := token.kind == .symbol && symbols.contains token.text

/-- The value of a digit in bases up to 16. -/
def hexDigitValue (ch : Char) : ℕ :=
  if ch.isDigit then ch.toNat - 48 else if 97 ≤ ch.toNat then ch.toNat - 87 else ch.toNat - 55

/-- `char::is_ascii_hexdigit` -/
def isHexDigit (ch : Char) : Bool :=
  ch.isDigit || decide (97 ≤ ch.toNat ∧ ch.toNat ≤ 102) || decide (65 ≤ ch.toNat ∧ ch.toNat ≤ 70)

/-- One digit more of a signed 32-bit integer. -/
def pushDigit (radix number : ℕ) (ch : Char) : Option ℕ :=
  let pushed := number * radix + hexDigitValue ch
  if pushed ≤ 2147483647 then some pushed else none

/-- `i32::from_str_radix` of digits without a sign. -/
def fromStrRadix (digits : List Char) (radix : ℕ) : Option ℕ := if digits = [] then none else digits.foldlM (pushDigit radix) 0

/-- What follows `0x` or `0X`. -/
def stripHex (value : List Char) : Option (List Char) :=
  if "0x".toList.isPrefixOf value || "0X".toList.isPrefixOf value then some (value.drop 2) else none

/-- SQLite's boolean pragma conversion, of a signed 32-bit integer prefix and its low byte. -/
def sqlitePragmaEnabled (value : List Char) : Bool :=
  if value.head?.any Char.isDigit then
    let number := match (stripHex value).filter fun hex => hex.head?.any isHexDigit with
      | some hex => fromStrRadix (hex.takeWhile isHexDigit) 16
      | none => fromStrRadix (value.takeWhile Char.isDigit) 10
    number.any fun number => number % 256 != 0
  else anyKeyword ["on".toList, "true".toList, "yes".toList] value

/-- The text of a pragma's value from its tokens. -/
def valueText : List Token → List Char
  | [token] => token.unquoted.getD []
  | tokens => tokens.flatMap Token.text

/-- Whether the statement requests disabling the foreign keys. -/
def statementDisables : List Token → Bool
  | [] => false
  | keyword :: rest =>
    if !keyword.isWord ["pragma".toList] then false
    else
      match if rest[1]?.any fun token => token.isSymbol [['.']] then rest.drop 2 else rest with
      | [] => false
      | name :: args =>
        if !(name.unquoted.any fun name => eqIgnoreAsciiCase name "foreign_keys".toList) ||
            !(args.head?.any fun token => token.isSymbol [['='], ['(']]) then false
        else
          -- a numeric unary plus is removed
          let args := if args[1]?.any fun token => token.isSymbol [['+']] then args.drop 2 else args.drop 1
          !sqlitePragmaEnabled (valueText (args.takeWhile fun token => !token.isSymbol [[')']]))

section

variable (u : CharTables)

def sqliteSignificant (sql : List Char) : List Token :=
  (sqliteTokens u sql).filter fun token => token.kind != .space && token.kind != .comment

/-- Whether any statement requests disabling SQLite's foreign keys. -/
def disablesForeignKeys (sql : List Char) : Bool :=
  ((sqliteSignificant u sql).splitOnP fun token => token.text == [';']).any statementDisables

end

end TideOrm
