import Mathlib.Data.List.Basic

/-! The masking of credentials in a URL that is logged (`internal/mod.rs`). Positions are counted in
characters. -/

namespace TideOrm.UrlMask

/-- `rmatch_indices` of a character: where it stands, the last first. -/
def rmatchIndices (ch : Char) (text : List Char) : List ℕ :=
  (text.zipIdx.filterMap fun (c, i) => if c = ch then some i else none).reverse

/-- `split_once` at a character. -/
def splitOnce (ch : Char) (text : List Char) : Option (List Char × List Char) :=
  match text.dropWhile fun c => c != ch with
  | [] => none
  | _ :: rest => some (text.takeWhile fun c => c != ch, rest)

/-- What ends the authority of a URL. -/
def isDelimiter (ch : Char) : Bool := ch == '/' || ch == '?' || ch == '#'

/-- `text[..authority_end(text)]` -/
def authority (text : List Char) : List Char := text.takeWhile fun ch => !isDelimiter ch

def isHostChar (ch : Char) : Bool :=
  ch.isAlphanum || ch == '-' || ch == '.' || ch == '_' || ch == ':' || ch == '[' || ch == ']' || ch == '%'

def hostFollows (text : List Char) : Bool := (authority text).all isHostChar

/-- Where the user and password of `rest`, a URL after its `://`, end. -/
def userinfoEnd (rest : List Char) : Option ℕ :=
  match (rmatchIndices '@' (authority rest)).head? with
  | some i => some i
  | none => (rmatchIndices '@' rest).find? fun i => (rest.take i).contains ':' && hostFollows (rest.drop (i + 1))

def isPasswordKey (key : List Char) : Bool :=
  ["password".toList, "sslpassword".toList, "passwd".toList, "pwd".toList].contains (key.map Char.toLower)

def maskPair (pair : List Char) : List Char :=
  match splitOnce '=' pair with
  | some (key, _) => if isPasswordKey key then key ++ "=***".toList else pair
  | none => pair

/-- The values of a query's password parameters. -/
def maskQuery (rest : List Char) : List Char :=
  match splitOnce '?' rest with
  | some (base, query) => base ++ '?' :: ['&'].intercalate ((query.splitOn '&').map maskPair)
  | none => rest

/-- `url` up to its first `://` and what follows. -/
def splitScheme : List Char → Option (List Char × List Char)
  | [] => none
  | ch :: rest =>
    if "://".toList.isPrefixOf (ch :: rest) then some ("://".toList, rest.drop 2)
    else (splitScheme rest).map fun (scheme, rest) => (ch :: scheme, rest)

def maskUrlCredentials (url : List Char) : List Char :=
  let (scheme, rest) := (splitScheme url).getD ([], url)
  let rest :=
    match userinfoEnd rest with
    | some i => "***".toList ++ rest.drop i
    | none => rest
  scheme ++ maskQuery rest

end TideOrm.UrlMask
