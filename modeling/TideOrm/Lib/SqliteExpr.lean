import Mathlib.Data.Rat.Floor

/-! SQLite's expressions over 64-bit integers: their tokens, how they are parsed, and their
values. A REAL is the rational it holds, and `fl` rounds to one. -/

namespace Lib.Sqlite

def i64Min : ℤ := -2 ^ 63

def i64Max : ℤ := 2 ^ 63 - 1

/-- The values of an `i64`. -/
abbrev I64 := { n : ℤ // i64Min ≤ n ∧ n ≤ i64Max }

inductive Token where
  | column (name : List Char)
  | param (marker : List Char)
  | integer (n : ℤ)
  | text (s : String)
  | lparen
  | rparen
  | comma
  | plus
  | star
  | slash
  | percent
  | less
  | case
  | when
  | then
  | else
  | end
  | and
  | between
  | in
  | typeof
  | coalesce
  | abs
  /-- any other text of a statement -/
  | other (s : String)
deriving DecidableEq

inductive Arith where
  | add
  | mul
  | div
  | mod
deriving DecidableEq

inductive Expr where
  | column (name : List Char)
  /-- a bound value, by the order of the placeholders -/
  | param (index : ℕ)
  | integer (n : ℤ)
  | arith (op : Arith) (a b : Expr)
  | less (a b : Expr)
  | and (a b : Expr)
  | between (a low high : Expr)
  | typeofIn (a : Expr) (types : List String)
  | coalesce (a b : Expr)
  | abs (a : Expr)
  | case (condition yes no : Expr)

section Parse

/-- The operators from the loosest to the tightest. -/
inductive Level where
  | conjunction
  | range
  | comparison
  | sum
  | product
  | primary

def Level.tighter : Level → Level
  | .conjunction => .range
  | .range => .comparison
  | .comparison => .sum
  | .sum => .product
  | .product => .primary
  | .primary => .primary

/-- What is read next: an operand, or the operators of a level behind one. -/
inductive Goal where
  | operand (level : Level)
  | more (level : Level) (left : Expr)

def texts : List Token → Option (List String × List Token)
  | .text s :: .comma :: rest => (texts rest).map fun (types, rest) => (s :: types, rest)
  | .text s :: .rparen :: rest => some ([s], rest)
  | _ => none

def expect (token : Token) : List Token → Option (List Token)
  | first :: rest => if first = token then some rest else none
  | [] => none

def parse : ℕ → Goal → List Token → ℕ → Option (Expr × List Token × ℕ)
  | 0, _, _, _ => none
  | fuel + 1, .operand .primary, tokens, next =>
    match tokens with
    | .column name :: rest => some (.column name, rest, next)
    | .param ['?'] :: rest => some (.param next, rest, next + 1)
    | .integer n :: rest => some (.integer n, rest, next)
    | .lparen :: rest => do
      let (e, rest, next) ← parse fuel (.operand .conjunction) rest next
      return (e, ← expect .rparen rest, next)
    | .abs :: .lparen :: rest => do
      let (e, rest, next) ← parse fuel (.operand .conjunction) rest next
      return (.abs e, ← expect .rparen rest, next)
    | .coalesce :: .lparen :: rest => do
      let (a, rest, next) ← parse fuel (.operand .conjunction) rest next
      let rest ← expect .comma rest
      let (b, rest, next) ← parse fuel (.operand .conjunction) rest next
      return (.coalesce a b, ← expect .rparen rest, next)
    | .typeof :: .lparen :: rest => do
      let (e, rest, next) ← parse fuel (.operand .conjunction) rest next
      let rest ← expect .rparen rest
      let rest ← expect .in rest
      let rest ← expect .lparen rest
      let (types, rest) ← texts rest
      return (.typeofIn e types, rest, next)
    | .case :: .when :: rest => do
      let (condition, rest, next) ← parse fuel (.operand .conjunction) rest next
      let rest ← expect .then rest
      let (yes, rest, next) ← parse fuel (.operand .conjunction) rest next
      let rest ← expect .else rest
      let (no, rest, next) ← parse fuel (.operand .conjunction) rest next
      return (.case condition yes no, ← expect .end rest, next)
    | _ => none
  | fuel + 1, .operand level, tokens, next => do
    let (left, rest, next) ← parse fuel (.operand level.tighter) tokens next
    parse fuel (.more level left) rest next
  | fuel + 1, .more level left, tokens, next =>
    match level, tokens with
    | .product, .star :: rest => do
      let (right, rest, next) ← parse fuel (.operand .primary) rest next
      parse fuel (.more .product (.arith .mul left right)) rest next
    | .product, .slash :: rest => do
      let (right, rest, next) ← parse fuel (.operand .primary) rest next
      parse fuel (.more .product (.arith .div left right)) rest next
    | .product, .percent :: rest => do
      let (right, rest, next) ← parse fuel (.operand .primary) rest next
      parse fuel (.more .product (.arith .mod left right)) rest next
    | .sum, .plus :: rest => do
      let (right, rest, next) ← parse fuel (.operand .product) rest next
      parse fuel (.more .sum (.arith .add left right)) rest next
    | .comparison, .less :: rest => do
      let (right, rest, next) ← parse fuel (.operand .sum) rest next
      parse fuel (.more .comparison (.less left right)) rest next
    | .range, .between :: rest => do
      let (low, rest, next) ← parse fuel (.operand .comparison) rest next
      let rest ← expect .and rest
      let (high, rest, next) ← parse fuel (.operand .comparison) rest next
      parse fuel (.more .range (.between left low high)) rest next
    | .conjunction, .and :: rest => do
      let (right, rest, next) ← parse fuel (.operand .range) rest next
      parse fuel (.more .conjunction (.and left right)) rest next
    | _, _ => some (left, tokens, next)

/-- The expression a text is, with the number of its placeholders. -/
def parseExpr (tokens : List Token) : Option (Expr × ℕ) :=
  match parse (8 * tokens.length) (.operand .conjunction) tokens 0 with
  | some (e, [], next) => some (e, next)
  | _ => none

end Parse

inductive Value where
  | null
  | integer (n : ℤ)
  | real (x : ℚ)
deriving DecidableEq

namespace Value

def number : Value → Option ℚ
  | .null => none
  | .integer n => some n
  | .real x => some x

def typeof : Value → String
  | .null => "null"
  | .integer _ => "integer"
  | .real _ => "real"

def ofBool (b : Bool) : Value := .integer (if b then 1 else 0)

/-- A condition's value; NULL is neither. -/
def truth (v : Value) : Option Bool := v.number.map (· != 0)

def ofTruth : Option Bool → Value
  | none => .null
  | some b => ofBool b

@[simp] theorem truth_ofBool (b : Bool) : (ofBool b).truth = some b := by cases b <;> rfl

@[simp] theorem truth_ofTruth (b : Option Bool) : (ofTruth b).truth = b := by
  cases b with
  | none => rfl
  | some b => exact truth_ofBool b

/-- The order of two numbers, NULL when one of them is. -/
def le (a b : Value) : Option Bool := do return (← a.number) ≤ (← b.number)

def lt (a b : Value) : Option Bool := do return (← a.number) < (← b.number)

end Value

/-- Three-valued conjunction. -/
def both : Option Bool → Option Bool → Option Bool
  | some false, _ => some false
  | _, some false => some false
  | some true, some true => some true
  | _, _ => none

section Eval

variable (fl : ℚ → ℚ)

/-- The integer a REAL operand of `%` is cast to. -/
def toInteger (x : ℚ) : ℤ := max i64Min (min i64Max (if 0 ≤ x then ⌊x⌋ else ⌈x⌉))

def realArith (op : Arith) (x y : ℚ) : Value :=
  match op with
  | .add => .real (fl (x + y))
  | .mul => .real (fl (x * y))
  | .div => if y = 0 then .null else .real (fl (x / y))
  | .mod => if toInteger y = 0 then .null else .real (fl ((toInteger x).tmod (toInteger y)))

/-- Overflowing integers become REAL. -/
def integerArith (op : Arith) (m n : ℤ) : Value :=
  match op with
  | .add => if i64Min ≤ m + n ∧ m + n ≤ i64Max then .integer (m + n) else realArith fl .add (fl m) (fl n)
  | .mul => if i64Min ≤ m * n ∧ m * n ≤ i64Max then .integer (m * n) else realArith fl .mul (fl m) (fl n)
  | .div => if n = 0 then .null else if m = i64Min ∧ n = -1 then realArith fl .div (fl m) (fl n) else .integer (m.tdiv n)
  | .mod => if n = 0 then .null else .integer (m.tmod n)

def Value.arith (op : Arith) : Value → Value → Value
  | .null, _ => .null
  | _, .null => .null
  | .integer m, .integer n => integerArith fl op m n
  | .integer m, .real y => realArith fl op (fl m) y
  | .real x, .integer n => realArith fl op x (fl n)
  | .real x, .real y => realArith fl op x y

/-- The value of an expression, or none when it aborts the statement. -/
def Expr.eval (row : List Char → Value) (params : List Value) : Expr → Option Value
  | .column name => some (row name)
  | .param index => some (params.getD index .null)
  | .integer n => some (.integer n)
  | .arith op a b => do return (← a.eval row params).arith fl op (← b.eval row params)
  | .less a b => do return .ofTruth ((← a.eval row params).lt (← b.eval row params))
  | .and a b => do
    let left := (← a.eval row params).truth
    if left = some false then return .ofBool false
    else return .ofTruth (both left (← b.eval row params).truth)
  | .between a low high => do
    let a ← a.eval row params
    return .ofTruth (both ((← low.eval row params).le a) (a.le (← high.eval row params)))
  | .typeofIn a types => do return .ofBool (types.contains (← a.eval row params).typeof)
  | .coalesce a b => do
    let a ← a.eval row params
    if a = .null then b.eval row params else return a
  | .abs a => do
    match ← a.eval row params with
    | .null => return .null
    | .integer n => if n = i64Min then none else return .integer |n|
    | .real x => return .real |x|
  | .case condition yes no => do
    if (← condition.eval row params).truth = some true then yes.eval row params else no.eval row params

/-- The value is the integer, or a REAL where an `i64` does not hold it. -/
def Value.Holds (v : Value) (n : ℤ) : Prop :=
  (i64Min ≤ n ∧ n ≤ i64Max ∧ v = .integer n) ∨ (¬(i64Min ≤ n ∧ n ≤ i64Max) ∧ ∃ x, v = .real x)

variable {fl}

theorem holds_add (m n : ℤ) : ((Value.integer m).arith fl .add (.integer n)).Holds (m + n) := by
  simp only [Value.arith, integerArith]
  split_ifs with hrange
  · exact Or.inl ⟨hrange.1, hrange.2, rfl⟩
  · exact Or.inr ⟨hrange, _, rfl⟩

theorem holds_mul (m n : ℤ) : ((Value.integer m).arith fl .mul (.integer n)).Holds (m * n) := by
  simp only [Value.arith, integerArith]
  split_ifs with hrange
  · exact Or.inl ⟨hrange.1, hrange.2, rfl⟩
  · exact Or.inr ⟨hrange, _, rfl⟩

theorem Value.Holds.eq_integer {v : Value} {n : ℤ} (h : v.Holds n) (hlow : i64Min ≤ n) (hhigh : n ≤ i64Max) :
    v = .integer n := by
  rcases h with ⟨-, -, hv⟩ | ⟨hout, -⟩
  · exact hv
  · exact absurd ⟨hlow, hhigh⟩ hout

theorem div_of_pos (m : ℤ) {n : ℤ} (hn : 0 < n) : (Value.integer m).arith fl .div (.integer n) = .integer (m.tdiv n) := by
  simp only [Value.arith, integerArith]
  rw [if_neg hn.ne', if_neg (by omega)]

theorem mod_of_pos (m : ℤ) {n : ℤ} (hn : 0 < n) : (Value.integer m).arith fl .mod (.integer n) = .integer (m.tmod n) := by
  simp only [Value.arith, integerArith]
  rw [if_neg hn.ne']

end Eval

end Lib.Sqlite
