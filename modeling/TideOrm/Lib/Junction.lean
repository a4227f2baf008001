import Mathlib.Data.List.Perm.Basic
import Mathlib.Data.Multiset.AddSub
import TideOrm.Lib.Kleene

/-! Formulas of conjunctions and disjunctions without negation. Such a formula is false
under some assignment exactly when it is false under the least one, and the order of its members does
not matter to any reading of its connectives. -/

namespace Lib

inductive Junction (A : Type) where
  | atom (a : A)
  | all (members : List (Junction A))
  | any (members : List (Junction A))

namespace Junction

variable {A : Type}

mutual

def eval (truth : A → Bool) : Junction A → Bool
  | .atom a => truth a
  | .all members => evalAll truth members
  | .any members => evalAny truth members

def evalAll (truth : A → Bool) : List (Junction A) → Bool
  | [] => true
  | f :: rest => f.eval truth && evalAll truth rest

def evalAny (truth : A → Bool) : List (Junction A) → Bool
  | [] => false
  | f :: rest => f.eval truth || evalAny truth rest

end

theorem evalAll_append (truth : A → Bool) (a b : List (Junction A)) :
    evalAll truth (a ++ b) = (evalAll truth a && evalAll truth b) := by
  induction a with
  | nil => rfl
  | cons f a ih => rw [List.cons_append, evalAll, evalAll, ih, Bool.and_assoc]

theorem evalAny_append (truth : A → Bool) (a b : List (Junction A)) :
    evalAny truth (a ++ b) = (evalAny truth a || evalAny truth b) := by
  induction a with
  | nil => rfl
  | cons f a ih => rw [List.cons_append, evalAny, evalAny, ih, Bool.or_assoc]

theorem evalAll_atoms (truth : A → Bool) (atoms : List A) : evalAll truth (atoms.map .atom) = atoms.all truth := by
  induction atoms with
  | nil => rfl
  | cons a atoms ih => rw [List.map_cons, evalAll, ih, eval, List.all_cons]

theorem evalAny_atoms (truth : A → Bool) (atoms : List A) : evalAny truth (atoms.map .atom) = atoms.any truth := by
  induction atoms with
  | nil => rfl
  | cons a atoms ih => rw [List.map_cons, evalAny, ih, eval, List.any_cons]

mutual

theorem eval_mono {low high : A → Bool} (h : ∀ a, low a = true → high a = true) :
    ∀ f : Junction A, f.eval low = true → f.eval high = true
  | .atom a, hf => h a hf
  | .all members, hf => evalAll_mono h members hf
  | .any members, hf => evalAny_mono h members hf

theorem evalAll_mono {low high : A → Bool} (h : ∀ a, low a = true → high a = true) :
    ∀ members : List (Junction A), evalAll low members = true → evalAll high members = true
  | [], _ => rfl
  | f :: rest, hf => by
    rw [evalAll, Bool.and_eq_true] at hf ⊢
    exact ⟨eval_mono h f hf.1, evalAll_mono h rest hf.2⟩

theorem evalAny_mono {low high : A → Bool} (h : ∀ a, low a = true → high a = true) :
    ∀ members : List (Junction A), evalAny low members = true → evalAny high members = true
  | [], hf => hf
  | f :: rest, hf => by
    rw [evalAny, Bool.or_eq_true] at hf ⊢
    exact hf.imp (eval_mono h f) (evalAny_mono h rest)

end

/-- Where the atoms of `forced` are true, the others false is the assignment to try. -/
theorem exists_eval_false_iff (forced : A → Bool) (f : Junction A) :
    (∃ truth : A → Bool, f.eval (fun a => forced a || truth a) = false) ↔ f.eval forced = false := by
  constructor
  · rintro ⟨truth, hfalse⟩
    rw [Bool.eq_false_iff] at hfalse ⊢
    intro htrue
    exact hfalse (eval_mono (fun a ha => by rw [ha, Bool.true_or]) f htrue)
  · intro hfalse
    refine ⟨fun _ => false, ?_⟩
    simpa only [Bool.or_false] using hfalse

end Junction

/-- Two ways to combine values, each in any order and with a value of its own that changes nothing. -/
structure Connectives (M : Type) where
  conj : M → M → M
  disj : M → M → M
  top : M
  bot : M
  conj_comm : ∀ a b, conj a b = conj b a
  conj_assoc : ∀ a b c, conj (conj a b) c = conj a (conj b c)
  conj_top : ∀ a, conj a top = a
  disj_comm : ∀ a b, disj a b = disj b a
  disj_assoc : ∀ a b c, disj (disj a b) c = disj a (disj b c)
  disj_bot : ∀ a, disj a bot = a

/-- Three truth values. -/
def Kleene.connectives : Connectives Kleene where
  conj := Kleene.and
  disj := Kleene.or
  top := some true
  bot := some false
  conj_comm := Kleene.and_comm
  conj_assoc := Kleene.and_assoc
  conj_top := Kleene.and_true
  disj_comm := Kleene.or_comm
  disj_assoc := Kleene.or_assoc
  disj_bot := Kleene.or_false

/-- How often each value is there. -/
def Connectives.counts (A : Type) : Connectives (Multiset A) where
  conj := (· + ·)
  disj := (· + ·)
  top := 0
  bot := 0
  conj_comm := Multiset.add_comm
  conj_assoc := Multiset.add_assoc
  conj_top := Multiset.add_zero
  disj_comm := Multiset.add_comm
  disj_assoc := Multiset.add_assoc
  disj_bot := Multiset.add_zero

namespace Junction

variable {A B M : Type}

mutual

def map (f : A → B) : Junction A → Junction B
  | .atom a => .atom (f a)
  | .all members => .all (mapAll f members)
  | .any members => .any (mapAll f members)

def mapAll (f : A → B) : List (Junction A) → List (Junction B)
  | [] => []
  | member :: rest => member.map f :: mapAll f rest

end

def members : Junction A → List (Junction A)
  | .atom a => [.atom a]
  | .all members | .any members => members

section Reading

variable (m : Connectives M) (value : A → M)

mutual

/-- The formula as its connectives are taken. -/
def read : Junction A → M
  | .atom a => value a
  | .all members => readAll members
  | .any members => readAny members

def readAll : List (Junction A) → M
  | [] => m.top
  | member :: rest => m.conj member.read (readAll rest)

def readAny : List (Junction A) → M
  | [] => m.bot
  | member :: rest => m.disj member.read (readAny rest)

end

/-- The atoms, as often as they stand in the formula. -/
def atoms (f : Junction A) : Multiset A := f.read (.counts A) fun a => {a}

/-- Members with the same readings, in any order. -/
def Same (xs ys : List (Junction A)) : Prop := (xs.map (read m value)).Perm (ys.map (read m value))

variable {m value}

theorem readAll_eq (members : List (Junction A)) : readAll m value members = (members.map (read m value)).foldr m.conj m.top := by
  induction members with
  | nil => rfl
  | cons member rest ih => rw [readAll, ih, List.map_cons, List.foldr_cons]

theorem readAny_eq (members : List (Junction A)) : readAny m value members = (members.map (read m value)).foldr m.disj m.bot := by
  induction members with
  | nil => rfl
  | cons member rest ih => rw [readAny, ih, List.map_cons, List.foldr_cons]

theorem readAll_append (xs ys : List (Junction A)) : readAll m value (xs ++ ys) = m.conj (readAll m value xs) (readAll m value ys) := by
  induction xs with
  | nil => rw [List.nil_append, readAll, m.conj_comm, m.conj_top]
  | cons x xs ih => rw [List.cons_append, readAll, readAll, ih, m.conj_assoc]

theorem Same.readAll {xs ys : List (Junction A)} (h : Same m value xs ys) : readAll m value xs = readAll m value ys := by
  have : Std.Commutative m.conj := ⟨m.conj_comm⟩
  have : Std.Associative m.conj := ⟨m.conj_assoc⟩
  rw [readAll_eq, readAll_eq]
  exact h.foldr_op_eq

theorem Same.readAny {xs ys : List (Junction A)} (h : Same m value xs ys) : readAny m value xs = readAny m value ys := by
  have : Std.Commutative m.disj := ⟨m.disj_comm⟩
  have : Std.Associative m.disj := ⟨m.disj_assoc⟩
  rw [readAny_eq, readAny_eq]
  exact h.foldr_op_eq

theorem Same.cons {x y : Junction A} {xs ys : List (Junction A)} (hhead : read m value x = read m value y) (h : Same m value xs ys) :
    Same m value (x :: xs) (y :: ys) := by
  unfold Same
  rw [List.map_cons, List.map_cons, hhead]
  exact List.Perm.cons _ h

/-- A member may stand behind others. -/
theorem Same.middle {x y : Junction A} {front back ys : List (Junction A)} (hhead : read m value x = read m value y)
    (h : Same m value (front ++ back) ys) : Same m value (front ++ x :: back) (y :: ys) := by
  refine List.Perm.trans ?_ (Same.cons hhead h)
  exact List.perm_middle.map _

theorem Same.append {xs xs' ys ys' : List (Junction A)} (h : Same m value xs xs') (h' : Same m value ys ys') :
    Same m value (xs ++ ys) (xs' ++ ys') := by
  unfold Same
  rw [List.map_append, List.map_append]
  exact List.Perm.append h h'

mutual

theorem read_map (f : A → B) {value : B → M} : ∀ g : Junction A, (g.map f).read m value = g.read m fun a => value (f a)
  | .atom _ => rfl
  | .all members => readAll_map f members
  | .any members => readAny_map f members

theorem readAll_map (f : A → B) {value : B → M} :
    ∀ members : List (Junction A), readAll m value (mapAll f members) = readAll m (fun a => value (f a)) members
  | [] => rfl
  | member :: rest => by rw [mapAll, readAll, readAll, read_map f member, readAll_map f rest]

theorem readAny_map (f : A → B) {value : B → M} :
    ∀ members : List (Junction A), readAny m value (mapAll f members) = readAny m (fun a => value (f a)) members
  | [] => rfl
  | member :: rest => by rw [mapAll, readAny, readAny, read_map f member, readAny_map f rest]

end

end Reading

end Junction

end Lib
