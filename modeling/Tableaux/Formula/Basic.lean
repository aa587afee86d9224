/-!
First-order formulas over flat identifiers. A term is an identifier: it is a variable exactly where a
quantifier binds it and a constant everywhere else. A predicate carries the arity it was declared with,
which an atom's argument list may disagree with; only problem validation looks at that.
-/

namespace Tableaux

/-- An identifier, used as a variable where a quantifier binds it and as a constant elsewhere. -/
structure Term where
  name : String
deriving DecidableEq

namespace Term

/-- The term `stem` followed by the decimal form of `index`. -/
def indexed (stem : String) (index : Nat) : Term :=
  ⟨stem ++ toString index⟩

/-- The term with `count` primes behind its name. -/
def primed (t : Term) (count : Nat) : Term :=
  ⟨t.name ++ String.ofList (List.replicate count '\x27')⟩

/-- Order of terms by the code points of their names. -/
def lt (s t : Term) : Bool :=
  decide (s.name < t.name)

/-- Puts `t` behind `ts` unless it is among them. -/
def enter (ts : List Term) (t : Term) : List Term :=
  if ts.contains t then ts else ts ++ [t]

end Term

/-- A predicate symbol. -/
structure Predicate where
  name : String
  arity : Nat
deriving DecidableEq

/-- The usual `name/arity` form of a predicate. -/
def Predicate.display (p : Predicate) : String :=
  p.name ++ "/" ++ toString p.arity

/-- A predicate applied to terms. -/
structure Atom where
  predicate : Predicate
  args : List Term
deriving DecidableEq

namespace Atom

/-- An atom whose predicate has the arity of its arguments. -/
def of (name : String) (args : List Term) : Atom :=
  ⟨⟨name, args.length⟩, args⟩

/-- A sentence letter. -/
def proposition (name : String) : Atom :=
  of name []

def mentions (a : Atom) (t : Term) : Bool :=
  a.args.contains t

/-- The atom with every argument `x` replaced by `t`. -/
def replace (a : Atom) (x t : Term) : Atom :=
  { a with args := a.args.map fun s => if s = x then t else s }

end Atom

inductive Connective where
  | conjunction | disjunction | implication | biimplication
deriving DecidableEq

inductive Quantifier where
  | universal | existential
deriving DecidableEq

inductive Formula where
  | atom (a : Atom)
  | not (f : Formula)
  | binary (c : Connective) (l r : Formula)
  | quantified (q : Quantifier) (x : Term) (body : Formula)
deriving DecidableEq

namespace Formula

def isAtomic : Formula → Bool
  | atom _ => true
  | _ => false

/-- The greatest number of connectives and quantifiers above an atom. -/
def depth : Formula → Nat
  | atom _ => 0
  | not f => 1 + f.depth
  | binary _ l r => 1 + max l.depth r.depth
  | quantified _ _ body => 1 + body.depth

/-- Number of connectives, quantifiers and atoms. -/
def size : Formula → Nat
  | atom _ => 1
  | not f => 1 + f.size
  | binary _ l r => 1 + l.size + r.size
  | quantified _ _ body => 1 + body.size

/-- Whether `x` occurs free. -/
def hasFree (x : Term) : Formula → Bool
  | atom a => a.mentions x
  | not f => f.hasFree x
  | binary _ l r => l.hasFree x || r.hasFree x
  | quantified _ y body => y ≠ x && body.hasFree x

/-- Every identifier of the formula from left to right, bound or free, with repetitions. -/
def identifiers : Formula → List Term
  | atom a => a.args
  | not f => f.identifiers
  | binary _ l r => l.identifiers ++ r.identifiers
  | quantified _ y body => y :: body.identifiers

/-- Adds to `found` the terms that occur free outside the scope of `bound`, at their first occurrence. -/
def collectFree (bound : List Term) : Formula → List Term → List Term
  | atom a, found => a.args.foldl (fun found t => if bound.contains t then found else Term.enter found t) found
  | not f, found => f.collectFree bound found
  | binary _ l r, found => r.collectFree bound (l.collectFree bound found)
  | quantified _ y body, found => body.collectFree (y :: bound) found

/-- The terms that occur free, in order of first occurrence. -/
def freeTerms (f : Formula) : List Term :=
  f.collectFree [] []

end Formula

end Tableaux
