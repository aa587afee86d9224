import Tableaux.Formula.Substitution

/-!
Signed formulas: a formula with the truth value it is asserted to have. The kind of a signed formula says which
rule decomposes it. A true negation has no kind of its own: it says the same as its body asserted false.
-/

namespace Tableaux

/-- A formula together with the truth value it is asserted to have. -/
structure Signed where
  formula : Formula
  value : Bool
deriving DecidableEq

/-- Classification of signed formulas, one kind per rule; `value` is the asserted truth value. -/
inductive Kind where
  | literal (value : Bool)
  | falseNegation
  | binary (c : Connective) (value : Bool)
  | quantified (q : Quantifier) (value : Bool)
deriving DecidableEq

namespace Kind

def all : List Kind :=
  [literal true, literal false, falseNegation,
    binary .conjunction true, binary .conjunction false, binary .disjunction true, binary .disjunction false,
    binary .implication true, binary .implication false, binary .biimplication true, binary .biimplication false,
    quantified .universal true, quantified .universal false,
    quantified .existential true, quantified .existential false]

/-- The name of a kind; that of a formula asserted false starts with an `N`. -/
def name : Kind → String
  | literal true => "Atomic"
  | literal false => "NAtomic"
  | falseNegation => "NNegation"
  | binary .conjunction true => "Conjunction"
  | binary .conjunction false => "NConjunction"
  | binary .disjunction true => "Disjunction"
  | binary .disjunction false => "NDisjunction"
  | binary .implication true => "Implication"
  | binary .implication false => "NImplication"
  | binary .biimplication true => "Biimplication"
  | binary .biimplication false => "NBiimplication"
  | quantified .universal true => "Universal"
  | quantified .universal false => "NUniversal"
  | quantified .existential true => "Existential"
  | quantified .existential false => "NExistential"

def ofName? (name : String) : Option Kind :=
  all.find? (·.name == name)

def isLiteral : Kind → Bool
  | literal _ => true
  | _ => false

def isQuantified : Kind → Bool
  | quantified _ _ => true
  | _ => false

/-- Whether the rule gives a new instance for every term: a true universal or a false existential. -/
def isReusable : Kind → Bool
  | quantified .universal true => true
  | quantified .existential false => true
  | _ => false

/-- Whether the rule splits a branch in two. -/
def isBranching : Kind → Bool
  | binary .conjunction false => true
  | binary .disjunction true => true
  | binary .implication true => true
  | binary .biimplication _ => true
  | _ => false

end Kind

/-- The kind of `f` asserted to have the given value. -/
def Formula.kind : Formula → Bool → Kind
  | .atom _, value => .literal value
  | .not f, true => f.kind false
  | .not _, false => .falseNegation
  | .binary c _ _, value => .binary c value
  | .quantified q _ _, value => .quantified q value

namespace Signed

def kind (s : Signed) : Kind :=
  s.formula.kind s.value

/-- Says a true negation as its body asserted false. -/
def fold : Signed → Signed
  | ⟨.not f, true⟩ => ⟨f, false⟩
  | s => s

/-- The asserted formula, negated where it is asserted false. -/
def statement (s : Signed) : Formula :=
  if s.value then s.formula else .not s.formula

/-- Whether the two assert one formula with opposite values. -/
def contradicts (s t : Signed) : Bool :=
  s.value != t.value && s.formula = t.formula

end Signed

end Tableaux
