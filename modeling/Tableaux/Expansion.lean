import Tableaux.Signed

/-!
The decomposition rules. A rule turns a signed formula into one chain of signed formulas to be put on every
branch through it, or into two chains, each of which opens a branch of its own. Literals have no rule, and the
rule of a quantified formula needs the term to instantiate it with.
-/

namespace Tableaux

inductive Expansion where
  | linear (chain : List Signed)
  | branching (left right : List Signed)
deriving DecidableEq

namespace Expansion

def chains : Expansion → List (List Signed)
  | linear chain => [chain]
  | branching left right => [left, right]

/-- Number of branches opened beside each branch that is extended. -/
def branchDelta : Expansion → Nat
  | linear _ => 0
  | branching _ _ => 1

end Expansion

namespace Signed

/-- The rule for a connective with operands `l` and `r`. -/
def binaryExpansion (l r : Formula) : Connective → Bool → Expansion
  | .conjunction, true => .linear [⟨l, true⟩, ⟨r, true⟩]
  | .conjunction, false => .branching [⟨l, false⟩] [⟨r, false⟩]
  | .disjunction, true => .branching [⟨l, true⟩] [⟨r, true⟩]
  | .disjunction, false => .linear [⟨l, false⟩, ⟨r, false⟩]
  | .implication, true => .branching [⟨l, false⟩] [⟨r, true⟩]
  | .implication, false => .linear [⟨l, true⟩, ⟨r, false⟩]
  | .biimplication, true => .branching [⟨l, true⟩, ⟨r, true⟩] [⟨l, false⟩, ⟨r, false⟩]
  | .biimplication, false => .branching [⟨l, true⟩, ⟨r, false⟩] [⟨l, false⟩, ⟨r, true⟩]

/-- The rule for a signed formula; `term` instantiates a quantified one and is ignored otherwise. -/
def expansion : Signed → Option Term → Option Expansion
  | ⟨.atom _, _⟩, _ => none
  | ⟨.not f, value⟩, _ => some (.linear [⟨f, !value⟩])
  | ⟨.binary c l r, value⟩, _ => some (binaryExpansion l r c value)
  | ⟨.quantified _ x body, value⟩, term => term.map fun t => .linear [⟨body.subst x t, value⟩]

end Signed

end Tableaux
