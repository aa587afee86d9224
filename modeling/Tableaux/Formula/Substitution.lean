import Tableaux.Formula.Naming

/-!
Capture-avoiding substitution of a term for the free occurrences of a variable. A binder is renamed only when
it would capture the inserted term, that is, when it is that term and the variable occurs free in its scope.
The new binder is not an identifier of the scope, so the scope is renamed by plain replacement.
-/

namespace Tableaux.Formula

/-- Replaces the free occurrences of `x` by `t` without regard to binders of `t`. -/
def replace (x t : Term) : Formula → Formula
  | atom a => atom (a.replace x t)
  | not f => not (f.replace x t)
  | binary c l r => binary c (l.replace x t) (r.replace x t)
  | quantified q y body => if y = x then quantified q y body else quantified q y (body.replace x t)

@[simp]
theorem size_replace (x t : Term) (f : Formula) : (f.replace x t).size = f.size := by
  induction f with
  | atom a => rfl
  | not f ih => simp [replace, size, ih]
  | binary c l r ihl ihr => simp [replace, size, ihl, ihr]
  | quantified q y body ih =>
      simp only [replace]
      split
      · rfl
      · simp [size, ih]

/-- Whether a binder `y` over `body` would capture `t` put in place of `x`. -/
def captures (x t y : Term) (body : Formula) : Bool :=
  y = t && body.hasFree x

/-- The name that replaces a capturing binder `y`. -/
def rebound (x t y : Term) (body : Formula) : Term :=
  y.freshPrimed (x :: t :: body.identifiers)

/-- Puts `t` in place of the free occurrences of `x`. -/
def subst (x t : Term) (f : Formula) : Formula :=
  match f with
  | atom a => atom (a.replace x t)
  | not f => not (f.subst x t)
  | binary c l r => binary c (l.subst x t) (r.subst x t)
  | quantified q y body =>
      if y = x then quantified q y body
      else if captures x t y body then
        quantified q (rebound x t y body) ((body.replace y (rebound x t y body)).subst x t)
      else quantified q y (body.subst x t)
termination_by f.size
decreasing_by all_goals simp [size] <;> omega

end Tableaux.Formula
