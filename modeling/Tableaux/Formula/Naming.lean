import Tableaux.Formula.Basic

/-!
Choice of a name that is not in use. Candidates are numbered; of any `n + 1` different candidates one is
not among `n` names in use, so the search looks no further.
-/

namespace Tableaux

/-- The least `n` for which `candidate n` is not in `used`, if the candidates are pairwise different. -/
def leastUnused (candidate : Nat → Term) (used : List Term) : Nat :=
  ((List.range (used.length + 1)).find? fun n => !used.contains (candidate n)).getD 0

/-- The term `stem0`, `stem1`, … of least index that is not in `used`. -/
def Term.freshIndexed (stem : String) (used : List Term) : Term :=
  .indexed stem (leastUnused (.indexed stem) used)

/-- The term `t'`, `t''`, … with the fewest primes that is not in `used`. -/
def Term.freshPrimed (t : Term) (used : List Term) : Term :=
  t.primed (leastUnused (fun n => t.primed (n + 1)) used + 1)

end Tableaux
