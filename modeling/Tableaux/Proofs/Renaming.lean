import Mathlib
import Tableaux.Proofs.Nameless

/-!
The text of a formula under substitution, the names of its binders included. A formula is changed only where the
variable occurs free and another term takes its place; and a variable that is renamed to a name not in use can be
renamed back, since no binder has that name and so none gets a new one on the way there or back.
-/

namespace Tableaux

theorem Atom.replace_replace_of_not_mem {a : Atom} {x t : Term} (h : t ∉ a.args) :
    (a.replace x t).replace t x = a := by
  have hargs : (a.args.map fun s => if s = x then t else s).map (fun s => if s = t then x else s) = a.args := by
    rw [List.map_map]
    conv_rhs => rw [← List.map_id a.args]
    apply List.map_congr_left
    intro s hs
    have hst : s ≠ t := fun heq => h (heq ▸ hs)
    by_cases hsx : s = x
    · simp [hsx]
    · simp [hsx, hst]
  rw [replace, replace, hargs]

namespace Formula

/-- Below a binder that is neither the variable nor the inserted term, substitution goes on. -/
theorem subst_quantified_of_ne {x t y : Term} (q : Quantifier) {body : Formula} (hyx : y ≠ x)
    (hcap : y ≠ t ∨ body.hasFree x = false) :
    (quantified q y body).subst x t = quantified q y (body.subst x t) := by
  have hcap : captures x t y body = false := by
    rw [captures, Bool.and_eq_false_iff, decide_eq_false_iff_not]
    exact hcap
  rw [subst, if_neg hyx, hcap, if_neg Bool.false_ne_true]

/-- A variable that takes its own place changes nothing. A binder can only stand in the way of the term by being the
variable itself, and there nothing is substituted. -/
theorem subst_self (x : Term) (f : Formula) : f.subst x x = f := by
  induction f with
  | atom a => rw [subst, Atom.replace_eq_self fun _ => rfl]
  | not f ih => rw [subst, ih]
  | binary c l r ihl ihr => rw [subst, ihl, ihr]
  | quantified q y body ih =>
      by_cases hyx : y = x
      · rw [subst, if_pos hyx]
      · rw [subst_quantified_of_ne q hyx (Or.inl hyx), ih]

/-- A variable renamed to a name that is nowhere in the formula, free or bound, can be renamed back. -/
theorem subst_subst_of_not_mem {x t : Term} {f : Formula} (h : t ∉ f.identifiers) :
    (f.subst x t).subst t x = f := by
  induction f with
  | atom a => rw [subst, subst, Atom.replace_replace_of_not_mem h]
  | not f ih => rw [subst, subst, ih h]
  | binary c l r ihl ihr =>
      rw [identifiers, List.mem_append, not_or] at h
      rw [subst, subst, ihl h.1, ihr h.2]
  | quantified q y body ih =>
      rw [identifiers, List.mem_cons, not_or] at h
      have hty : y ≠ t := Ne.symm h.1
      by_cases hyx : y = x
      · -- what the binder hides stays; on the way back it is the inserted term, but there is no place for it
        rw [subst, if_pos hyx]
        exact subst_of_not_hasFree x (by simp [hasFree, hasFree_eq_false_of_not_mem h.2])
      · rw [subst_quantified_of_ne q hyx (Or.inl hty), subst_quantified_of_ne q hty (Or.inl hyx), ih h.2]

/-- Substitution keeps the text of a formula if the variable is not free in it or takes its own place, and a renaming
to an unused name is reversible. -/
theorem subst_keeps_text (x t : Term) (f : Formula) :
    (f.hasFree x = false ∨ t = x → f.subst x t = f) ∧
    (t ∉ f.identifiers → (f.subst x t).subst t x = f) := by
  refine ⟨?_, subst_subst_of_not_mem⟩
  rintro (hfree | rfl)
  · exact subst_of_not_hasFree t hfree
  · exact subst_self t f

/-- `R(a, y)`, and for every `a` there is a `y` such that `R(a, y)`. -/
def shadowed : Formula :=
  binary .conjunction (atom (.of "R" [⟨"a"⟩, ⟨"y"⟩]))
    (quantified .universal ⟨"a"⟩ (quantified .existential ⟨"y"⟩ (atom (.of "R" [⟨"a"⟩, ⟨"y"⟩]))))

/-- Both binders are kept where their names would be inserted for a variable that is not free, and where `a` is put in
its own place; and `a` can be renamed to `b` and back, below a binder of that name. -/
theorem subst_keeps_text_shadowed :
    (shadowed.hasFree ⟨"b"⟩ = false ∧ shadowed.subst ⟨"b"⟩ ⟨"y"⟩ = shadowed) ∧
    shadowed.subst ⟨"a"⟩ ⟨"a"⟩ = shadowed ∧
    ((⟨"b"⟩ : Term) ∉ shadowed.identifiers ∧ shadowed.subst ⟨"a"⟩ ⟨"b"⟩ ≠ shadowed ∧
      (shadowed.subst ⟨"a"⟩ ⟨"b"⟩).subst ⟨"b"⟩ ⟨"a"⟩ = shadowed) := by
  have hfree : shadowed.hasFree ⟨"b"⟩ = false := by decide +kernel
  have hunused : (⟨"b"⟩ : Term) ∉ shadowed.identifiers := by decide +kernel
  have hchanged : shadowed.subst ⟨"a"⟩ ⟨"b"⟩ ≠ shadowed := by decide +kernel
  exact ⟨⟨hfree, (subst_keeps_text ⟨"b"⟩ ⟨"y"⟩ shadowed).1 (Or.inl hfree)⟩,
    (subst_keeps_text ⟨"a"⟩ ⟨"a"⟩ shadowed).1 (Or.inr rfl), hunused, hchanged,
    (subst_keeps_text ⟨"a"⟩ ⟨"b"⟩ shadowed).2 hunused⟩

end Formula

end Tableaux
