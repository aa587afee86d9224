import Mathlib
import Tableaux.Proofs.Substitution

/-!
Formulas without the names of their binders. An occurrence that a quantifier binds is given by the number of
quantifiers in between, and an occurrence that is free keeps its name. In this form nothing can be captured, and to
substitute is to replace a free name. Substitution on formulas with names does exactly this, whatever binders it
renames on the way.
-/

namespace Tableaux

/-- An argument without the name of its binder: the quantifier that binds it is found by going outward past `index`
others, or it is free. -/
inductive Occurrence where
  | bound (index : Nat)
  | free (t : Term)
deriving DecidableEq

namespace Occurrence

/-- The same occurrence seen from inside one more quantifier. -/
def inward : Occurrence → Occurrence
  | bound index => bound (index + 1)
  | free t => free t

/-- What a term refers to inside the given binders, innermost first. -/
def resolve : List Term → Term → Occurrence
  | [], t => free t
  | y :: binders, t => if t = y then bound 0 else (resolve binders t).inward

/-- The free term `x` becomes the free term `t`, and all else stays. -/
def replace (x t : Term) (o : Occurrence) : Occurrence :=
  if o = free x then free t else o

end Occurrence

/-- A formula in which binders have no names. -/
inductive Nameless where
  | atom (p : Predicate) (args : List Occurrence)
  | not (f : Nameless)
  | binary (c : Connective) (l r : Nameless)
  | quantified (q : Quantifier) (body : Nameless)
deriving DecidableEq

/-- Replaces every free occurrence of `x` by `t`. -/
def Nameless.replace (x t : Term) : Nameless → Nameless
  | atom p args => atom p (args.map (Occurrence.replace x t))
  | not f => not (f.replace x t)
  | binary c l r => binary c (l.replace x t) (r.replace x t)
  | quantified q body => quantified q (body.replace x t)

/-- The nameless form of a formula inside the given binders, innermost first. -/
def Formula.nameless (binders : List Term) : Formula → Nameless
  | atom a => .atom a.predicate (a.args.map (Occurrence.resolve binders))
  | not f => .not (f.nameless binders)
  | binary c l r => .binary c (l.nameless binders) (r.nameless binders)
  | quantified q y body => .quantified q (body.nameless (y :: binders))

namespace Occurrence

variable {binders binders' : List Term} {s t x y : Term}

theorem inward_eq_free_iff {o : Occurrence} : o.inward = free x ↔ o = free x := by
  cases o <;> simp [inward]

theorem resolve_cons_self (binders : List Term) (y : Term) : resolve (y :: binders) y = bound 0 :=
  if_pos rfl

theorem resolve_cons_of_ne (binders : List Term) (h : t ≠ y) :
    resolve (y :: binders) t = (resolve binders t).inward :=
  if_neg h

/-- Another binder in front keeps an agreement on a term. -/
theorem resolve_cons_congr (v : Term) (h : resolve binders s = resolve binders' t) (hs : s ≠ v) (ht : t ≠ v) :
    resolve (v :: binders) s = resolve (v :: binders') t := by
  rw [resolve_cons_of_ne binders hs, resolve_cons_of_ne binders' ht, h]

theorem resolve_eq_free_iff : resolve binders t = free x ↔ t = x ∧ t ∉ binders := by
  induction binders with
  | nil => simp [resolve]
  | cons y binders ih =>
      by_cases hty : t = y
      · subst hty
        simp [resolve_cons_self]
      · rw [resolve_cons_of_ne binders hty, inward_eq_free_iff, ih]
        simp [hty]

theorem replace_resolve_of_ne (h : s ≠ x) : (resolve binders s).replace x t = resolve binders s :=
  if_neg fun heq => h (resolve_eq_free_iff.1 heq).1

/-- A bound occurrence is not replaced. -/
theorem replace_resolve_of_mem (h : x ∈ binders) : (resolve binders s).replace x t = resolve binders s := by
  apply if_neg
  intro heq
  obtain ⟨rfl, hnot⟩ := resolve_eq_free_iff.1 heq
  exact hnot h

theorem replace_resolve_self (h : x ∉ binders) : (resolve binders x).replace x t = free t :=
  if_pos (resolve_eq_free_iff.2 ⟨rfl, h⟩)

end Occurrence

/-- An atom is left as it is if the variable is not among its arguments or takes its own place. -/
theorem Atom.replace_eq_self {a : Atom} {x t : Term} (h : x ∈ a.args → t = x) : a.replace x t = a := by
  have hargs : a.args.map (fun s => if s = x then t else s) = a.args := by
    conv_rhs => rw [← List.map_id a.args]
    apply List.map_congr_left
    intro s hs
    by_cases hsx : s = x
    · rw [if_pos hsx, h (hsx ▸ hs), hsx, id]
    · rw [if_neg hsx, id]
  rw [replace, hargs]

namespace Formula

open Occurrence

/-- Only what the free terms refer to matters for the nameless form. -/
theorem nameless_congr {f : Formula} {binders binders' : List Term}
    (h : ∀ w, f.hasFree w = true → resolve binders w = resolve binders' w) :
    f.nameless binders = f.nameless binders' := by
  induction f generalizing binders binders' with
  | atom a =>
      have hargs : a.args.map (resolve binders) = a.args.map (resolve binders') := by
        apply List.map_congr_left
        intro w hw
        exact h w (List.contains_iff_mem.2 hw)
      rw [nameless, nameless, hargs]
  | not f ih => rw [nameless, nameless, ih h]
  | binary c l r ihl ihr =>
      rw [nameless, nameless, ihl fun w hw => h w (Bool.or_eq_true_iff.2 (Or.inl hw)),
        ihr fun w hw => h w (Bool.or_eq_true_iff.2 (Or.inr hw))]
  | quantified q y body ih =>
      rw [nameless, nameless]
      congr 1
      apply ih
      intro w hw
      by_cases hwy : w = y
      · rw [hwy, resolve_cons_self, resolve_cons_self]
      · refine resolve_cons_congr y (h w ?_) hwy hwy
        simp [hasFree, hw, Ne.symm hwy]

/-- Nothing is replaced in a formula in which the variable is not free, or inside of a binder of the variable. -/
theorem replace_nameless {f : Formula} {binders : List Term} {x : Term} (t : Term)
    (h : f.hasFree x = true → x ∈ binders) : (f.nameless binders).replace x t = f.nameless binders := by
  induction f generalizing binders with
  | atom a =>
      rw [nameless, Nameless.replace, List.map_map]
      congr 1
      apply List.map_congr_left
      intro s hs
      by_cases hsx : s = x
      · exact replace_resolve_of_mem (h (List.contains_iff_mem.2 (hsx ▸ hs)))
      · exact replace_resolve_of_ne hsx
  | not f ih => rw [nameless, Nameless.replace, ih h]
  | binary c l r ihl ihr =>
      rw [nameless, Nameless.replace, ihl fun hx => h (Bool.or_eq_true_iff.2 (Or.inl hx)),
        ihr fun hx => h (Bool.or_eq_true_iff.2 (Or.inr hx))]
  | quantified q y body ih =>
      rw [nameless, Nameless.replace, ih]
      intro hx
      by_cases hyx : y = x
      · rw [hyx]
        exact List.mem_cons_self
      · exact List.mem_cons_of_mem _ (h (by simp [hasFree, hx, hyx]))

/-- A formula in which the variable is not free is left as it is. -/
theorem subst_of_not_hasFree {x : Term} (t : Term) {f : Formula} (h : f.hasFree x = false) : f.subst x t = f := by
  fun_induction subst x t f with
  | case1 a =>
      rw [hasFree, Atom.mentions, List.contains_eq_mem, decide_eq_false_iff_not] at h
      rw [Atom.replace_eq_self fun hx => absurd hx h]
  | case2 f ih => rw [ih h]
  | case3 c l r ihl ihr =>
      rw [hasFree, Bool.or_eq_false_iff] at h
      rw [ihl h.1, ihr h.2]
  | case4 q body => rfl
  | case5 q y body hyx hcap ih =>
      have hfree : body.hasFree x = true := (Bool.and_eq_true_iff.1 hcap).2
      simp [hasFree, hyx, hfree] at h
  | case6 q y body hyx hcap ih =>
      have hbody : body.hasFree x = false := by simpa [hasFree, hyx] using h
      rw [ih hbody]

/-- Renaming a binder along with what it binds makes no difference, if the new name is nowhere in its scope: what was
`y` below some binders is the new name below others. -/
theorem nameless_replace {f : Formula} {y z : Term} {binders binders' : List Term} (hz : z ∉ f.identifiers)
    (h : ∀ w ∈ f.identifiers, resolve binders (if w = y then z else w) = resolve binders' w) :
    (f.replace y z).nameless binders = f.nameless binders' := by
  induction f generalizing binders binders' with
  | atom a =>
      rw [replace, nameless, nameless, Atom.replace, List.map_map]
      congr 1
      apply List.map_congr_left
      intro w hw
      exact h w hw
  | not f ih => rw [replace, nameless, nameless, ih hz h]
  | binary c l r ihl ihr =>
      simp only [identifiers, List.mem_append, not_or] at hz
      rw [replace, nameless, nameless, ihl hz.1 fun w hw => h w (List.mem_append_left _ hw),
        ihr hz.2 fun w hw => h w (List.mem_append_right _ hw)]
  | quantified q v body ih =>
      simp only [identifiers, List.mem_cons, not_or] at hz
      by_cases hvy : v = y
      · -- the inner binder hides the one that is renamed
        rw [replace, if_pos hvy, nameless, nameless]
        congr 1
        apply nameless_congr
        intro w hw
        by_cases hwv : w = v
        · rw [hwv, resolve_cons_self, resolve_cons_self]
        · have hwy : w ≠ y := fun heq => hwv (heq.trans hvy.symm)
          have hsame := h w (List.mem_cons_of_mem _ (mem_identifiers_of_hasFree hw))
          rw [if_neg hwy] at hsame
          exact resolve_cons_congr v hsame hwv hwv
      · rw [replace, if_neg hvy, nameless, nameless]
        congr 1
        apply ih hz.2
        intro w hw
        have hsame := h w (List.mem_cons_of_mem _ hw)
        by_cases hwv : w = v
        · rw [if_neg fun heq => hvy (hwv.symm.trans heq), hwv, resolve_cons_self, resolve_cons_self]
        · refine resolve_cons_congr v hsame ?_ hwv
          by_cases hwy : w = y
          · rw [if_pos hwy]
            exact hz.1
          · rw [if_neg hwy]
            exact hwv

/-- A binder and its new name bind the same occurrences. -/
theorem nameless_replace_binder {body : Formula} {y z : Term} (binders : List Term) (hz : z ∉ body.identifiers) :
    (body.replace y z).nameless (z :: binders) = body.nameless (y :: binders) := by
  apply nameless_replace hz
  intro w hw
  by_cases hwy : w = y
  · rw [if_pos hwy, hwy, resolve_cons_self, resolve_cons_self]
  · rw [if_neg hwy]
    have hwz : w ≠ z := fun heq => hz (heq ▸ hw)
    rw [resolve_cons_of_ne binders hwz, resolve_cons_of_ne binders hwy]

/-- Inside of binders of other names, substitution replaces the free occurrences of the variable. -/
theorem nameless_subst_inside (x t : Term) (f : Formula) {binders : List Term} (hx : x ∉ binders)
    (ht : t ∉ binders) : (f.subst x t).nameless binders = (f.nameless binders).replace x t := by
  fun_induction subst x t f generalizing binders with
  | case1 a =>
      rw [nameless, nameless, Nameless.replace, Atom.replace, List.map_map, List.map_map]
      congr 1
      apply List.map_congr_left
      intro s _
      change resolve binders (if s = x then t else s) = (resolve binders s).replace x t
      by_cases hsx : s = x
      · rw [if_pos hsx, hsx, replace_resolve_self hx]
        exact resolve_eq_free_iff.2 ⟨rfl, ht⟩
      · rw [if_neg hsx, replace_resolve_of_ne hsx]
  | case2 f ih => rw [nameless, nameless, Nameless.replace, ih hx ht]
  | case3 c l r ihl ihr => rw [nameless, nameless, Nameless.replace, ihl hx ht, ihr hx ht]
  | case4 q body =>
      rw [nameless, Nameless.replace, replace_nameless t fun _ => List.mem_cons_self]
  | case5 q y body hyx hcap ih =>
      have hx' : x ∉ rebound x t y body :: binders :=
        List.not_mem_cons_of_ne_of_not_mem (rebound_ne_var x t y body).symm hx
      have ht' : t ∉ rebound x t y body :: binders :=
        List.not_mem_cons_of_ne_of_not_mem (rebound_ne_term x t y body).symm ht
      rw [nameless, nameless, Nameless.replace, ih hx' ht',
        nameless_replace_binder binders (rebound_not_mem_identifiers x t y body)]
  | case6 q y body hyx hcap ih =>
      rw [nameless, nameless, Nameless.replace]
      by_cases hyt : y = t
      · -- the binder is the inserted term, but there is no place to insert it
        have hfree : body.hasFree x = false := by simpa [captures, hyt] using hcap
        rw [subst_of_not_hasFree t hfree, replace_nameless t fun h => absurd h (by simp [hfree])]
      · rw [ih (List.not_mem_cons_of_ne_of_not_mem (Ne.symm hyx) hx)
          (List.not_mem_cons_of_ne_of_not_mem (Ne.symm hyt) ht)]

/-- Substitution is capture-avoiding: in the nameless form, every free occurrence of the variable is replaced by the
term, and nothing else changes. -/
theorem nameless_subst (x t : Term) (f : Formula) : (f.subst x t).nameless [] = (f.nameless []).replace x t :=
  nameless_subst_inside x t f List.not_mem_nil List.not_mem_nil

/-- Every `y` is `R`-related to `x`, with `y` put in place of `x`: the inserted `y` is not bound. -/
example :
    ((quantified .universal ⟨"y"⟩ (atom (.of "R" [⟨"x"⟩, ⟨"y"⟩]))).subst ⟨"x"⟩ ⟨"y"⟩).nameless [] =
      .quantified .universal (.atom ⟨"R", 2⟩ [.free ⟨"y"⟩, .bound 0]) := by
  decide +kernel

end Formula

end Tableaux
