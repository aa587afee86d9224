import Mathlib
import Tableaux.Proofs.Renaming

/-!
Substitution carried out step by step. A name for a binder is found by adding primes until one is not in use; a part in
which the variable does not occur free is passed over; and where a binder is renamed, its scope is the result of a
substitution before it is substituted in once more. The calls come to an end, because a substitution keeps the skeleton
of a formula, which is all of it but the names: a scope with a new binder is no larger than it was.
-/

namespace Tableaux

namespace Term

variable {used : List Term} {s t z : Term}

/-- The search for a name, one candidate after the other: one that is in use is tried again with one more prime. -/
inductive Settles (used : List Term) : Term → Term → Prop
  | unused {s : Term} : s ∉ used → Settles used s s
  | taken {s z : Term} : s ∈ used → Settles used (s.primed 1) z → Settles used s z

theorem primed_primed (t : Term) (m n : Nat) : (t.primed m).primed n = t.primed (m + n) := by
  rw [primed, primed, primed, String.append_assoc, ← String.ofList_append, List.replicate_append_replicate]

theorem Settles.unique {z' : Term} (h : Settles used s z) (h' : Settles used s z') : z = z' := by
  induction h with
  | unused hunused =>
      cases h' with
      | unused _ => rfl
      | taken hused _ => exact absurd hused hunused
  | taken hused _ ih =>
      cases h' with
      | unused hunused => exact absurd hused hunused
      | taken _ hnext => exact ih hnext

/-- If all candidates before the last are in use, the search ends there. -/
theorem settles_of_forall_mem {first count : Nat} (hunused : t.primed (first + count) ∉ used)
    (hused : ∀ n < count, t.primed (first + n) ∈ used) : Settles used (t.primed first) (t.primed (first + count)) := by
  induction count generalizing first with
  | zero => exact .unused hunused
  | succ count ih =>
      refine .taken (hused 0 (Nat.succ_pos count)) ?_
      rw [primed_primed]
      rw [← Nat.add_assoc, Nat.add_right_comm] at hunused ⊢
      refine ih hunused fun n hn => ?_
      rw [Nat.add_right_comm]
      exact hused (n + 1) (Nat.succ_lt_succ hn)

/-- The search ends, and what it finds is the name with the fewest primes that is not in use. -/
theorem settles_iff : Settles used (t.primed 1) z ↔ z = t.freshPrimed used := by
  have hinj : Function.Injective fun n => t.primed (n + 1) := fun _ _ h => Nat.succ_injective (primed_injective t h)
  obtain ⟨⟨hunused, hleast⟩, _⟩ := isLeast_leastUnused hinj used
  have hends : Settles used (t.primed 1) (t.freshPrimed used) := by
    rw [freshPrimed, Nat.add_comm]
    refine settles_of_forall_mem ?_ fun n hn => ?_
    · rw [Nat.add_comm]
      exact hunused
    · by_contra hnot
      rw [Nat.add_comm] at hnot
      exact Nat.not_le.2 hn (hleast hnot)
  exact ⟨fun h => h.unique hends, fun h => h ▸ hends⟩

end Term

/-- What a formula is apart from the names of its binders and the arguments of its atoms. -/
inductive Skeleton where
  | atom (p : Predicate) (count : Nat)
  | not (s : Skeleton)
  | binary (c : Connective) (l r : Skeleton)
  | quantified (q : Quantifier) (body : Skeleton)
deriving DecidableEq

def Skeleton.depth : Skeleton → Nat
  | atom _ _ => 0
  | not s => 1 + s.depth
  | binary _ l r => 1 + max l.depth r.depth
  | quantified _ body => 1 + body.depth

namespace Formula

variable {f g body : Formula} {x t y z : Term}

def skeleton : Formula → Skeleton
  | atom a => .atom a.predicate a.args.length
  | not f => .not f.skeleton
  | binary c l r => .binary c l.skeleton r.skeleton
  | quantified q _ body => .quantified q body.skeleton

theorem depth_eq (f : Formula) : f.depth = f.skeleton.depth := by
  induction f with
  | atom a => rfl
  | not f ih => rw [depth, ih, skeleton, Skeleton.depth]
  | binary c l r ihl ihr => rw [depth, ihl, ihr, skeleton, Skeleton.depth]
  | quantified q y body ih => rw [depth, ih, skeleton, Skeleton.depth]

/-- Along with what follows them, the identifiers of a formula of known skeleton determine it. -/
theorem eq_of_identifiers_append {r r' : List Term} (h : f.skeleton = g.skeleton)
    (hid : f.identifiers ++ r = g.identifiers ++ r') : f = g ∧ r = r' := by
  induction f generalizing g r r' with
  | atom a =>
      cases g with
      | atom b =>
          obtain ⟨p, args⟩ := a
          obtain ⟨p', args'⟩ := b
          obtain ⟨rfl, hlength⟩ := Skeleton.atom.inj h
          obtain ⟨rfl, rfl⟩ := List.append_inj hid hlength
          exact ⟨rfl, rfl⟩
      | _ => cases h
  | not f ih =>
      cases g with
      | not g =>
          obtain ⟨rfl, rfl⟩ := ih (Skeleton.not.inj h) hid
          exact ⟨rfl, rfl⟩
      | _ => cases h
  | binary c l r ihl ihr =>
      cases g with
      | binary c' l' r' =>
          obtain ⟨rfl, hl, hr⟩ := Skeleton.binary.inj h
          rw [identifiers, identifiers, List.append_assoc, List.append_assoc] at hid
          obtain ⟨rfl, hrest⟩ := ihl hl hid
          obtain ⟨rfl, rfl⟩ := ihr hr hrest
          exact ⟨rfl, rfl⟩
      | _ => cases h
  | quantified q y body ih =>
      cases g with
      | quantified q' y' body' =>
          obtain ⟨rfl, hbody⟩ := Skeleton.quantified.inj h
          obtain ⟨rfl, hrest⟩ := List.cons.inj hid
          obtain ⟨rfl, rfl⟩ := ih hbody hrest
          exact ⟨rfl, rfl⟩
      | _ => cases h

/-- A formula is made up of its skeleton and its identifiers. -/
theorem eq_of_skeleton_eq (h : f.skeleton = g.skeleton) (hid : f.identifiers = g.identifiers) : f = g :=
  (eq_of_identifiers_append h (congrArg (· ++ []) hid)).1

theorem skeleton_replace (x t : Term) (f : Formula) : (f.replace x t).skeleton = f.skeleton := by
  induction f with
  | atom a => rw [replace, skeleton, skeleton, Atom.replace, List.length_map]
  | not f ih => rw [replace, skeleton, skeleton, ih]
  | binary c l r ihl ihr => rw [replace, skeleton, skeleton, ihl, ihr]
  | quantified q y body ih =>
      rw [replace]
      split
      · rfl
      · rw [skeleton, skeleton, ih]

theorem skeleton_subst (x t : Term) (f : Formula) : (f.subst x t).skeleton = f.skeleton := by
  fun_induction subst x t f with
  | case1 a => rw [skeleton, skeleton, Atom.replace, List.length_map]
  | case2 f ih => rw [skeleton, skeleton, ih]
  | case3 c l r ihl ihr => rw [skeleton, skeleton, ihl, ihr]
  | case4 q body => rfl
  | case5 q y body hyx hcap ih => rw [skeleton, skeleton, ih, skeleton_replace]
  | case6 q y body hyx hcap ih => rw [skeleton, skeleton, ih]

/-- A name that is nowhere in the formula is put in without renaming a binder. -/
theorem subst_eq_replace (x : Term) (h : t ∉ f.identifiers) : f.subst x t = f.replace x t := by
  induction f with
  | atom a => rw [subst, replace]
  | not f ih => rw [subst, replace, ih h]
  | binary c l r ihl ihr =>
      rw [identifiers, List.mem_append, not_or] at h
      rw [subst, replace, ihl h.1, ihr h.2]
  | quantified q y body ih =>
      rw [identifiers, List.mem_cons, not_or] at h
      by_cases hyx : y = x
      · rw [subst, replace, if_pos hyx, if_pos hyx]
      · rw [subst_quantified_of_ne q hyx (Or.inl (Ne.symm h.1)), replace, if_neg hyx, ih h.2]

/-- A binder and its scope, with a new name for the binder if it would capture the term. -/
def clear (x t y : Term) (body : Formula) : Term × Formula :=
  if captures x t y body then (rebound x t y body, body.replace y (rebound x t y body)) else (y, body)

@[simp]
theorem size_clear (x t y : Term) (body : Formula) : (clear x t y body).2.size = body.size := by
  rw [clear]
  split
  · exact size_replace _ _ _
  · rfl

theorem subst_quantified (q : Quantifier) (hyx : y ≠ x) :
    (quantified q y body).subst x t = quantified q (clear x t y body).1 ((clear x t y body).2.subst x t) := by
  rw [subst, if_neg hyx, clear]
  split <;> rfl

mutual

/-- `Substituted x t f g`: when `t` has been put in place of `x` in the formula `f`, call by call, the result is `g`. A
derivation is the tree of all the calls, so there is one only if they come to an end. -/
inductive Substituted : Term → Term → Formula → Formula → Prop
  | atom {x t : Term} {a : Atom} : Substituted x t (atom a) (atom (a.replace x t))
  | not {x t : Term} {f g : Formula} : PartSubstituted x t f g → Substituted x t (not f) (not g)
  | binary {x t : Term} {c : Connective} {l r l' r' : Formula} :
      PartSubstituted x t l l' → PartSubstituted x t r r' → Substituted x t (binary c l r) (binary c l' r')
  | hidden {x t : Term} {q : Quantifier} {body : Formula} :
      Substituted x t (quantified q x body) (quantified q x body)
  | quantified {x t y z : Term} {q : Quantifier} {body scope result : Formula} :
      y ≠ x → Cleared x t y body z scope → PartSubstituted x t scope result →
        Substituted x t (quantified q y body) (quantified q z result)

/-- A part of a formula is passed over unless the variable is free in it. -/
inductive PartSubstituted : Term → Term → Formula → Formula → Prop
  | untouched {x t : Term} {f : Formula} : f.hasFree x = false → PartSubstituted x t f f
  | touched {x t : Term} {f g : Formula} : f.hasFree x = true → Substituted x t f g → PartSubstituted x t f g

/-- `Cleared x t y body z scope`: the binder `y` over `body` is out of the way of `t` as the binder `z` over `scope`,
where a new name is sought and put in place of the old one if the term would be captured. -/
inductive Cleared : Term → Term → Term → Formula → Term → Formula → Prop
  | kept {x t y : Term} {body : Formula} : captures x t y body = false → Cleared x t y body y body
  | renamed {x t y z : Term} {body scope : Formula} :
      captures x t y body = true → Term.Settles (x :: t :: body.identifiers) (y.primed 1) z →
        Substituted y z body scope → Cleared x t y body z scope

end

theorem partSubstituted_iff (h : Substituted x t f g ↔ g = f.subst x t) :
    PartSubstituted x t f g ↔ g = f.subst x t := by
  constructor
  · intro hpart
    cases hpart with
    | untouched hfree => exact (subst_of_not_hasFree t hfree).symm
    | touched _ hsubst => exact h.1 hsubst
  · intro heq
    cases hfree : f.hasFree x with
    | false =>
        rw [heq, subst_of_not_hasFree t hfree]
        exact .untouched hfree
    | true => exact .touched hfree (h.2 heq)

/-- Clearing a binder ends with the new binder and the renamed scope. The scope is renamed by a substitution of its own;
but the new name being nowhere in it, what comes out is the scope with the name replaced. -/
theorem cleared_iff {scope : Formula} (h : ∀ y z g, Substituted y z body g ↔ g = body.subst y z) :
    Cleared x t y body z scope ↔ (z, scope) = clear x t y body := by
  rw [clear]
  cases hcap : captures x t y body with
  | true =>
      have hrename : body.subst y (rebound x t y body) = body.replace y (rebound x t y body) :=
        subst_eq_replace y (rebound_not_mem_identifiers x t y body)
      rw [if_pos rfl, Prod.mk.injEq]
      constructor
      · intro hclear
        cases hclear with
        | kept hnot => cases hcap.symm.trans hnot
        | renamed _ hsettles hsubst =>
            obtain rfl := Term.settles_iff.1 hsettles
            exact ⟨rfl, ((h _ _ _).1 hsubst).trans hrename⟩
      · rintro ⟨rfl, rfl⟩
        exact .renamed hcap (Term.settles_iff.2 rfl) ((h _ _ _).2 hrename.symm)
  | false =>
      rw [if_neg Bool.false_ne_true, Prod.mk.injEq]
      constructor
      · intro hclear
        cases hclear with
        | kept _ => exact ⟨rfl, rfl⟩
        | renamed htrue _ _ => cases hcap.symm.trans htrue
      · rintro ⟨rfl, rfl⟩
        exact .kept hcap

/-- The calls come to an end with the formula that substitution gives, and with no other. -/
theorem substituted_iff (x t : Term) (f g : Formula) : Substituted x t f g ↔ g = f.subst x t := by
  -- by induction on the size, as the second call for a renamed scope is not for a part of the formula
  cases f with
  | atom a =>
      rw [subst]
      constructor
      · intro h
        cases h with
        | atom => rfl
      · rintro rfl
        exact .atom
  | not f =>
      have hpart : ∀ g, PartSubstituted x t f g ↔ g = f.subst x t :=
        fun g => partSubstituted_iff (substituted_iff x t f g)
      rw [subst]
      constructor
      · intro h
        cases h with
        | not hf => rw [(hpart _).1 hf]
      · rintro rfl
        exact .not ((hpart _).2 rfl)
  | binary c l r =>
      have hleft : ∀ g, PartSubstituted x t l g ↔ g = l.subst x t :=
        fun g => partSubstituted_iff (substituted_iff x t l g)
      have hright : ∀ g, PartSubstituted x t r g ↔ g = r.subst x t :=
        fun g => partSubstituted_iff (substituted_iff x t r g)
      rw [subst]
      constructor
      · intro h
        cases h with
        | binary hl hr => rw [(hleft _).1 hl, (hright _).1 hr]
      · rintro rfl
        exact .binary ((hleft _).2 rfl) ((hright _).2 rfl)
  | quantified q y body =>
      by_cases hyx : y = x
      · rw [subst, if_pos hyx]
        constructor
        · intro h
          cases h with
          | hidden => rfl
          | quantified hne _ _ => exact absurd hyx hne
        · rintro rfl
          rw [hyx]
          exact .hidden
      · have hclear : ∀ z scope, Cleared x t y body z scope ↔ (z, scope) = clear x t y body :=
          fun z scope => cleared_iff fun y z g => substituted_iff y z body g
        have hscope : ∀ g, PartSubstituted x t (clear x t y body).2 g ↔ g = (clear x t y body).2.subst x t :=
          fun g => partSubstituted_iff (substituted_iff x t (clear x t y body).2 g)
        rw [subst_quantified q hyx]
        constructor
        · intro h
          cases h with
          | hidden => exact absurd rfl hyx
          | quantified _ hcleared hpart =>
              rw [← (hclear _ _).1 hcleared] at hscope ⊢
              rw [(hscope _).1 hpart]
        · rintro rfl
          exact .quantified hyx ((hclear _ _).2 rfl) ((hscope _).2 rfl)
termination_by f.size
decreasing_by all_goals simp [size] <;> omega

/-- What is true of every substitution. -/
structure Completes (x t : Term) (f : Formula) : Prop where
  /-- The search for the name of a binder ends, with a name that is none of those in use. -/
  settles : ∀ y body, (∀ z, Term.Settles (x :: t :: body.identifiers) (y.primed 1) z ↔ z = rebound x t y body) ∧
    rebound x t y body ≠ x ∧ rebound x t y body ≠ t ∧ rebound x t y body ∉ body.identifiers
  /-- The calls come to an end, with one result. -/
  ends : ∀ g, Substituted x t f g ↔ g = f.subst x t
  skeleton : (f.subst x t).skeleton = f.skeleton
  depth : (f.subst x t).depth = f.depth
  /-- What may differ are names. -/
  names : f.subst x t = f ↔ (f.subst x t).identifiers = f.identifiers

/-- Substitution comes to an end and changes nothing but names. -/
theorem subst_completes (x t : Term) (f : Formula) : Completes x t f where
  settles y body :=
    ⟨fun _ => Term.settles_iff, rebound_ne_var x t y body, rebound_ne_term x t y body,
      rebound_not_mem_identifiers x t y body⟩
  ends := substituted_iff x t f
  skeleton := skeleton_subst x t f
  depth := by rw [depth_eq, depth_eq, skeleton_subst]
  names := ⟨congrArg identifiers, eq_of_skeleton_eq (skeleton_subst x t f)⟩

/-- The outer binder is renamed past the name of the inner one, which stays. -/
example :
    (quantified .universal ⟨"y"⟩ (quantified .existential ⟨"y\x27"⟩ (atom (.of "R" [⟨"x"⟩, ⟨"y"⟩, ⟨"y\x27"⟩])))).subst
        ⟨"x"⟩ ⟨"y"⟩ =
      quantified .universal ⟨"y\x27\x27"⟩
        (quantified .existential ⟨"y\x27"⟩ (atom (.of "R" [⟨"y"⟩, ⟨"y\x27\x27"⟩, ⟨"y\x27"⟩]))) := by
  decide +kernel

end Formula

end Tableaux
