import Tableaux.Expansion
import Tableaux.Proofs.Substitution

/-!
Truth of formulas in structures. A structure gives every predicate a relation on lists of elements, and an
assignment gives every identifier an element, so that its domain is not empty. Substitution has the meaning it
should have, which rests on the choice of new binders, and each rule says of a signed formula what it means: it
holds exactly if everything on one of the chains of its expansion holds.
-/

namespace Tableaux

universe u

/-- A structure with domain `D`: for each predicate a relation on lists of elements. -/
structure Structure (D : Type u) where
  rel : Predicate → List D → Prop

/-- The truth of a compound of two propositions. -/
def Connective.Holds : Connective → Prop → Prop → Prop
  | conjunction, p, q => p ∧ q
  | disjunction, p, q => p ∨ q
  | implication, p, q => p → q
  | biimplication, p, q => p ↔ q

namespace Formula

variable {D : Type u} (M : Structure D)

/-- The truth of a formula in a structure under an assignment. -/
def Holds (a : Term → D) : Formula → Prop
  | atom α => M.rel α.predicate (α.args.map a)
  | not f => ¬ f.Holds a
  | binary c l r => c.Holds (l.Holds a) (r.Holds a)
  | quantified .universal x body => ∀ d, body.Holds (Function.update a x d)
  | quantified .existential x body => ∃ d, body.Holds (Function.update a x d)

/-- The truth of a formula depends on the values of its free terms only. -/
theorem holds_congr {f : Formula} {a b : Term → D} (h : ∀ x, f.hasFree x = true → a x = b x) :
    f.Holds M a ↔ f.Holds M b := by
  induction f generalizing a b with
  | atom α =>
      have hargs : α.args.map a = α.args.map b := by
        apply List.map_congr_left
        intro x hx
        exact h x (by simpa [hasFree, Atom.mentions] using hx)
      simp only [Holds, hargs]
  | not f ih => exact not_congr (ih h)
  | binary c l r ihl ihr =>
      have hl := ihl fun x hx => h x (by simp [hasFree, hx])
      have hr := ihr fun x hx => h x (by simp [hasFree, hx])
      simp only [Holds, hl, hr]
  | quantified q y body ih =>
      have hbody : ∀ d, body.Holds M (Function.update a y d) ↔ body.Holds M (Function.update b y d) := by
        intro d
        apply ih
        intro x hx
        by_cases hxy : x = y
        · subst hxy
          simp only [Function.update_self]
        · simp only [Function.update_of_ne hxy]
          exact h x (by simp [hasFree, hx, Ne.symm hxy])
      cases q with
      | universal => exact forall_congr' hbody
      | existential => exact exists_congr hbody

/-- A quantified formula holds of the same elements, whichever way its body is said. -/
theorem holds_quantified_congr (q : Quantifier) {x y : Term} {f g : Formula} {a b : Term → D}
    (h : ∀ d, f.Holds M (Function.update a x d) ↔ g.Holds M (Function.update b y d)) :
    (quantified q x f).Holds M a ↔ (quantified q y g).Holds M b := by
  cases q with
  | universal => exact forall_congr' h
  | existential => exact exists_congr h

theorem map_replace_args (α : Atom) (x t : Term) (a : Term → D) :
    (α.replace x t).args.map a = α.args.map (Function.update a x (a t)) := by
  rw [Atom.replace, List.map_map]
  apply List.map_congr_left
  intro s _
  rw [Function.comp_apply, Function.update_apply]
  split <;> rfl

/-- Replacement by a name that is nowhere in the formula. -/
theorem holds_replace {y z : Term} {f : Formula} (hz : z ∉ f.identifiers) (a : Term → D) :
    (f.replace y z).Holds M a ↔ f.Holds M (Function.update a y (a z)) := by
  induction f generalizing a with
  | atom α => rw [replace, Holds, Holds, map_replace_args, Atom.replace]
  | not f ih => exact not_congr (ih hz a)
  | binary c l r ihl ihr =>
      simp only [identifiers, List.mem_append, not_or] at hz
      simp only [replace, Holds, ihl hz.1, ihr hz.2]
  | quantified q v body ih =>
      simp only [identifiers, List.mem_cons, not_or] at hz
      rw [replace]
      split
      · rename_i hvy
        subst hvy
        apply holds_quantified_congr
        intro d
        rw [Function.update_idem]
      · rename_i hvy
        apply holds_quantified_congr
        intro d
        rw [ih hz.2, Function.update_of_ne hz.1, Function.update_comm hvy]

/-- To put `t` in place of `x` is to give `x` the value of `t`. -/
theorem holds_subst (x t : Term) (f : Formula) (a : Term → D) :
    (f.subst x t).Holds M a ↔ f.Holds M (Function.update a x (a t)) := by
  fun_induction subst x t f generalizing a with
  | case1 α => rw [Holds, Holds, map_replace_args, Atom.replace]
  | case2 f ih => exact not_congr (ih a)
  | case3 c l r ihl ihr => simp only [Holds, ihl, ihr]
  | case4 q body =>
      apply holds_quantified_congr
      intro d
      rw [Function.update_idem]
  | case5 q y body hyx hcap ih =>
      -- The assignments differ at the new binder only, which is not free in the scope.
      have hzid := rebound_not_mem_identifiers x t y body
      have hzx := rebound_ne_var x t y body
      have hzt := rebound_ne_term x t y body
      generalize rebound x t y body = z at *
      apply holds_quantified_congr
      intro d
      rw [ih, holds_replace M hzid, Function.update_of_ne hzt.symm, Function.update_of_ne hzx,
        Function.update_self]
      apply holds_congr
      intro w hw
      have hwz : w ≠ z := by
        rintro rfl
        exact hzid (mem_identifiers_of_hasFree hw)
      simp only [Function.update_apply, hwz, if_false]
  | case6 q y body hyx hcap ih =>
      have hcap : y = t → body.hasFree x = false := by simpa [captures] using hcap
      apply holds_quantified_congr
      intro d
      rw [ih]
      by_cases hyt : y = t
      · have hxfree := hcap hyt
        apply holds_congr
        intro w hw
        have hwx : w ≠ x := by
          rintro rfl
          rw [hxfree] at hw
          exact Bool.false_ne_true hw
        simp only [Function.update_apply, hwx, if_false]
      · rw [Function.update_of_ne (Ne.symm hyt), Function.update_comm hyx]

end Formula

namespace Signed

theorem exists_quantified {s : Signed} (hfold : s.fold = s) (h : s.kind.isQuantified = true) :
    ∃ q x body value, s = ⟨.quantified q x body, value⟩ := by
  rcases s with ⟨f, value⟩
  cases f with
  | atom a => cases h
  | not f =>
      cases value with
      | true =>
          have hsize := congrArg (fun s : Signed => s.formula.size) hfold
          simp [fold, Formula.size] at hsize
      | false => cases h
  | binary c l r => cases h
  | quantified q x body => exact ⟨q, x, body, value, rfl⟩

/-- A rule that needs no term is not that of a quantified formula. -/
theorem isQuantified_eq_false {s : Signed} {e : Expansion} (hfold : s.fold = s) (h : s.expansion none = some e) :
    s.kind.isQuantified = false := by
  rw [← Bool.not_eq_true]
  intro hkind
  obtain ⟨q, x, body, value, rfl⟩ := exists_quantified hfold hkind
  cases h

/-- A rule that needs no term ignores the one it is given. -/
theorem expansion_of_expansion_none {s : Signed} {e : Expansion} (h : s.expansion none = some e) (x : Option Term) :
    s.expansion x = some e := by
  rcases s with ⟨f, value⟩
  cases f with
  | quantified q y body => cases h
  | atom | not | binary => exact h

/-- A literal has no rule. -/
theorem expansion_of_isLiteral {s : Signed} (hfold : s.fold = s) (h : s.kind.isLiteral = true) (x : Option Term) :
    s.expansion x = none := by
  rcases s with ⟨f, value⟩
  cases f with
  | atom a => rfl
  | not f =>
      cases value with
      | true =>
          have hsize := congrArg (fun s : Signed => s.formula.size) hfold
          simp [fold, Formula.size] at hsize
      | false => cases h
  | binary c l r => cases h
  | quantified q x body => cases h

theorem hasFree_fold (s : Signed) (x : Term) : s.fold.formula.hasFree x = s.formula.hasFree x := by
  rcases s with ⟨f, value⟩
  cases f <;> cases value <;> rfl

/-- What stands in a chain of an expansion: the formula under the negation, one of the two parts, or the instance. -/
theorem formula_of_mem_chain {s r : Signed} {term : Option Term} {e : Expansion} {chain : List Signed}
    (h : s.expansion term = some e) (hchain : chain ∈ e.chains) (hr : r ∈ chain) :
    s.formula = .not r.formula ∨
    (∃ c left right, s.formula = .binary c left right ∧ (r.formula = left ∨ r.formula = right)) ∨
    ∃ q x body t, s.formula = .quantified q x body ∧ term = some t ∧ r.formula = body.subst x t := by
  rcases s with ⟨f, value⟩
  cases f with
  | atom a => cases h
  | not f =>
      cases h
      rw [List.mem_singleton.1 hchain, List.mem_singleton] at hr
      rw [hr]
      exact Or.inl rfl
  | binary c left right =>
      cases h
      refine Or.inr (Or.inl ⟨c, left, right, rfl, ?_⟩)
      cases c <;> cases value <;> simp only [binaryExpansion, Expansion.chains, List.mem_cons, List.not_mem_nil,
        or_false] at hchain <;> rcases hchain with rfl | rfl <;> simp at hr <;> rcases hr with rfl | rfl <;> simp
  | quantified q x body =>
      obtain ⟨t, rfl, rfl⟩ := Option.map_eq_some_iff.1 h
      rw [List.mem_singleton.1 hchain, List.mem_singleton] at hr
      exact Or.inr (Or.inr ⟨q, x, body, t, rfl, rfl, by rw [hr]⟩)

/-- A rule brings in no free terms but the one it is applied with. -/
theorem hasFree_of_mem_chain {s r : Signed} {term : Option Term} {e : Expansion} {chain : List Signed} {x : Term}
    (h : s.expansion term = some e) (hchain : chain ∈ e.chains) (hr : r ∈ chain)
    (hx : r.formula.hasFree x = true) : s.formula.hasFree x = true ∨ term = some x := by
  rcases formula_of_mem_chain h hchain hr with hs | ⟨c, left, right, hs, hpart⟩ | ⟨q, y, body, t, hs, rfl, hinstance⟩
  · rw [hs]
    exact Or.inl hx
  · rw [hs, Formula.hasFree, Bool.or_eq_true]
    rcases hpart with heq | heq
    · exact Or.inl (Or.inl (heq ▸ hx))
    · exact Or.inl (Or.inr (heq ▸ hx))
  · rw [hinstance, Formula.hasFree_subst] at hx
    rw [hs, Formula.hasFree, Bool.and_eq_true, decide_eq_true_iff]
    rcases hx with ⟨hx, hne⟩ | ⟨rfl, _⟩
    · exact Or.inl ⟨Ne.symm hne, hx⟩
    · exact Or.inr rfl

theorem size_fold_le (s : Signed) : s.fold.formula.size ≤ s.formula.size := by
  unfold fold
  split
  · simp [Formula.size]
  · exact le_rfl

/-- Rules lead to smaller formulas. -/
theorem size_lt_of_mem_chain {s r : Signed} {term : Option Term} {e : Expansion} {chain : List Signed}
    (h : s.expansion term = some e) (hchain : chain ∈ e.chains) (hr : r ∈ chain) :
    r.formula.size < s.formula.size := by
  rcases formula_of_mem_chain h hchain hr with hs | ⟨c, left, right, hs, hpart⟩ | ⟨q, x, body, t, hs, _, hinstance⟩
  · simp [hs, Formula.size]
  · have hleft := left.size_pos
    have hright := right.size_pos
    rw [hs, Formula.size]
    rcases hpart with heq | heq
    all_goals
      rw [heq]
      omega
  · simp [hs, hinstance, Formula.size]

variable {D : Type u} (M : Structure D)

/-- The formula has the asserted truth value. -/
def Holds (a : Term → D) (s : Signed) : Prop :=
  s.formula.Holds M a ↔ s.value = true

@[simp]
theorem holds_true (a : Term → D) (f : Formula) : Holds M a ⟨f, true⟩ ↔ f.Holds M a := by
  simp [Holds]

@[simp]
theorem holds_false (a : Term → D) (f : Formula) : Holds M a ⟨f, false⟩ ↔ ¬ f.Holds M a := by
  simp [Holds]

theorem holds_congr {s : Signed} {a b : Term → D} (h : ∀ x, s.formula.hasFree x = true → a x = b x) :
    s.Holds M a ↔ s.Holds M b := by
  unfold Holds
  rw [Formula.holds_congr M h]

/-- What a term denotes makes no difference to a formula in which it is not free. -/
theorem holds_update {s : Signed} {x : Term} (hx : ¬ s.formula.hasFree x = true) (a : Term → D) (d : D) :
    s.Holds M (Function.update a x d) ↔ s.Holds M a := by
  refine holds_congr M fun y hy => Function.update_of_ne (?_ : y ≠ x) d a
  rintro rfl
  exact hx hy

@[simp]
theorem holds_fold (a : Term → D) (s : Signed) : s.fold.Holds M a ↔ s.Holds M a := by
  unfold fold
  split
  · simp [Formula.Holds]
  · rfl

theorem not_holds_of_contradicts {s t : Signed} (h : s.contradicts t = true) (a : Term → D) :
    ¬ (s.Holds M a ∧ t.Holds M a) := by
  simp only [contradicts, Bool.and_eq_true, bne_iff_ne, ne_eq, decide_eq_true_eq] at h
  rintro ⟨hs, ht⟩
  apply h.1
  rw [Holds, h.2] at hs
  exact Bool.eq_iff_iff.2 (hs.symm.trans ht)

/-- The rule of a connective is exact. -/
theorem holds_binary (c : Connective) (l r : Formula) (value : Bool) (a : Term → D) :
    Holds M a ⟨.binary c l r, value⟩ ↔
      ∃ chain ∈ (binaryExpansion l r c value).chains, ∀ s ∈ chain, s.Holds M a := by
  by_cases hl : l.Holds M a <;> by_cases hr : r.Holds M a <;> cases c <;> cases value <;>
    simp [binaryExpansion, Expansion.chains, Formula.Holds, Connective.Holds, hl, hr]

/-- A signed formula that is no literal and not quantified holds exactly if everything on one of the chains of
its expansion does. -/
theorem holds_iff_chain {s : Signed} {e : Expansion} (h : s.expansion none = some e) (a : Term → D) :
    s.Holds M a ↔ ∃ chain ∈ e.chains, ∀ r ∈ chain, r.Holds M a := by
  obtain ⟨f, value⟩ := s
  cases f with
  | atom α => simp [expansion] at h
  | not f =>
      simp only [expansion, Option.some.injEq] at h
      subst h
      cases value <;> simp [Expansion.chains, Formula.Holds]
  | binary c l r =>
      simp only [expansion, Option.some.injEq] at h
      subst h
      exact holds_binary M c l r value a
  | quantified q x body => simp [expansion] at h

/-- An instance says of the value of its term what the body says of the variable. -/
theorem holds_instance (x t : Term) (body : Formula) (value : Bool) (a : Term → D) :
    Holds M a ⟨body.subst x t, value⟩ ↔ Holds M (Function.update a x (a t)) ⟨body, value⟩ := by
  unfold Holds
  rw [Formula.holds_subst]

/-- An instance with a new term says of what the term is made to denote what the body says of the variable. -/
theorem holds_instance_update {x t : Term} {body : Formula} (ht : t ∉ x :: body.identifiers) (value : Bool)
    (a : Term → D) (d : D) :
    Holds M (Function.update a t d) ⟨body.subst x t, value⟩ ↔ Holds M (Function.update a x d) ⟨body, value⟩ := by
  rw [List.mem_cons, not_or] at ht
  rw [holds_instance, Function.update_self, Function.update_comm ht.1]
  exact holds_update M (fun hfree => ht.2 (Formula.mem_identifiers_of_hasFree hfree)) _ d

theorem holds_of_reusable {q : Quantifier} {value : Bool} (h : (Kind.quantified q value).isReusable = true)
    (x : Term) (body : Formula) (a : Term → D) :
    Holds M a ⟨.quantified q x body, value⟩ ↔ ∀ d, Holds M (Function.update a x d) ⟨body, value⟩ := by
  cases q <;> cases value <;> simp_all [Kind.isReusable, Formula.Holds]

theorem holds_of_not_reusable {q : Quantifier} {value : Bool}
    (h : (Kind.quantified q value).isReusable = false) (x : Term) (body : Formula) (a : Term → D) :
    Holds M a ⟨.quantified q x body, value⟩ ↔ ∃ d, Holds M (Function.update a x d) ⟨body, value⟩ := by
  cases q <;> cases value <;> simp_all [Kind.isReusable, Formula.Holds]

section Instances

variable {s : Signed} {x : Term} {e : Expansion} {a : Term → D} (hfold : s.fold = s)
  (hquantified : s.kind.isQuantified = true) (he : s.expansion (some x) = some e) (h : s.Holds M a)
include hfold hquantified he h

/-- What holds of everything holds of every instance. -/
theorem exists_chain_of_reusable (hreusable : s.kind.isReusable = true) :
    ∃ chain ∈ e.chains, ∀ r ∈ chain, r.Holds M a := by
  obtain ⟨q, v, body, value, rfl⟩ := exists_quantified hfold hquantified
  cases he
  refine ⟨_, List.mem_cons_self, fun r hr => ?_⟩
  rw [List.mem_singleton.1 hr, holds_instance]
  exact (holds_of_reusable M hreusable v body a).1 h _

/-- What holds of something holds of a new term, if the term is made to denote that. -/
theorem exists_witness (hreusable : s.kind.isReusable = false) (hx : x ∉ s.formula.identifiers) :
    ∃ d, ∃ chain ∈ e.chains, ∀ r ∈ chain, r.Holds M (Function.update a x d) := by
  obtain ⟨q, v, body, value, rfl⟩ := exists_quantified hfold hquantified
  cases he
  obtain ⟨d, hd⟩ := (holds_of_not_reusable M hreusable v body a).1 h
  refine ⟨d, _, List.mem_cons_self, fun r hr => ?_⟩
  rw [List.mem_singleton.1 hr]
  exact (holds_instance_update M hx value a d).2 hd

end Instances

end Signed

end Tableaux
