import Mathlib
import Tableaux.Proofs.Development
import Tableaux.Proofs.Semantics

/-!
The rules are exact. A node says what was asserted when it was made. What the rule of a connective puts on the
branches says as much as the node, no more and no less, and so does the instance with a new term of a node that needs
one instance only; an instance of any other quantified node says part of what the node says.
-/

namespace Tableaux

universe u

namespace Signed

/-- Whatever is neither a literal nor quantified has a rule that needs no term. -/
theorem exists_expansion_none {s : Signed} (hliteral : s.kind.isLiteral = false)
    (hquantified : s.kind.isQuantified = false) : ∃ e, s.expansion none = some e := by
  rcases s with ⟨f, value⟩
  cases f with
  | atom a => cases hliteral
  | not f => exact ⟨_, rfl⟩
  | binary c l r => exact ⟨_, rfl⟩
  | quantified q x body => cases hquantified

variable {D : Type u} (M : Structure D)

/-- What holds of something can be said of a new term, if the term is made to denote that. -/
theorem holds_iff_exists_instance {q : Quantifier} {x t : Term} {body : Formula} {value : Bool}
    (hreusable : (Kind.quantified q value).isReusable = false) (ht : t ∉ (Formula.quantified q x body).identifiers)
    (a : Term → D) :
    Holds M a ⟨.quantified q x body, value⟩ ↔ ∃ d, Holds M (Function.update a t d) ⟨body.subst x t, value⟩ := by
  rw [holds_of_not_reusable M hreusable]
  exact exists_congr fun d => (holds_instance_update M ht value a d).symm

end Signed

/-- What a node that was made of a signed formula, and what its rule gives, say in a structure under an assignment. -/
structure Node.Exact {D : Type u} (M : Structure D) (a : Term → D) (s : Signed) (n : Node) : Prop where
  /-- The node holds exactly if the formula has the truth value it is asserted to have. -/
  asserted : n.signed.Holds M a ↔ (s.formula.Holds M a ↔ s.value = true)
  /-- Without a quantifier, everything on one of the chains holds exactly if the node does. -/
  decomposed : n.kind.isLiteral = false → n.kind.isQuantified = false →
    ∃ e, n.signed.expansion none = some e ∧
      (n.signed.Holds M a ↔ ∃ chain ∈ e.chains, ∀ r ∈ chain, r.Holds M a)
  /-- With a quantifier, there is one instance for each term, which says of the value of the term what the body says of
  the variable. -/
  instantiated : n.kind.isQuantified = true → ∃ q x body, n.signed.formula = .quantified q x body ∧
    ∀ t, ∃ r, n.signed.expansion (some t) = some (.linear [r]) ∧
      (r.Holds M a ↔ (body.Holds M (Function.update a x (a t)) ↔ n.signed.value = true)) ∧
      (n.kind.isReusable = true → n.signed.Holds M a → r.Holds M a) ∧
      (n.kind.isReusable = false → t ∉ n.signed.formula.identifiers →
        (n.signed.Holds M a ↔ ∃ d, r.Holds M (Function.update a t d)))

/-- Every rule is exact, for whatever node, in every structure and under every assignment. -/
theorem Node.exact_ofSigned {D : Type u} (M : Structure D) (a : Term → D) (id : Nat) (s : Signed)
    (origin : Option Nat) : (Node.ofSigned id s origin).Exact M a s := by
  have hfold : s.fold.fold = s.fold := s.fold_fold
  constructor
  case asserted => exact Signed.holds_fold M a s
  case decomposed =>
    intro hliteral hquantified
    obtain ⟨e, he⟩ := Signed.exists_expansion_none hliteral hquantified
    exact ⟨e, he, Signed.holds_iff_chain M he a⟩
  case instantiated =>
    intro hquantified
    obtain ⟨q, x, body, value, hsigned⟩ := Signed.exists_quantified hfold hquantified
    have hkind : (Node.ofSigned id s origin).kind = .quantified q value := congrArg Signed.kind hsigned
    have hnode : (Node.ofSigned id s origin).signed = ⟨.quantified q x body, value⟩ := hsigned
    rw [hkind, hnode]
    refine ⟨q, x, body, rfl, fun t => ⟨⟨body.subst x t, value⟩, rfl, ?_, ?_, ?_⟩⟩
    · exact Signed.holds_instance M x t body value a
    · intro hreusable hholds
      rw [Signed.holds_instance]
      exact (Signed.holds_of_reusable M hreusable x body a).1 hholds _
    · exact fun hreusable ht => Signed.holds_iff_exists_instance M hreusable ht a

end Tableaux
