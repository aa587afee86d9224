import Tableaux.Proofs.Semantics

/-!
Hintikka sets: sets of signed formulas over a set of terms that hold no contradicting pair and, with each formula,
a whole chain of its expansion; a reusable formula has an instance for each of the terms. All that such a set
asserts holds in a structure whose elements are its terms and whose atoms are those it asserts.
-/

namespace Tableaux

universe u

/-- What a branch asserts when nothing is left to be developed on it. -/
structure Hintikka (terms : Set Term) (H : Set Signed) : Prop where
  free : ∀ s ∈ H, ∀ x, s.formula.hasFree x = true → x ∈ terms
  consistent : ∀ s ∈ H, ∀ r ∈ H, s.contradicts r = false
  chain : ∀ s ∈ H, ∀ e, s.expansion none = some e → ∃ c ∈ e.chains, ∀ r ∈ c, r.fold ∈ H
  nonempty : ∀ q x body value, ⟨.quantified q x body, value⟩ ∈ H → terms.Nonempty
  every : ∀ q x body value, ⟨.quantified q x body, value⟩ ∈ H → (Kind.quantified q value).isReusable = true →
    ∀ t ∈ terms, Signed.fold ⟨body.subst x t, value⟩ ∈ H
  witness : ∀ q x body value, ⟨.quantified q x body, value⟩ ∈ H → (Kind.quantified q value).isReusable = false →
    ∃ t, Signed.fold ⟨body.subst x t, value⟩ ∈ H

/-- The structure has no elements but those that terms of the set denote, and its atoms are those of `H`. Where
there are no terms, the elements do not matter. -/
structure Depicts {D : Type u} (terms : Set Term) (H : Set Signed) (M : Structure D) (a : Term → D) : Prop where
  denoted : terms.Nonempty → ∀ d, ∃ t ∈ terms, a t = d
  atoms : ∀ α : Atom, (∀ x ∈ α.args, x ∈ terms) →
    (M.rel α.predicate (α.args.map a) ↔ (⟨.atom α, true⟩ : Signed) ∈ H)

namespace Hintikka

variable {terms : Set Term} {H : Set Signed} {D : Type u} {M : Structure D} {a : Term → D}

theorem holds_atom (h : Hintikka terms H) (hM : Depicts terms H M a) {α : Atom} {value : Bool}
    (hs : ⟨.atom α, value⟩ ∈ H) : Signed.Holds M a ⟨.atom α, value⟩ := by
  have hargs : ∀ x ∈ α.args, x ∈ terms := by
    intro x hx
    exact h.free _ hs x (by simpa [Formula.hasFree, Atom.mentions] using hx)
  cases value with
  | true => exact (Signed.holds_true M a _).2 ((hM.atoms α hargs).2 hs)
  | false =>
      rw [Signed.holds_false, Formula.Holds, hM.atoms α hargs]
      intro htrue
      have hclash := h.consistent _ htrue _ hs
      simp [Signed.contradicts] at hclash

/-- Everything in a Hintikka set holds in a structure that depicts it. The induction is on the size of the formula,
since an instance is no part of the quantified formula. -/
theorem holds (h : Hintikka terms H) (hM : Depicts terms H M a) {s : Signed} (hs : s ∈ H) : s.Holds M a := by
  induction hn : s.formula.size using Nat.strong_induction_on generalizing s with
  | _ n ih =>
      subst hn
      have hsmaller : ∀ r : Signed, r.fold ∈ H → r.formula.size < s.formula.size → r.Holds M a := by
        intro r hr hlt
        rw [← Signed.holds_fold]
        exact ih _ (r.size_fold_le.trans_lt hlt) hr rfl
      cases he : s.expansion none with
      | some e =>
          obtain ⟨c, hc, hchain⟩ := h.chain s hs e he
          rw [Signed.holds_iff_chain M he]
          exact ⟨c, hc, fun r hr => hsmaller r (hchain r hr) (Signed.size_lt_of_mem_chain he hc hr)⟩
      | none =>
          obtain ⟨f, value⟩ := s
          cases f with
          | atom α => exact h.holds_atom hM hs
          | not f => simp [Signed.expansion] at he
          | binary c l r => simp [Signed.expansion] at he
          | quantified q x body =>
              have hinstance : ∀ t, Signed.fold ⟨body.subst x t, value⟩ ∈ H →
                  Signed.Holds M (Function.update a x (a t)) ⟨body, value⟩ := by
                intro t ht
                rw [← Signed.holds_instance]
                exact hsmaller _ ht (by simp [Formula.size])
              cases hkind : (Kind.quantified q value).isReusable with
              | true =>
                  rw [Signed.holds_of_reusable M hkind]
                  intro d
                  obtain ⟨t, ht, rfl⟩ := hM.denoted (h.nonempty q x body value hs) d
                  exact hinstance t (h.every q x body value hs hkind t ht)
              | false =>
                  obtain ⟨t, ht⟩ := h.witness q x body value hs hkind
                  rw [Signed.holds_of_not_reusable M hkind]
                  exact ⟨a t, hinstance t ht⟩

end Hintikka

/-- The structure on a set of terms in which each denotes itself, with the atoms of `H`. -/
def termStructure (terms : Set Term) (H : Set Signed) : Structure terms where
  rel p ds := (⟨.atom ⟨p, ds.map Subtype.val⟩, true⟩ : Signed) ∈ H

theorem depicts_termStructure {terms : Set Term} {H : Set Signed} {a : Term → terms}
    (ha : ∀ x : terms, a x = x) : Depicts terms H (termStructure terms H) a where
  denoted _ d := ⟨d, d.2, ha d⟩
  atoms α hargs := by
    have hmap : (α.args.map a).map Subtype.val = α.args := by
      rw [List.map_map]
      conv_rhs => rw [← List.map_id α.args]
      apply List.map_congr_left
      intro x hx
      exact congrArg Subtype.val (ha ⟨x, hargs x hx⟩)
    simp only [termStructure, hmap]

/-- Without terms there are no arguments, so any structure with the right sentence letters will do. -/
theorem depicts_of_no_terms {H : Set Signed} {D : Type u} {M : Structure D}
    (hM : ∀ p, M.rel p [] ↔ (⟨.atom ⟨p, []⟩, true⟩ : Signed) ∈ H) (a : Term → D) : Depicts ∅ H M a where
  denoted h := absurd h Set.not_nonempty_empty
  atoms α hargs := by
    obtain ⟨p, args⟩ := α
    have hnil : args = [] := List.eq_nil_iff_forall_not_mem.2 fun x hx => hargs x hx
    subst hnil
    exact hM p

/-- What a Hintikka set asserts has a model. -/
theorem Hintikka.exists_model {terms : Set Term} {H : Set Signed} (h : Hintikka terms H) :
    ∃ (D : Type) (M : Structure D) (a : Term → D), ∀ s ∈ H, s.Holds M a := by
  classical
  rcases terms.eq_empty_or_nonempty with rfl | ⟨t₀, ht₀⟩
  · let M : Structure Unit := ⟨fun p _ => (⟨.atom ⟨p, []⟩, true⟩ : Signed) ∈ H⟩
    have hM : Depicts ∅ H M fun _ => () := depicts_of_no_terms (fun _ => Iff.rfl) _
    exact ⟨Unit, M, _, fun s hs => h.holds hM hs⟩
  · let a : Term → terms := fun x => if hx : x ∈ terms then ⟨x, hx⟩ else ⟨t₀, ht₀⟩
    have ha : ∀ x : terms, a x = x := fun x => dif_pos x.2
    exact ⟨terms, termStructure terms H, a, fun s hs => h.holds (depicts_termStructure ha) hs⟩

end Tableaux
