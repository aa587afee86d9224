import Mathlib
import Tableaux.Proofs.Derivation
import Tableaux.Proofs.Soundness

/-!
Soundness when steps are undone. Suppose that the premises still in the tree are true. The witnesses still in use can
be chosen one after the other, in the order in which they came up, each for what its quantified formula says; then for
every development that splits branches one side is true, and the branch that keeps to these sides is true from the
root to the leaf. So it is not closed. This needs that a removal never takes away one of two sides alone, as it does
when a node with a sibling is removed.
-/

namespace Tableaux

universe u

/-- Whatever the terms denote, any of the witnesses can be chosen anew so that each is as its formula says. -/
def Choosable (W : Signed → Term → Prop) : Prop :=
  ∀ V : Signed → Term → Prop, (∀ s x, V s x → W s x) → ∀ (D : Type u) (M : Structure D) (a : Term → D),
    ∃ a' : Term → D, (∀ x, a' x ≠ a x → ∃ s, V s x) ∧
      ∀ s x, V s x → s.Holds M a' → ∀ e, s.expansion (some x) = some e → ∃ chain ∈ e.chains, ∀ r ∈ chain, r.Holds M a'

namespace Choosable

variable {W W' : Signed → Term → Prop}

theorem mono (h : Choosable.{u} W) (hW : ∀ s x, W' s x → W s x) : Choosable.{u} W' :=
  fun V hV => h V fun s x hx => hW s x (hV s x hx)

/-- A new term that occurs nowhere is chosen last. -/
theorem insert (h : Choosable.{u} W) {s₀ : Signed} {x₀ : Term}
    (hW : ∀ s x, W' s x → W s x ∨ (s = s₀ ∧ x = x₀)) (hfold : s₀.fold = s₀)
    (hquantified : s₀.kind.isQuantified = true) (hreusable : s₀.kind.isReusable = false)
    (hfresh : x₀ ∉ s₀.formula.identifiers)
    (hnew : ∀ s x, W s x → x₀ ∉ s.formula.identifiers ∧ x ≠ x₀) : Choosable.{u} W' := by
  intro V hV D M a
  obtain ⟨a', hchanged, hchosen⟩ := h (fun s x => V s x ∧ W s x) (fun _ _ hx => hx.2) D M a
  by_cases hlast : V s₀ x₀ ∧ s₀.Holds M a'
  · obtain ⟨e₀, he₀⟩ : ∃ e, s₀.expansion (some x₀) = some e := by
      obtain ⟨q, v, body, value, rfl⟩ := Signed.exists_quantified hfold hquantified
      exact ⟨_, rfl⟩
    obtain ⟨d, hd⟩ := Signed.exists_witness M hfold hquantified he₀ hlast.2 hreusable hfresh
    refine ⟨Function.update a' x₀ d, fun x hx => ?_, fun s x hx hs e he => ?_⟩
    · by_cases hxx₀ : x = x₀
      · exact ⟨s₀, hxx₀ ▸ hlast.1⟩
      · rw [Function.update_of_ne hxx₀] at hx
        obtain ⟨s, hs, _⟩ := hchanged x hx
        exact ⟨s, hs⟩
    · rcases hW s x (hV s x hx) with hsx | ⟨rfl, rfl⟩
      · obtain ⟨hnot, hne⟩ := hnew s x hsx
        have hfree : ¬ s.formula.hasFree x₀ = true := fun hfree => hnot (Formula.mem_identifiers_of_hasFree hfree)
        obtain ⟨chain, hchain, hall⟩ := hchosen s x ⟨hx, hsx⟩ ((Signed.holds_update M hfree a' d).1 hs) e he
        refine ⟨chain, hchain, fun r hr => (Signed.holds_update M (fun hr' => ?_) a' d).2 (hall r hr)⟩
        rcases Signed.hasFree_of_mem_chain he hchain hr hr' with hs' | heq
        · exact hfree hs'
        · exact hne (Option.some.inj heq)
      · obtain rfl := Option.some.inj (he₀.symm.trans he)
        exact hd
  · refine ⟨a', fun x hx => ?_, fun s x hx hs e he => ?_⟩
    · obtain ⟨s, hs, _⟩ := hchanged x hx
      exact ⟨s, hs⟩
    · rcases hW s x (hV s x hx) with hsx | ⟨rfl, rfl⟩
      · exact hchosen s x ⟨hx, hsx⟩ hs e he
      · exact absurd ⟨hx, hs⟩ hlast

end Choosable

namespace Signed

variable {s : Signed}

/-- Only the rule of a quantified formula looks at the term. -/
theorem expansion_none {x : Option Term} (h : s.kind.isQuantified = false) : s.expansion none = s.expansion x := by
  rcases s with ⟨f, value⟩
  cases f with
  | quantified q y body => cases h
  | atom | not | binary => rfl

theorem expansion_none_of_branching {x : Option Term} {l r : List Signed}
    (h : s.expansion x = some (.branching l r)) : s.expansion none = some (.branching l r) := by
  rcases s with ⟨f, value⟩
  cases f with
  | quantified q y body =>
      obtain ⟨_, _, heq⟩ := Option.map_eq_some_iff.1 h
      cases heq
  | atom | not | binary => exact h

end Signed

namespace Tableau

variable {t t' : Tableau}

/-- The formula has the term for a witness. -/
def Witnessed (t : Tableau) (s : Signed) (x : Term) : Prop :=
  ∃ n ∈ t.tree.labels, n.signed = s ∧ (n.kind.isQuantified = true ∧ n.kind.isReusable = false) ∧ x ∈ n.instances

theorem mem_witnesses_iff_witnessed {x : Term} : x ∈ t.witnesses ↔ ∃ s, t.Witnessed s x := by
  rw [mem_witnesses]
  constructor
  · rintro ⟨n, hn, hkind, hx⟩
    exact ⟨n.signed, n, hn, rfl, hkind, hx⟩
  · rintro ⟨_, n, hn, _, hkind, hx⟩
    exact ⟨n, hn, hkind, hx⟩

theorem freshTerm_not_mem_terms (t : Tableau) : t.freshTerm ∉ t.terms := by
  intro hmem
  exact Term.freshIndexed_not_mem t.options.termStem (t.terms ++ t.names) (List.mem_append_left _ hmem)

/-- A step that may be taken when steps are undone: as for a refutation, and a node may be removed that is the only
child of its parent. -/
def Undoable (t : Tableau) : Step → Prop
  | .remove id => ∀ p ∈ t.parent id, t.children p = [id]
  | step => t.Admits step

end Tableau

/-- The nodes are derived from the premises in the tree, witnesses can be chosen as their formulas say, and no premise
speaks of one. -/
structure Sustained (t : Tableau) : Prop where
  derived : ∃ second, Derived second t
  choosable : Choosable.{u} t.Witnessed
  apart : ∀ n ∈ t.tree.labels, n.origin = none → ∀ x, n.signed.formula.hasFree x = true → x ∉ t.witnesses

/-- What the rule of a true formula gives is true, if this is so of the chosen side and of the chosen witness. -/
theorem Node.Yields.holds {D : Type u} {M : Structure D} {v : Term → D} {a n : Node} (h : a.Yields n)
    (hfold : a.signed.fold = a.signed) (ha : a.signed.Holds M v)
    (hside : ∀ l r, a.signed.expansion none = some (.branching l r) → ∃ s : Signed, n.signed = s.fold ∧ s.Holds M v)
    (hwitness : a.kind.isQuantified = true → a.kind.isReusable = false → ∀ x ∈ a.instances, ∀ e,
      a.signed.expansion (some x) = some e → ∃ chain ∈ e.chains, ∀ r ∈ chain, r.Holds M v) :
    n.signed.Holds M v := by
  obtain ⟨x, e, he, ⟨chain, hchain, s, hs, heq⟩, hx⟩ := h
  cases e with
  | branching l r =>
      obtain ⟨s, hs, hholds⟩ := hside l r (Signed.expansion_none_of_branching he)
      rw [hs]
      exact (Signed.holds_fold M v s).2 hholds
  | linear only =>
      have hall : ∃ chain ∈ (Expansion.linear only).chains, ∀ r ∈ chain, r.Holds M v := by
        cases hquantified : a.kind.isQuantified with
        | false =>
            rw [← Signed.expansion_none hquantified] at he
            exact (Signed.holds_iff_chain M he v).1 ha
        | true =>
            obtain ⟨y, hy, rfl⟩ := hx hquantified
            cases hreusable : a.kind.isReusable with
            | true => exact Signed.exists_chain_of_reusable M hfold hquantified he ha hreusable
            | false => exact hwitness hquantified hreusable y hy _ he
      obtain ⟨chain', hchain', hall⟩ := hall
      rw [List.mem_singleton.1 hchain] at hs
      rw [List.mem_singleton.1 hchain'] at hall
      rw [heq]
      exact (Signed.holds_fold M v s).2 (hall s hs)

namespace Tableau

variable {t : Tableau} {D : Type u} {M : Structure D} {v : Term → D}

open Classical in
/-- For every true formula whose rule has two sides, a true side can be chosen. -/
theorem exists_true_sides (h : t.tree.Numbered) (M : Structure D) (v : Term → D) :
    ∃ right : Nat → Bool, ∀ n ∈ t.tree.labels, n.signed.Holds M v → ∀ l r,
      n.signed.expansion none = some (.branching l r) → ∀ s ∈ (if right n.id then r else l), s.Holds M v := by
  refine ⟨fun m => decide (∃ n ∈ t.tree.labels, n.id = m ∧ ∃ l r,
    n.signed.expansion none = some (.branching l r) ∧ ∀ s ∈ r, s.Holds M v), fun n hn hholds l r he s hs => ?_⟩
  obtain ⟨chain, hchain, htrue⟩ := (Signed.holds_iff_chain M he v).1 hholds
  split at hs
  · rename_i hright
    obtain ⟨m, hm, hid, l', r', he', hright⟩ := of_decide_eq_true hright
    obtain rfl := h.eq_of_id_eq hm hn hid
    cases he.symm.trans he'
    exact hright s hs
  · rename_i hright
    rcases List.mem_pair.1 hchain with rfl | rfl
    · exact htrue s hs
    · exact absurd (decide_eq_true ⟨n, hn, rfl, l, chain, he, htrue⟩) hright

/-- The branch that keeps to true sides is true. -/
theorem holds_of_follows {second right : Nat → Bool} {b : List Node} (hvalid : Valid t) (hderived : Derived second t)
    (hpremises : ∀ n ∈ t.tree.labels, n.origin = none → n.signed.Holds M v)
    (hwitnesses : ∀ s x, t.Witnessed s x → s.Holds M v → ∀ e, s.expansion (some x) = some e →
      ∃ chain ∈ e.chains, ∀ r ∈ chain, r.Holds M v)
    (hright : ∀ n ∈ t.tree.labels, n.signed.Holds M v → ∀ l r, n.signed.expansion none = some (.branching l r) →
      ∀ s ∈ (if right n.id then r else l), s.Holds M v)
    (hb : b ∈ t.tree.branches) (hfollows : Follows second right b) : ∀ n ∈ b, n.signed.Holds M v := by
  have hlive : ∀ n ∈ b, n ∈ t.tree.labels := fun n hn => Tree.mem_labels_of_mem_branch hb hn
  intro n hn
  -- by induction on the number, since a node is younger than what it was developed from
  induction hk : n.id using Nat.strong_induction_on generalizing n with
  | _ k ih =>
      cases horigin : n.origin with
      | none => exact hpremises n (hlive n hn) horigin
      | some m =>
          obtain ⟨pre, up, heq⟩ := List.append_of_mem hn
          have hsplit : pre ++ n :: up ∈ t.tree.branches := heq ▸ hb
          obtain ⟨a, ha, rfl, hyields⟩ := hderived.sourced pre n up hsplit m horigin
          have hab : a ∈ b := heq ▸ List.mem_append_right _ (List.mem_cons_of_mem _ ha)
          have hlt : a.id < n.id :=
            (List.pairwise_cons.1 (List.pairwise_append.1 (hvalid.ordered _ hsplit)).2.1).1 a ha
          have hholds := ih a.id (hk ▸ hlt) a hab rfl
          refine hyields.holds (hvalid.settled a (hlive a hab)).folded hholds (fun l r he => ?_) ?_
          · obtain ⟨s, hs, hsigned⟩ := (hfollows n hn a.id horigin).2 a hab rfl l r he
            exact ⟨s, hsigned, hright a (hlive a hab) hholds l r he s hs⟩
          · intro hquantified hreusable x hx
            exact hwitnesses a.signed x ⟨a, hlive a hab, rfl, ⟨hquantified, hreusable⟩, hx⟩ hholds

end Tableau

namespace Sustained

variable {t t' : Tableau}

/-- Once every branch is closed, some premise in the tree is not true. -/
theorem exists_not_holds (hvalid : Valid t) (h : Sustained.{u} t) (hclosed : t.openBranches = 0) {D : Type u}
    (M : Structure D) (a : Term → D) : ∃ n ∈ t.tree.labels, n.origin = none ∧ ¬ n.signed.Holds M a := by
  by_contra hall
  push Not at hall
  obtain ⟨v, hchanged, hwitnesses⟩ := h.choosable t.Witnessed (fun _ _ hx => hx) D M a
  have hpremises : ∀ n ∈ t.tree.labels, n.origin = none → n.signed.Holds M v := by
    intro n hn horigin
    refine (Signed.holds_congr M fun x hx => ?_).2 (hall n hn horigin)
    by_contra hne
    exact h.apart n hn horigin x hx (Tableau.mem_witnesses_iff_witnessed.2 (hchanged x hne))
  obtain ⟨second, hderived⟩ := h.derived
  obtain ⟨right, hright⟩ := Tableau.exists_true_sides hvalid.numbered M v
  obtain ⟨b, hb, hfollows⟩ := hderived.covered right
  have hholds := Tableau.holds_of_follows hvalid hderived hpremises hwitnesses hright hb hfollows
  obtain ⟨leaf, up, rfl⟩ := Tree.exists_cons_of_mem_branches hb
  obtain ⟨n, hn, m, hm, hcontra⟩ := hvalid.refuted leaf up hb (hvalid.openBranches_eq_zero.1 hclosed leaf up hb)
  exact Signed.not_holds_of_contradicts M hcontra v ⟨hholds n hn, hholds m hm⟩

/-- It is enough that no witness comes up and that the premises, old and new, speak of none. -/
theorem of_witnessed (h : Sustained.{u} t) (hderived : ∃ second, Derived second t')
    (hwitnessed : ∀ s x, t'.Witnessed s x → t.Witnessed s x)
    (hapart : ∀ m ∈ t'.tree.labels, m.origin = none → ∀ x, m.signed.formula.hasFree x = true → x ∉ t.witnesses) :
    Sustained.{u} t' where
  derived := hderived
  choosable := h.choosable.mono hwitnessed
  apart m hm horigin x hx hmem := by
    obtain ⟨s, hs⟩ := Tableau.mem_witnesses_iff_witnessed.1 hmem
    exact hapart m hm horigin x hx (Tableau.mem_witnesses_iff_witnessed.2 ⟨s, hwitnessed s x hs⟩)

/-- Nodes may go, and marks may change. -/
theorem of_nodes (h : Sustained.{u} t) (hderived : ∃ second, Derived second t')
    (hnodes : ∀ m ∈ t'.tree.labels, ∃ n ∈ t.tree.labels,
      m.signed = n.signed ∧ m.origin = n.origin ∧ m.instances = n.instances) : Sustained.{u} t' := by
  refine h.of_witnessed hderived ?_ ?_
  · rintro s x ⟨m, hm, rfl, hkind, hx⟩
    obtain ⟨n, hn, hsigned, _, hinstances⟩ := hnodes m hm
    exact ⟨n, hn, hsigned.symm, by rwa [Node.kind, ← hsigned], hinstances ▸ hx⟩
  · intro m hm horigin x hx
    obtain ⟨n, hn, hsigned, heq, _⟩ := hnodes m hm
    exact h.apart n hn (heq ▸ horigin) x (hsigned ▸ hx)

theorem closesTo (h : Sustained.{u} t) (hcloses : t.ClosesTo t') : Sustained.{u} t' := by
  obtain ⟨second, hderived⟩ := h.derived
  refine h.of_nodes ⟨second, hderived.closesTo hcloses⟩ fun m hm => ?_
  obtain ⟨n, hn, hnm⟩ := hcloses.exists_label hm
  exact ⟨n, hn, hnm.signed, hnm.origin, hnm.instances⟩

theorem start (o : Options) (s : Signed) : Sustained.{u} (.start o s) := by
  have hnone : ∀ r x, ¬ (Tableau.start o s).Witnessed r x := by
    rintro r x ⟨n, hn, _, _, hx⟩
    rw [Tableau.labels_start, List.mem_singleton] at hn
    rw [hn] at hx
    cases hx
  refine ⟨⟨_, Derived.start o s⟩, fun V hV D M a => ⟨a, fun x hx => absurd rfl hx, fun r x hx => ?_⟩, ?_⟩
  · exact absurd (hV r x hx) (hnone r x)
  · intro n _ _ x _ hmem
    obtain ⟨r, hr⟩ := Tableau.mem_witnesses_iff_witnessed.1 hmem
    exact hnone r x hr

theorem assume (hvalid : Valid t) (h : Sustained.{u} t) {s : Signed}
    (hfree : ∀ x, s.formula.hasFree x = true → x ∉ t.witnesses) : Sustained.{u} (t.assume s).2 := by
  rcases Tableau.assume_cases t s with ⟨_, heq⟩ | ⟨leaf, up, hpath, _, heq⟩
  · rw [heq]
    exact h
  · rw [heq]
    have hleaf : leaf :: up ∈ t.tree.branches := hpath ▸ List.mem_cons_self
    obtain ⟨second, hderived⟩ := h.derived
    refine h.of_witnessed ⟨_, hderived.stated hvalid.toIndexed s hleaf⟩ ?_ ?_
    · rintro r x ⟨m, hm, rfl, hkind, hx⟩
      rcases (Tableau.mem_labels_stated hvalid.numbered s hleaf).1 hm with hm | rfl
      · exact ⟨m, hm, rfl, hkind, hx⟩
      · cases hx
    · intro m hm horigin x hx
      rcases (Tableau.mem_labels_stated hvalid.numbered s hleaf).1 hm with hm | rfl
      · exact h.apart m hm horigin x hx
      · exact hfree x (Signed.hasFree_fold s x ▸ hx)

section Applied

variable {n : Node} {e : Expansion} {term : Option Term} (hvalid : Valid t) (h : Sustained.{u} t)
  (hn : n ∈ t.tree.labels) (hterm : n.kind.isQuantified = true → n.kind.isReusable = false → term = none)
  (happlied : Applied n (t.given n term) e (t.openLeavesBelow n.id) t t')
include hvalid hn hterm happlied

/-- The only new witness is the one of the node that is developed. -/
theorem witnessed_applied {s : Signed} {x : Term} (hx : t'.Witnessed s x) :
    t.Witnessed s x ∨
      ((n.kind.isQuantified = true ∧ n.kind.isReusable = false) ∧ s = n.signed ∧ x = t.freshTerm) := by
  obtain ⟨m, hm, rfl, hkind, hx⟩ := hx
  rcases happlied.label_cases hm with ⟨k, hk, rfl⟩ | ⟨_, _, _, _, _, heq⟩
  · have hsigned := (Tableau.sameJudgement_touch n.id (t.given n term) !n.kind.isReusable).signed k
    rw [Node.kind, hsigned] at hkind
    rw [hsigned]
    by_cases hid : k.id = n.id
    · obtain rfl := hvalid.numbered.eq_of_id_eq hk hn hid
      obtain rfl := hterm hkind.1 hkind.2
      have hgiven : t.given k none = some t.freshTerm := by
        rw [Tableau.given, Tableau.termFor, Node.kind, hkind.1, hkind.2, if_pos rfl, if_neg Bool.false_ne_true]
      rw [hgiven, Tableau.touch, if_pos rfl] at hx
      rcases Term.mem_enter.1 hx with hx | rfl
      · exact Or.inl ⟨k, hk, rfl, hkind, hx⟩
      · exact Or.inr ⟨hkind, rfl, rfl⟩
    · rw [Tableau.touch_of_ne hid] at hx
      exact Or.inl ⟨k, hk, rfl, hkind, hx⟩
  · rw [heq] at hx
    cases hx

include h

/-- The new witness occurs in no formula, so it can be chosen after all others. -/
theorem choosable_applied : Choosable.{u} t'.Witnessed := by
  by_cases hkind : n.kind.isQuantified = true ∧ n.kind.isReusable = false
  · have hfresh : ∀ k ∈ t.tree.labels, t.freshTerm ∉ k.signed.formula.identifiers := fun k hk hmem =>
      Tableau.freshTerm_not_mem_names t ((hvalid.settled k hk).named _ hmem)
    refine h.choosable.insert (fun s x hx => (witnessed_applied hvalid hn hterm happlied hx).imp_right And.right)
      (hvalid.settled n hn).folded hkind.1 hkind.2 (hfresh n hn) ?_
    rintro s x ⟨k, hk, rfl, _, hx⟩
    refine ⟨hfresh k hk, ?_⟩
    rintro rfl
    exact Tableau.freshTerm_not_mem_terms t ((hvalid.settled k hk).entered _ hx)
  · refine h.choosable.mono fun s x hx => ?_
    exact (witnessed_applied hvalid hn hterm happlied hx).resolve_right fun hnew => hkind hnew.1

theorem apart_applied {m : Node} (hm : m ∈ t'.tree.labels) (horigin : m.origin = none) {x : Term}
    (hx : m.signed.formula.hasFree x = true) : x ∉ t'.witnesses := by
  intro hmem
  obtain ⟨s, hs⟩ := Tableau.mem_witnesses_iff_witnessed.1 hmem
  rcases happlied.label_cases hm with ⟨k, hk, rfl⟩ | ⟨_, _, _, _, _, heq⟩
  · have hcontinues := Node.continues_touch n.id (t.given n term) (!n.kind.isReusable) k
    rw [hcontinues.origin] at horigin
    rw [hcontinues.signed] at hx
    rcases witnessed_applied hvalid hn hterm happlied hs with hs | ⟨_, _, rfl⟩
    · exact h.apart k hk horigin x hx (Tableau.mem_witnesses_iff_witnessed.2 ⟨s, hs⟩)
    · exact Tableau.freshTerm_not_mem_names t
        ((hvalid.settled k hk).named _ (Formula.mem_identifiers_of_hasFree hx))
  · rw [heq] at horigin
    cases horigin

end Applied

theorem develop (hvalid : Valid t) (h : Sustained.{u} t) {id : Nat} {term : Option Term}
    (hadmits : t.Admits (.develop id term)) : Sustained.{u} (t.develop id term).2 := by
  rcases Tableau.develop_cases hvalid id term with
    ⟨_, _, heq⟩ | ⟨_, _, _, heq⟩ | ⟨n, _, _, hnode, hticked, hclosed, _⟩
  · rw [heq]
    exact h
  · rw [heq]
    exact h
  · obtain ⟨hn, rfl⟩ := Tableau.node_eq_ok hnode
    obtain ⟨e, he, happlied, _⟩ := Tableau.applied_waiting hvalid hn hticked hclosed term
    have hterm : n.kind.isQuantified = true → n.kind.isReusable = false → term = none := by
      intro hquantified hreusable
      cases term with
      | none => rfl
      | some x =>
          rw [hadmits n hnode hquantified] at hreusable
          cases hreusable
    have hgiven : n.kind.isQuantified = true → ∃ y, t.given n term = some y := by
      intro hquantified
      rw [Tableau.given, hquantified, if_pos rfl]
      exact ⟨_, rfl⟩
    rw [Tableau.develop_eq hvalid hnode hticked hclosed he]
    refine closesTo ?_ (Tableau.closesTo_closeBranches _ n.id)
    obtain ⟨second, hderived⟩ := h.derived
    exact ⟨hderived.applied hvalid hn he hgiven, choosable_applied hvalid h hn hterm happlied,
      fun m hm horigin x hx => apart_applied hvalid h hn hterm happlied hm horigin hx⟩

theorem remove (hvalid : Valid t) (h : Sustained.{u} t) {id : Nat}
    (honly : ∀ p ∈ t.parent id, t.children p = [id]) : Sustained.{u} (t.remove id).2 := by
  obtain ⟨second, hderived⟩ := h.derived
  refine h.of_nodes ⟨second, hderived.remove hvalid honly⟩ fun m hm => ?_
  obtain ⟨n, hn, _, _, hfacts⟩ := Tableau.exists_of_mem_remove hm
  exact ⟨n, hn, hfacts⟩

theorem checkClosed (h : Sustained.{u} t) (id : Nat) : Sustained.{u} (t.checkClosed id).2 :=
  h.closesTo (Tableau.closesTo_checkClosed t id)

theorem defer (h : Sustained.{u} t) (id : Nat) : Sustained.{u} (t.defer id).2 := by
  rcases Tableau.defer_cases t id with heq | heq
  · rw [heq]
    exact h
  · rw [heq, Tableau.sendToBack_eq]
    obtain ⟨⟨second, hsourced, hsplit, hcovered⟩, hchoosable, hapart⟩ := h
    exact ⟨⟨second, hsourced, hsplit, hcovered⟩, hchoosable, hapart⟩

theorem search (hvalid : Valid t) (h : Sustained.{u} t) (limits : Limits) : Sustained.{u} (t.search limits).2 := by
  refine (Tableau.search_induction (P := fun t => Valid t ∧ Sustained.{u} t) ?_ ?_ ?_ limits ⟨hvalid, h⟩).2
  · exact fun t id h => ⟨Tableau.valid_checkClosed h.1 id, h.2.checkClosed id⟩
  · exact fun t id h => ⟨Tableau.valid_develop h.1 id none, develop h.1 h.2 trivial⟩
  · exact fun t id h => ⟨Tableau.valid_defer h.1 id, h.2.defer id⟩

theorem perform (hvalid : Valid t) (h : Sustained.{u} t) {step : Step} (hstep : t.Undoable step) :
    Sustained.{u} (t.perform step).2 := by
  cases step with
  | assume s => exact assume hvalid h hstep
  | develop id term => exact develop hvalid h hstep
  | remove id => exact remove hvalid h hstep
  | checkClosed id => exact h.checkClosed id
  | defer id => exact h.defer id
  | search limits => exact search hvalid h limits

theorem run {steps : List Step} (hvalid : Valid t) (h : Sustained.{u} t)
    (hsteps : t.Throughout Tableau.Undoable steps) : Sustained.{u} (t.run steps) := by
  induction steps generalizing t with
  | nil => exact h
  | cons step steps ih => exact ih (Tableau.valid_perform hvalid step) (h.perform hvalid hsteps.1) hsteps.2

end Sustained

/-- When every branch of a tableau is closed, the premises still in its tree cannot be true together, no matter which
steps were undone: provided that a removed node was the only child of its parent and that no premise speaks of a
witness. -/
theorem live_premises_unsatisfiable (o : Options) (s : Signed) (steps : List Step)
    (hsteps : (Tableau.start o s).Throughout Tableau.Undoable steps)
    (hclosed : ((Tableau.start o s).run steps).openBranches = 0) (D : Type u) (M : Structure D) (a : Term → D) :
    ¬ ∀ n ∈ ((Tableau.start o s).run steps).nodes, n.origin = none → n.signed.Holds M a := by
  intro hall
  have hvalid := Tableau.valid_run o s steps
  have hsustained := (Sustained.start.{u} o s).run (Tableau.valid_start o s) hsteps
  obtain ⟨n, hn, horigin, hfalse⟩ := hsustained.exists_not_holds hvalid hclosed M a
  exact hfalse (hall n ((List.mergeSort_perm _ _).mem_iff.2 hn) horigin)

/-- A sentence letter as a formula. -/
def letter (name : String) : Formula :=
  .atom (.proposition name)

/-- One of `A` and `B` is true. -/
def eitherLetter : Signed :=
  ⟨.binary .disjunction (letter "A") (letter "B"), true⟩

/-- Neither `A` nor `B`, a third premise that is developed before the first one, and then its removal. -/
def withdrawal : List Step :=
  [.assume ⟨letter "A", false⟩, .assume ⟨letter "B", false⟩,
    .assume ⟨.binary .conjunction (letter "C") (letter "D"), true⟩, .develop 3 none, .develop 0 none, .remove 3]

/-- The third premise goes with what was developed from it; the others refute the first on both sides. -/
theorem live_premises_unsatisfiable_witness :
    (Tableau.start {} eitherLetter).Throughout Tableau.Undoable withdrawal ∧
    ((Tableau.start {} eitherLetter).run withdrawal).openBranches = 0 ∧
    ∀ (M : Structure Nat) (a : Term → Nat), ¬ ∀ n ∈ ((Tableau.start {} eitherLetter).run withdrawal).nodes,
      n.origin = none → n.signed.Holds M a := by
  have hundoable : (Tableau.start {} eitherLetter).Throughout Tableau.Undoable withdrawal := by
    refine ⟨fun x hx => ?_, fun x hx => ?_, fun x hx => ?_, trivial, trivial, ?_, trivial⟩
    · cases hx
    · cases hx
    · cases hx
    · have honly : ∀ p ∈ ((Tableau.start {} eitherLetter).run (withdrawal.take 5)).parent 3,
          ((Tableau.start {} eitherLetter).run (withdrawal.take 5)).children p = [3] := by decide +kernel
      exact honly
  have hclosed : ((Tableau.start {} eitherLetter).run withdrawal).openBranches = 0 := by decide +kernel
  exact ⟨hundoable, hclosed, live_premises_unsatisfiable {} eitherLetter withdrawal hundoable hclosed Nat⟩

/-- A node with a sibling may not be removed: once the side `B` of `A` or `B` is gone, the side `A` is closed by a
premise, although `B` can be true. -/
theorem closed_after_removal_of_side :
    ((Tableau.start {} eitherLetter).run
      [.develop 0 none, .remove 2, .assume ⟨letter "A", false⟩, .checkClosed 0]).openBranches = 0 ∧
    ∃ (M : Structure Bool) (a : Term → Bool), ∀ n ∈ ((Tableau.start {} eitherLetter).run
      [.develop 0 none, .remove 2, .assume ⟨letter "A", false⟩, .checkClosed 0]).nodes,
      n.origin = none → n.signed.Holds M a := by
  refine ⟨by decide +kernel, ⟨fun p _ => p.name = "B"⟩, fun _ => true, fun n hn horigin => ?_⟩
  have hlabels : ∀ m ∈ ((Tableau.start {} eitherLetter).run
      [.develop 0 none, .remove 2, .assume ⟨letter "A", false⟩, .checkClosed 0]).tree.labels, m.origin = none →
      m.signed = eitherLetter ∨ m.signed = ⟨letter "A", false⟩ := by decide +kernel
  rcases hlabels n ((List.mergeSort_perm _ _).mem_iff.1 hn) horigin with heq | heq
  · rw [heq, eitherLetter, Signed.holds_true]
    simp [letter, Formula.Holds, Connective.Holds, Atom.proposition, Atom.of]
  · rw [heq, Signed.holds_false]
    simp [letter, Formula.Holds, Atom.proposition, Atom.of]

end Tableaux
