import Mathlib
import Tableaux.Proofs.Premises
import Tableaux.Proofs.Semantics

/-!
Soundness. Whoever makes the premises true can choose what the witnesses denote so that all formulas of some branch
become true as well; a closed branch holds a contradiction, so when all branches are closed the premises cannot be
true together. The terms that a development chooses as witnesses are new at that moment. A premise that is stated
later and speaks of a witness is about something that was not chosen for it, and must be kept out.
-/

namespace Tableaux

universe u

namespace Tableau

variable {t t' : Tableau}

/-- The terms chosen for the one instance of a quantified node that is not reusable. -/
def witnesses (t : Tableau) : List Term :=
  (t.tree.labels.filter fun n => n.kind.isQuantified && !n.kind.isReusable).flatMap Node.instances

theorem mem_witnesses {x : Term} : x ∈ t.witnesses ↔
    ∃ n ∈ t.tree.labels, (n.kind.isQuantified = true ∧ n.kind.isReusable = false) ∧ x ∈ n.instances := by
  simp only [witnesses, List.mem_flatMap, List.mem_filter, Bool.and_eq_true, Bool.not_eq_true']
  exact ⟨fun ⟨n, ⟨hn, hkind⟩, hx⟩ => ⟨n, hn, hkind, hx⟩, fun ⟨n, hn, hkind, hx⟩ => ⟨n, ⟨hn, hkind⟩, hx⟩⟩

/-- A step that a refutation may use: no removal, a term is given to reusable nodes only, and no premise speaks of
a witness. -/
def Admits (t : Tableau) : Step → Prop
  | .assume s => ∀ x, s.formula.hasFree x = true → x ∉ t.witnesses
  | .develop id (some _) => ∀ n, t.node id = .ok n → n.kind.isQuantified = true → n.kind.isReusable = true
  | .remove _ => False
  | _ => True

end Tableau

/-- Every model of the premises becomes, with another choice for the witnesses, a model of some branch. -/
def Faithful (premises : List Signed) (t : Tableau) : Prop :=
  ∀ (D : Type u) (M : Structure D) (a : Term → D), (∀ s ∈ premises, s.Holds M a) →
    ∃ a' : Term → D, (∀ x, x ∉ t.witnesses → a' x = a x) ∧
      ∃ b ∈ t.tree.branches, ∀ n ∈ b, n.signed.Holds M a'

namespace Faithful

variable {premises : List Signed} {t t' : Tableau}

/-- It is enough that witnesses stay witnesses and that the formulas of every branch are those of some branch later. -/
theorem mono (h : Faithful.{u} premises t) (hwitnesses : ∀ x ∈ t.witnesses, x ∈ t'.witnesses)
    (hbranches : ∀ b ∈ t.tree.branches, ∃ b' ∈ t'.tree.branches, ∀ m ∈ b', ∃ n ∈ b, m.signed = n.signed) :
    Faithful.{u} premises t' := by
  intro D M a hpremises
  obtain ⟨a', hsame, b, hb, hholds⟩ := h D M a hpremises
  obtain ⟨b', hb', hsigned⟩ := hbranches b hb
  refine ⟨a', fun x hx => hsame x fun hmem => hx (hwitnesses x hmem), b', hb', ?_⟩
  intro m hm
  obtain ⟨n, hn, heq⟩ := hsigned m hm
  rw [heq]
  exact hholds n hn

theorem closesTo (h : Faithful.{u} premises t) (hcloses : t.ClosesTo t') : Faithful.{u} premises t' := by
  refine h.mono ?_ ?_
  · intro x hx
    obtain ⟨n, hn, hkind, hx⟩ := Tableau.mem_witnesses.1 hx
    obtain ⟨m, hm, hnm⟩ := hcloses.exists_marked hn
    rw [Node.kind, ← hnm.signed] at hkind
    rw [← hnm.instances] at hx
    exact Tableau.mem_witnesses.2 ⟨m, hm, hkind, hx⟩
  · intro b hb
    obtain ⟨b', hb', hmarked⟩ := hcloses.exists_marked_branch hb
    refine ⟨b', hb', fun m hm => ?_⟩
    obtain ⟨n, hn, hnm⟩ := exists_of_forall₂_right hmarked hm
    exact ⟨n, hn, hnm.signed⟩

theorem sendToBack (h : Faithful.{u} premises t) (id : Nat) : Faithful.{u} premises (t.sendToBack id) := by
  rw [Tableau.sendToBack_eq]
  exact h

theorem start (o : Options) (s : Signed) : Faithful.{u} [s] (.start o s) := by
  intro D M a hpremises
  refine ⟨a, fun x _ => rfl, [.ofSigned 0 s none], List.mem_cons_self, fun n hn => ?_⟩
  rw [List.mem_singleton.1 hn]
  exact (Signed.holds_fold M a s).2 (hpremises s List.mem_cons_self)

/-- A premise that speaks of no witness holds no matter how these were chosen. -/
theorem stated (hvalid : Valid t) (h : Faithful.{u} premises t) {s : Signed} {leaf : Node} {up : List Node}
    (hpath : t.tree.branches = [leaf :: up]) (hfree : ∀ x, s.formula.hasFree x = true → x ∉ t.witnesses) :
    Faithful.{u} (premises ++ [s]) (t.stated s leaf.id) := by
  have hleaf : leaf :: up ∈ t.tree.branches := by
    rw [hpath]
    exact List.mem_cons_self
  intro D M a hpremises
  obtain ⟨a', hsame, b, hb, hholds⟩ := h D M a fun r hr => hpremises r (List.mem_append_left _ hr)
  rw [hpath, List.mem_singleton] at hb
  subst hb
  have hs : s.Holds M a' := by
    rw [Signed.holds_congr M fun x hx => hsame x (hfree x hx)]
    exact hpremises s (List.mem_append_right _ List.mem_cons_self)
  refine ⟨a', fun x hx => hsame x fun hmem => hx ?_, .ofSigned t.slots s none :: leaf :: up,
    (Tableau.mem_branches_stated hvalid.numbered s hleaf).2 (Or.inr rfl), ?_⟩
  · obtain ⟨n, hn, hkind, hx⟩ := Tableau.mem_witnesses.1 hmem
    exact Tableau.mem_witnesses.2 ⟨n, (Tableau.mem_labels_stated hvalid.numbered s hleaf).2 (Or.inl hn), hkind, hx⟩
  · intro n hn
    rcases List.mem_cons.1 hn with rfl | hn
    · exact (Signed.holds_fold M a' s).2 hs
    · exact hholds n hn

end Faithful

namespace Tableau

variable {t : Tableau} {n : Node} {e : Expansion} {term : Option Term}

theorem freshTerm_not_mem_names (t : Tableau) : t.freshTerm ∉ t.names := by
  intro hmem
  exact Term.freshIndexed_not_mem t.options.termStem (t.terms ++ t.names) (List.mem_append_right _ hmem)

/-- What makes a node true makes a chain of its rule true, if a witness is chosen suitably. -/
theorem exists_chain_holds {D : Type u} (M : Structure D) {a : Term → D} (hvalid : Valid t)
    (hn : n ∈ t.tree.labels) (hexpansion : n.signed.expansion (t.given n term) = some e)
    (hterm : n.kind.isQuantified = true → n.kind.isReusable = false → term = none) (hholds : n.signed.Holds M a) :
    ∃ a' : Term → D, (∀ y, a' y ≠ a y → y ∉ t.names ∧ n.kind.isQuantified = true ∧ n.kind.isReusable = false ∧
      t.given n term = some y) ∧ ∃ chain ∈ e.chains, ∀ r ∈ chain, r.Holds M a' := by
  cases hquantified : n.kind.isQuantified with
  | false =>
      rw [given, hquantified, if_neg Bool.false_ne_true] at hexpansion
      exact ⟨a, fun y hy => absurd rfl hy, (Signed.holds_iff_chain M hexpansion a).1 hholds⟩
  | true =>
      have hgiven : t.given n term = some (t.termFor n term) := by rw [given, hquantified, if_pos rfl]
      rw [hgiven] at hexpansion ⊢
      have hsettled := hvalid.settled n hn
      cases hreusable : n.kind.isReusable with
      | true =>
          exact ⟨a, fun y hy => absurd rfl hy,
            Signed.exists_chain_of_reusable M hsettled.folded hquantified hexpansion hholds hreusable⟩
      | false =>
          obtain rfl := hterm hquantified hreusable
          have hterm : t.termFor n none = t.freshTerm := by rw [termFor, hreusable, if_neg Bool.false_ne_true]
          rw [hterm] at hexpansion ⊢
          obtain ⟨d, hchain⟩ := Signed.exists_witness M hsettled.folded hquantified hexpansion hholds hreusable
            fun hmem => freshTerm_not_mem_names t (hsettled.named _ hmem)
          refine ⟨Function.update a t.freshTerm d, fun y hy => ?_, hchain⟩
          have heq : y = t.freshTerm := by
            by_contra hne
            exact hy (Function.update_of_ne hne d a)
          rw [heq]
          exact ⟨freshTerm_not_mem_names t, rfl, rfl, rfl⟩

end Tableau

/-- Witnesses stay witnesses when a rule is applied. -/
theorem Applied.mem_witnesses {n : Node} {x : Option Term} {e : Expansion} {leaves : List Nat} {t t' : Tableau}
    (h : Applied n x e leaves t t') {y : Term} (hy : y ∈ t.witnesses) : y ∈ t'.witnesses := by
  obtain ⟨k, hk, hkind, hy⟩ := Tableau.mem_witnesses.1 hy
  have hsigned := (Tableau.sameJudgement_touch n.id x !n.kind.isReusable).signed k
  refine Tableau.mem_witnesses.2 ⟨_, h.mem_labels hk, by rwa [Node.kind, hsigned], ?_⟩
  rw [Tableau.touch]
  split
  · cases x with
    | none => exact hy
    | some z => exact Term.mem_enter.2 (Or.inl hy)
  · exact hy

theorem Tableau.holds_of_agree_on_names {t : Tableau} (hvalid : Valid t) {D : Type u} (M : Structure D)
    {a a' : Term → D} (hsame : ∀ y ∈ t.names, a' y = a y) {n : Node} (hn : n ∈ t.tree.labels)
    (hholds : n.signed.Holds M a) : n.signed.Holds M a' := by
  refine (Signed.holds_congr M fun y hy => ?_).2 hholds
  exact hsame y ((hvalid.settled n hn).named y (Formula.mem_identifiers_of_hasFree hy))

namespace Faithful

variable {premises : List Signed} {t t' : Tableau} {n : Node} {e : Expansion} {term : Option Term}

theorem applied (hvalid : Valid t) (h : Faithful.{u} premises t) (hn : n ∈ t.tree.labels)
    (hexpansion : n.signed.expansion (t.given n term) = some e)
    (hterm : n.kind.isQuantified = true → n.kind.isReusable = false → term = none)
    (happlied : Applied n (t.given n term) e (t.openLeavesBelow n.id) t t') :
    Faithful.{u} premises t' := by
  have htouch := Tableau.sameJudgement_touch n.id (t.given n term) !n.kind.isReusable
  intro D M a hpremises
  obtain ⟨a', hsame, b, hb, hholds⟩ := h D M a hpremises
  by_cases hends : EndsIn (t.openLeavesBelow n.id) b
  · -- the branch goes through the node, so its rule applies
    have hnb := (Tableau.mem_of_endsIn_openLeavesBelow hvalid.toCoherent hn hb hends).1
    obtain ⟨a'', hchanged, chain, hchain, hall⟩ :=
      Tableau.exists_chain_holds M hvalid hn hexpansion hterm (hholds n hnb)
    obtain ⟨id, hle, hmem⟩ := happlied.prolonged _ hb hends chain hchain
    refine ⟨a'', ?_, _, hmem, ?_⟩
    · intro x hx
      by_contra hne
      have hx' : x ∉ t.witnesses := fun hmem => hx (happlied.mem_witnesses hmem)
      obtain ⟨_, hquantified, hreusable, hgiven⟩ := hchanged x fun heq => hne (heq.trans (hsame x hx'))
      refine hx (Tableau.mem_witnesses.2 ⟨_, happlied.mem_labels hn, ?_, ?_⟩)
      · rw [Node.kind, htouch.signed]
        exact ⟨hquantified, hreusable⟩
      · rw [Tableau.touch, if_pos rfl, hgiven]
        exact Term.mem_enter.2 (Or.inr rfl)
    · have hnames : ∀ y ∈ t.names, a'' y = a' y := by
        intro y hy
        by_contra hne
        exact (hchanged y hne).1 hy
      intro k hk
      rcases List.mem_append.1 hk with hk | hk
      · obtain ⟨r, hr, heq⟩ := Node.exists_of_mem_ofChain (List.mem_reverse.1 hk)
        rw [heq]
        exact (Signed.holds_fold M a'' r).2 (hall r hr)
      · obtain ⟨j, hj, rfl⟩ := List.mem_map.1 hk
        rw [htouch.signed]
        exact Tableau.holds_of_agree_on_names hvalid M hnames (Tree.mem_labels_of_mem_branch hb hj) (hholds j hj)
  · refine ⟨a', fun x hx => hsame x fun hmem => hx (happlied.mem_witnesses hmem), _, happlied.kept b hb hends, ?_⟩
    intro k hk
    obtain ⟨j, hj, rfl⟩ := List.mem_map.1 hk
    rw [htouch.signed]
    exact hholds j hj

/-- A step that a refutation may use keeps the models of the premises, those that it adds included. -/
theorem lasting : Lasting Tableau.Admits Faithful.{u} where
  remove := fun h => h
  unprompted := trivial
  closesTo := closesTo
  sendToBack id h := h.sendToBack id
  stated hvalid h hpath hfree := h.stated hvalid hpath hfree
  applied := by
    intro premises t t' n e term hvalid h hn hadmits hexpansion happlied
    refine h.applied hvalid hn hexpansion (fun hquantified hreusable => ?_) happlied
    cases term with
    | none => rfl
    | some x =>
        rw [hadmits n (Tableau.node_of_mem hvalid.numbered hn) hquantified] at hreusable
        cases hreusable

/-- Once every branch is closed the premises cannot be true together. -/
theorem exists_not_holds (hvalid : Valid t) (h : Faithful.{u} premises t) (hclosed : t.openBranches = 0)
    {D : Type u} (M : Structure D) (a : Term → D) : ∃ s ∈ premises, ¬ s.Holds M a := by
  by_contra hall
  push Not at hall
  obtain ⟨a', _, b, hb, hholds⟩ := h D M a hall
  obtain ⟨leaf, up, rfl⟩ := Tree.exists_cons_of_mem_branches hb
  obtain ⟨n, hn, m, hm, hcontra⟩ := hvalid.refuted leaf up hb (hvalid.openBranches_eq_zero.1 hclosed leaf up hb)
  exact Signed.not_holds_of_contradicts M hcontra a' ⟨hholds n hn, hholds m hm⟩

end Faithful

namespace Problem

open Tableau

/-- While only premises are stated there are no witnesses. -/
theorem throughout_admits_steps (o : Options) (first : Signed) (rest : List Signed) :
    (start o first).Throughout Admits (steps rest) := by
  have hstraight : ∀ t : Tableau, Valid t → Straight t → t.Throughout Admits (rest.map .assume) := by
    induction rest with
    | nil => exact fun _ _ _ => trivial
    | cons s rest ih =>
        intro t hvalid hstraight
        refine ⟨fun x _ hx => ?_, ih _ (valid_assume hvalid s) (assume_straight hvalid hstraight s).2⟩
        obtain ⟨n, hn, _, hx⟩ := mem_witnesses.1 hx
        rw [(hstraight.untouched n hn).2] at hx
        cases hx
  rw [steps, throughout_append]
  exact ⟨hstraight _ (valid_start o first) (straight_start o first), trivial, trivial⟩

end Problem

/-- The premises of a run that closes every branch cannot be true together. -/
theorem not_forall_premises_hold {o : Options} {s : Signed} {steps : List Step}
    (hsteps : (Tableau.start o s).Throughout Tableau.Admits steps)
    (hclosed : ((Tableau.start o s).run steps).openBranches = 0) {D : Type u} (M : Structure D) (a : Term → D) :
    ¬ ∀ r ∈ s :: (Tableau.start o s).premises steps, r.Holds M a := by
  intro hall
  have hfaithful := Faithful.lasting.run (Tableau.valid_start o s) (Faithful.start.{u} o s) hsteps
  obtain ⟨r, hr, hfalse⟩ := hfaithful.exists_not_holds (Tableau.valid_run o s steps) hclosed M a
  exact hfalse (hall r hr)

/-- When every branch of a tableau is closed, its premises cannot be true together, provided that the run used only
steps that a refutation may use. So an argument whose tableau a search closes is valid. -/
theorem refutation_sound (o : Options) :
    (∀ (s : Signed) (steps : List Step), (Tableau.start o s).Throughout Tableau.Admits steps →
      ((Tableau.start o s).run steps).openBranches = 0 → ∀ (D : Type u) (M : Structure D) (a : Term → D),
      ¬ ∀ r ∈ s :: (Tableau.start o s).premises steps, r.Holds M a) ∧
    ∀ (premises : List Formula) (conclusion : Formula) (limits : Limits) (t t' : Tableau) (n k : Nat),
      (Problem.argument premises conclusion).toTableau o = .ok t → t.search limits = (.ok (.closed n k), t') →
      ∀ (D : Type u) (M : Structure D) (a : Term → D), (∀ p ∈ premises, p.Holds M a) → conclusion.Holds M a := by
  refine ⟨fun s steps hsteps hclosed D M a => not_forall_premises_hold hsteps hclosed M a, ?_⟩
  intro premises conclusion limits t t' n k ht hsearch D M a hpremises
  have hvalid := Problem.validate_of_toTableau ht
  obtain ⟨first, rest, hformulas⟩ := List.exists_cons_of_ne_nil (Problem.signedFormulas_ne_nil hvalid)
  obtain rfl := Except.ok.inj ((Problem.toTableau_eq hvalid hformulas o).symm.trans ht)
  have hadmits : (Tableau.start o first).Throughout Tableau.Admits (Problem.steps rest ++ [.search limits]) := by
    rw [Tableau.throughout_append]
    exact ⟨Problem.throughout_admits_steps o first rest, trivial, trivial⟩
  have hclosed : ((Tableau.start o first).run (Problem.steps rest ++ [.search limits])).openBranches = 0 := by
    rw [Tableau.run_append]
    change (((Tableau.start o first).run (Problem.steps rest)).search limits).2.openBranches = 0
    rw [hsearch]
    exact Tableau.accords_search hsearch
  by_contra hconclusion
  refine not_forall_premises_hold hadmits hclosed M a ?_
  rw [Tableau.premises_append, Problem.premises_steps]
  intro r hr
  have hmem : r ∈ (Problem.argument premises conclusion).signedFormulas := by
    rw [hformulas]
    simpa [Tableau.premises, Tableau.added] using hr
  rcases List.mem_append.1 hmem with hr | hr
  · obtain ⟨p, hp, rfl⟩ := List.mem_map.1 hr
    exact (Signed.holds_true M a p).2 (hpremises p hp)
  · rw [List.mem_singleton.1 hr]
    exact (Signed.holds_false M a conclusion).2 hconclusion

/-- The formula that says `P` of a term. -/
def saysP (x : String) : Formula :=
  .atom (.of "P" [⟨x⟩])

/-- Something is `P`. -/
def somethingP : Signed :=
  ⟨.quantified .existential ⟨"x"⟩ (saysP "x"), true⟩

/-- Nothing is `P`. -/
def nothingP : Signed :=
  ⟨.quantified .universal ⟨"x"⟩ (.not (saysP "x")), true⟩

/-- Something is `P`, and nothing is: the witness of the first premise refutes the second. And what everything is,
something is. -/
theorem refutation_sound_witness :
    (((Tableau.start {} somethingP).run
        [.develop 0 none, .assume nothingP, .develop 2 (some ⟨"t0"⟩)]).openBranches = 0 ∧
      ∀ (M : Structure Nat) (a : Term → Nat), ¬ ∀ r ∈ [somethingP, nothingP], r.Holds M a) ∧
    ∀ (M : Structure Nat) (a : Term → Nat), (Formula.quantified .universal ⟨"x"⟩ (saysP "x")).Holds M a →
      (Formula.quantified .existential ⟨"y"⟩ (saysP "y")).Holds M a := by
  have hclosed : ((Tableau.start {} somethingP).run
      [.develop 0 none, .assume nothingP, .develop 2 (some ⟨"t0"⟩)]).openBranches = 0 := by decide +kernel
  have hpremises : (Tableau.start {} somethingP).premises
      [.develop 0 none, .assume nothingP, .develop 2 (some ⟨"t0"⟩)] = [nothingP] := by decide +kernel
  have hadmits : (Tableau.start {} somethingP).Throughout Tableau.Admits
      [.develop 0 none, .assume nothingP, .develop 2 (some ⟨"t0"⟩)] := by
    refine ⟨trivial, ?_, ?_, trivial⟩
    · intro x hx
      simp only [nothingP, saysP, Formula.hasFree, Atom.mentions, Atom.of, List.contains_cons, List.contains_nil,
        Bool.or_false, Bool.and_eq_true, decide_eq_true_eq, beq_iff_eq] at hx
      exact absurd hx.2.symm hx.1
    · intro n hnode _
      have hkind : ((((Tableau.start {} somethingP).run [.develop 0 none, .assume nothingP]).node 2).map
          fun n => n.kind.isReusable) = .ok true := by decide +kernel
      change ((Tableau.start {} somethingP).run [.develop 0 none, .assume nothingP]).node 2 = .ok n at hnode
      rw [hnode] at hkind
      exact Except.ok.inj hkind
  refine ⟨⟨hclosed, ?_⟩, ?_⟩
  · have hsound := (refutation_sound {}).1 somethingP _ hadmits hclosed Nat
    rwa [hpremises] at hsound
  · intro M a hall
    have htableau : (Problem.argument [.quantified .universal ⟨"x"⟩ (saysP "x")]
        (.quantified .existential ⟨"y"⟩ (saysP "y"))).toTableau {} =
        .ok ((Tableau.start {} ⟨.quantified .universal ⟨"x"⟩ (saysP "x"), true⟩).run
          (Problem.steps [⟨.quantified .existential ⟨"y"⟩ (saysP "y"), false⟩])) := by decide +kernel
    have hverdict : (((Tableau.start {} ⟨.quantified .universal ⟨"x"⟩ (saysP "x"), true⟩).run
        (Problem.steps [⟨.quantified .existential ⟨"y"⟩ (saysP "y"), false⟩])).search {}).1 =
        .ok (.closed 2 4) := by decide +kernel
    refine (refutation_sound {}).2 _ _ {} _ _ 2 4 htableau (Prod.ext hverdict rfl) Nat M a ?_
    intro p hp
    rw [List.mem_singleton.1 hp]
    exact hall

/-- A premise may not speak of a witness: here the term `t0` is chosen for something that is `P`, and a premise that
says of `t0` that it is not closes the branch, although both premises can be true. -/
theorem closed_by_premise_about_witness :
    ((Tableau.start {} somethingP).run
      [.develop 0 none, .assume ⟨saysP "t0", false⟩, .search {}]).openBranches = 0 ∧
    ∃ (M : Structure Bool) (a : Term → Bool), ∀ r ∈ somethingP :: (Tableau.start {} somethingP).premises
      [.develop 0 none, .assume ⟨saysP "t0", false⟩, .search {}], r.Holds M a := by
  refine ⟨by decide +kernel, ⟨fun _ args => args = [true]⟩, fun _ => false, ?_⟩
  have hpremises : (Tableau.start {} somethingP).premises
      [.develop 0 none, .assume ⟨saysP "t0", false⟩, .search {}] = [⟨saysP "t0", false⟩] := by decide +kernel
  rw [hpremises]
  intro r hr
  rcases List.mem_pair.1 hr with rfl | rfl
  · rw [somethingP, Signed.holds_true]
    exact ⟨true, by simp [saysP, Formula.Holds, Atom.of]⟩
  · rw [Signed.holds_false]
    simp [saysP, Formula.Holds, Atom.of]

end Tableaux
