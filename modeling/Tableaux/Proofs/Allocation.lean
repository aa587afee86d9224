import Mathlib
import Tableaux.Proofs.Persistence
import Tableaux.Proofs.Placement
import Tableaux.Proofs.Soundness

/-!
Which term an instance is made with. A tableau keeps every number given out and every name of a node ever made, so a
term is new to all nodes of a session, those removed among them, if it is new to the tableau. A reusable node gets
the oldest term it has not had, as long as there is one; otherwise the first unused of the numbered terms is made up,
and it is found after no more trials than there are names.
-/

namespace Tableaux

/-- The node has been made in the course of the session: it was in the tree after some of the steps. -/
def Made (t : Tableau) (steps : List Step) (n : Node) : Prop :=
  ∃ before, before <+: steps ∧ n ∈ (t.run before).tree.labels

/-- What a step adds to the record of numbers and names is in the tree after it. -/
structure Registers (t t' : Tableau) : Prop where
  options : t'.options = t.options
  names : ∀ x, x ∈ t'.names ↔ x ∈ t.names ∨ ∃ n ∈ t'.tree.labels, x ∈ n.signed.formula.identifiers
  slots : ∀ i, i < t'.slots ↔ i < t.slots ∨ ∃ n ∈ t'.tree.labels, n.id = i

namespace Registers

variable {t t' t'' : Tableau}

/-- Of a tableau in order only what is new has to be shown to be in the tree. -/
theorem of_valid (h : Valid t') (hoptions : t'.options = t.options) (hmono : ∀ x ∈ t.names, x ∈ t'.names)
    (hle : t.slots ≤ t'.slots)
    (hnames : ∀ x ∈ t'.names, x ∈ t.names ∨ ∃ n ∈ t'.tree.labels, x ∈ n.signed.formula.identifiers)
    (hslots : ∀ i < t'.slots, i < t.slots ∨ ∃ n ∈ t'.tree.labels, n.id = i) : Registers t t' where
  options := hoptions
  names x := by
    refine ⟨hnames x, ?_⟩
    rintro (hx | ⟨n, hn, hx⟩)
    · exact hmono x hx
    · exact (h.settled n hn).named x hx
  slots i := by
    refine ⟨hslots i, ?_⟩
    rintro (hi | ⟨n, hn, rfl⟩)
    · exact hi.trans_le hle
    · exact h.id_lt n hn

/-- A step that makes no node. -/
theorem of_same (h : Valid t') (hoptions : t'.options = t.options) (hnames : t'.names = t.names)
    (hslots : t'.slots = t.slots) : Registers t t' := by
  refine of_valid h hoptions (fun x hx => ?_) hslots.ge (fun x hx => Or.inl ?_) fun i hi => Or.inl ?_
  · rwa [hnames]
  · rwa [hnames] at hx
  · rwa [hslots] at hi

theorem refl (h : Valid t) : Registers t t :=
  of_same h rfl rfl rfl

theorem of_closesTo (h : Valid t') (hcloses : t.ClosesTo t') : Registers t t' :=
  of_same h hcloses.options hcloses.names hcloses.slots

/-- Without a removal in between, what was made first is still there. -/
theorem trans (h : Registers t t') (h' : Registers t' t'') (hextends : t'.Extends t'') : Registers t t'' where
  options := h'.options.trans h.options
  names x := by
    rw [h'.names, h.names, or_assoc]
    refine or_congr_right (or_iff_right_of_imp ?_)
    rintro ⟨n, hn, hx⟩
    obtain ⟨m, hm, hlasts⟩ := hextends.exists_lasting hn
    exact ⟨m, hm, hlasts.signed ▸ hx⟩
  slots i := by
    rw [h'.slots, h.slots, or_assoc]
    refine or_congr_right (or_iff_right_of_imp ?_)
    rintro ⟨n, hn, rfl⟩
    obtain ⟨m, hm, hlasts⟩ := hextends.exists_lasting hn
    exact ⟨m, hm, hlasts.id⟩

end Registers

namespace Tableau

variable {t : Tableau}

theorem names_grow (origin : Nat) {e : Expansion} {leaves : List Nat} (h : Indexed t)
    (hne : ∀ chain ∈ e.chains, chain ≠ []) (hnodup : leaves.Nodup) (hopen : OpenLeaves t leaves) :
    (∀ x ∈ t.names, x ∈ (t.grow origin e leaves).names) ∧ ∀ x ∈ (t.grow origin e leaves).names, x ∈ t.names ∨
      ∃ n ∈ (t.grow origin e leaves).tree.labels, x ∈ n.signed.formula.identifiers := by
  refine (foldl_extend_induction (P := fun u => (∀ x ∈ t.names, x ∈ u.names) ∧ ∀ x ∈ u.names, x ∈ t.names ∨
    ∃ n ∈ u.tree.labels, x ∈ n.signed.formula.identifiers) hne ?_ h hnodup hopen
      ⟨fun x hx => hx, fun x hx => Or.inl hx⟩).2
  rintro u leaf up hu hleaf _ ⟨hmono, hnew⟩
  refine ⟨fun x hx => mem_enterNames.2 (Or.inl (hmono x hx)), fun x hx => ?_⟩
  rcases mem_enterNames.1 hx with hx | ⟨n, hn, hx⟩
  · refine (hnew x hx).imp_right ?_
    rintro ⟨n, hn, hx⟩
    exact ⟨n, (mem_labels_attach hu.numbered hleaf).2 (Or.inl hn), hx⟩
  · exact Or.inr ⟨n, (mem_labels_attach hu.numbered hleaf).2 (Or.inr hn), hx⟩

theorem registers_applied {n : Node} {x : Option Term} {e : Expansion} (h : Valid t)
    (hne : ∀ chain ∈ e.chains, chain ≠ []) (id : Nat) (hvalid : Valid (t.applied n x e (t.openLeavesBelow id))) :
    Registers t (t.applied n x e (t.openLeavesBelow id)) := by
  have hplanted := planted_applied (n := n) (x := x) h hne id
  have hgrown := names_grow n.id (indexed_enterTerm h.toIndexed n.id x) hne (nodup_openLeavesBelow h.numbered id)
    (openLeaves_enterTerm (openLeaves_openLeavesBelow h.toCoherent id) n.id x)
  have henter : (t.enterTerm n.id x).names = t.names := by cases x <;> rfl
  have hnames : (t.applied n x e (t.openLeavesBelow id)).names =
      ((t.enterTerm n.id x).grow n.id e (t.openLeavesBelow id)).names := by
    rw [applied]
    split <;> rfl
  rw [henter, ← hnames] at hgrown
  refine .of_valid hvalid (applied_frame t n x e _).1 hgrown.1 (by rw [hplanted.slots]; omega) ?_ ?_
  · intro y hy
    refine (hgrown.2 y hy).imp_right ?_
    rintro ⟨m, hm, hym⟩
    refine ⟨touch n.id none (!n.kind.isReusable) m, ?_, ?_⟩
    · rw [tree_applied, Tree.labels_map]
      exact List.mem_map_of_mem hm
    · rwa [(sameJudgement_touch n.id none _).signed]
  · intro i hi
    by_cases hlt : i < t.slots
    · exact Or.inl hlt
    · exact Or.inr ((isLive_iff hvalid.numbered).1 ((hplanted.live i).2 (Or.inr ⟨by omega, hi⟩)))

theorem registers_develop (h : Valid t) (id : Nat) (term : Option Term) : Registers t (t.develop id term).2 := by
  rcases develop_cases h id term with ⟨_, _, heq⟩ | ⟨_, _, _, heq⟩ | ⟨n, _, _, hnode, hticked, hclosed, _⟩
  · rw [heq]
    exact .refl h
  · rw [heq]
    exact .refl h
  · obtain ⟨hn, rfl⟩ := node_eq_ok hnode
    obtain ⟨e, he, _, hvalid⟩ := applied_waiting h hn hticked hclosed term
    have hcloses := closesTo_closeBranches (t.applied n (t.given n term) e (t.openLeavesBelow n.id)) n.id
    rw [develop_eq h hnode hticked hclosed he]
    exact (registers_applied h (Signed.chain_ne_nil he) n.id hvalid).trans
      (.of_closesTo (valid_closeBranches hvalid n.id) hcloses) (.closesTo hvalid.toIndexed hcloses)

theorem registers_assume (h : Valid t) (s : Signed) : Registers t (t.assume s).2 := by
  rcases assume_cases t s with ⟨_, heq⟩ | ⟨leaf, up, hbranches, hopen, heq⟩
  · rw [heq]
    exact .refl h
  · have hleaf : leaf :: up ∈ t.tree.branches := by
      rw [hbranches]
      exact List.mem_cons_self
    have hnew := (mem_labels_stated h.numbered s hleaf (n := .ofSigned t.slots s none)).2 (Or.inr rfl)
    rw [heq]
    refine .of_valid (valid_stated h s hleaf hopen) rfl (fun x hx => mem_enterNames.2 (Or.inl hx))
      (Nat.le_add_right _ _) (fun x hx => ?_) fun i hi => ?_
    · refine (mem_enterNames.1 hx).imp_right ?_
      rintro ⟨n, hn, hx⟩
      rw [List.mem_singleton.1 hn] at hx
      exact ⟨_, hnew, hx⟩
    · rcases Nat.lt_succ_iff_lt_or_eq.1 hi with hi | rfl
      · exact Or.inl hi
      · exact Or.inr ⟨_, hnew, rfl⟩

theorem registers_remove (h : Valid t) (id : Nat) : Registers t (t.remove id).2 := by
  have hvalid := valid_remove h id
  rcases remove_cases t id with ⟨_, _, heq⟩ | ⟨_, heq⟩ | ⟨_, _, _, heq⟩
  · rw [heq]
    exact .refl h
  · rw [heq]
    exact .refl h
  · rw [heq] at hvalid ⊢
    have hcloses := closesTo_closeBranches (t.excised id).cleared t.tree.root.id
    exact .of_same hvalid hcloses.options hcloses.names hcloses.slots

theorem registers_checkClosed (h : Valid t) (id : Nat) : Registers t (t.checkClosed id).2 :=
  .of_closesTo (valid_checkClosed h id) (closesTo_checkClosed t id)

theorem registers_defer (h : Valid t) (id : Nat) : Registers t (t.defer id).2 := by
  have hvalid := valid_defer h id
  rcases defer_cases t id with heq | heq
  · rw [heq]
    exact .refl h
  · rw [heq, sendToBack_eq] at hvalid ⊢
    exact .of_same hvalid rfl rfl rfl

theorem registers_search (h : Valid t) (limits : Limits) : Registers t (t.search limits).2 := by
  refine (search_induction (P := fun u => Valid u ∧ Registers t u) ?_ ?_ ?_ limits ⟨h, .refl h⟩).2
  · rintro u id ⟨hu, hregisters⟩
    exact ⟨valid_checkClosed hu id, hregisters.trans (registers_checkClosed hu id) (extends_checkClosed hu id)⟩
  · rintro u id ⟨hu, hregisters⟩
    exact ⟨valid_develop hu id none, hregisters.trans (registers_develop hu id none) (extends_develop hu id none)⟩
  · rintro u id ⟨hu, hregisters⟩
    exact ⟨valid_defer hu id, hregisters.trans (registers_defer hu id) (extends_defer hu id)⟩

theorem registers_perform (h : Valid t) (step : Step) : Registers t (t.perform step).2 := by
  cases step with
  | assume s => exact registers_assume h s
  | develop id term => exact registers_develop h id term
  | remove id => exact registers_remove h id
  | checkClosed id => exact registers_checkClosed h id
  | defer id => exact registers_defer h id
  | search limits => exact registers_search h limits

/-! Whole sessions. -/

theorem made_nil {n : Node} : Made t [] n ↔ n ∈ t.tree.labels := by
  constructor
  · rintro ⟨before, hbefore, hn⟩
    rw [List.prefix_nil.1 hbefore] at hn
    exact hn
  · exact fun hn => ⟨[], List.prefix_refl _, hn⟩

theorem made_concat {steps : List Step} {step : Step} {n : Node} :
    Made t (steps ++ [step]) n ↔ Made t steps n ∨ n ∈ ((t.run steps).perform step).2.tree.labels := by
  have hrun : t.run (steps ++ [step]) = ((t.run steps).perform step).2 := run_append t steps [step]
  constructor
  · rintro ⟨before, hbefore, hn⟩
    rcases List.prefix_concat_iff.1 hbefore with rfl | hbefore
    · rw [hrun] at hn
      exact Or.inr hn
    · exact Or.inl ⟨before, hbefore, hn⟩
  · rintro (⟨before, hbefore, hn⟩ | hn)
    · exact ⟨before, hbefore.trans (List.prefix_append _ _), hn⟩
    · exact ⟨_, List.prefix_refl _, hrun ▸ hn⟩

/-- The record of a session is exact: the names of the tableau are the names in nodes that have been made, and the
numbers given out are the numbers of nodes that have been made. -/
theorem registered_run (o : Options) (s : Signed) (steps : List Step) :
    ((start o s).run steps).options = o ∧
    (∀ x, x ∈ ((start o s).run steps).names ↔
      ∃ n, Made (start o s) steps n ∧ x ∈ n.signed.formula.identifiers) ∧
    ∀ i, i < ((start o s).run steps).slots ↔ ∃ n, Made (start o s) steps n ∧ n.id = i := by
  induction steps using List.reverseRecOn with
  | nil =>
      refine ⟨rfl, fun x => ?_, fun i => ?_⟩
      · simp only [made_nil]
        rw [run, start, mem_enterNames, or_iff_right List.not_mem_nil]
        rfl
      · simp only [made_nil, labels_start, List.mem_singleton, exists_eq_left]
        exact Nat.lt_one_iff.trans eq_comm
  | append_singleton steps step ih =>
      obtain ⟨hoptions, hnames, hslots⟩ := ih
      have hregisters := registers_perform (valid_run o s steps) step
      have hrun : (start o s).run (steps ++ [step]) = (((start o s).run steps).perform step).2 :=
        run_append (start o s) steps [step]
      rw [hrun]
      refine ⟨hregisters.options.trans hoptions, fun x => ?_, fun i => ?_⟩
      · rw [hregisters.names, hnames, ← exists_or]
        exact exists_congr fun n => by rw [made_concat, or_and_right]
      · rw [hregisters.slots, hslots, ← exists_or]
        exact exists_congr fun n => by rw [made_concat, or_and_right]

/-! The choice of a term. -/

variable {n : Node}

/-- A reusable node gets the oldest term that it has not been instantiated with. -/
theorem termFor_of_unused (hreusable : n.kind.isReusable = true) (hunused : ∃ y ∈ t.terms, y ∉ n.instances) :
    t.termFor n none ∉ n.instances ∧
      ∃ older newer, t.terms = older ++ t.termFor n none :: newer ∧ ∀ y ∈ older, y ∈ n.instances := by
  obtain ⟨y, hy, hnew⟩ := hunused
  have hsome : (t.terms.find? fun s => !n.instances.contains s).isSome = true := by
    rw [List.find?_isSome]
    exact ⟨y, hy, by simpa using hnew⟩
  obtain ⟨x, hx⟩ := Option.isSome_iff_exists.1 hsome
  obtain ⟨hfound, older, newer, hterms, holder⟩ := List.find?_eq_some_iff_append.1 hx
  have heq : t.termFor n none = x := by
    rw [termFor, if_pos hreusable, hx]
    rfl
  rw [heq]
  exact ⟨by simpa using hfound, older, newer, hterms, fun z hz => by simpa using holder z hz⟩

/-- Every other node, and a reusable node that has had all terms, gets a term that is made up for it. -/
theorem termFor_of_all_used (h : ¬ (n.kind.isReusable = true ∧ ∃ y ∈ t.terms, y ∉ n.instances)) :
    t.termFor n none = t.freshTerm := by
  rw [termFor]
  split
  · rename_i hreusable
    have hnone : (t.terms.find? fun s => !n.instances.contains s) = none := by
      rw [List.find?_eq_none]
      intro y hy hnew
      exact h ⟨hreusable, y, hy, by simpa using hnew⟩
    rw [hnone, Option.getD_none]
  · rfl

/-- No node is instantiated twice with one term, as long as it is not asked for. -/
theorem termFor_not_mem_instances (h : Valid t) (hn : n ∈ t.tree.labels) : t.termFor n none ∉ n.instances := by
  by_cases hcase : n.kind.isReusable = true ∧ ∃ y ∈ t.terms, y ∉ n.instances
  · exact (termFor_of_unused hcase.1 hcase.2).1
  · rw [termFor_of_all_used hcase]
    exact fun hmem => freshTerm_not_mem_terms t ((h.settled n hn).entered _ hmem)

/-- The term made up is the first of the numbered terms that the tableau has not and that no node mentions, and no
more are tried than there are terms and names. -/
theorem exists_freshTerm_eq (t : Tableau) : ∃ k, t.freshTerm = .indexed t.options.termStem k ∧
    k ≤ t.terms.length + t.names.length ∧
    IsLeast {k | Term.indexed t.options.termStem k ∉ t.terms ∧ Term.indexed t.options.termStem k ∉ t.names} k := by
  obtain ⟨hleast, hle⟩ := isLeast_leastUnused (Term.indexed_injective t.options.termStem) (t.terms ++ t.names)
  simp only [List.mem_append, not_or] at hleast
  rw [List.length_append] at hle
  exact ⟨_, rfl, hle, hleast⟩

end Tableau

/-- The choice of the term `x` for an instance of a quantified node `n`; `made` are the nodes that have been made up to
then, and `stem` is what numbered terms start with. -/
structure Allocates (stem : String) (made : Node → Prop) (t t' : Tableau) (n : Node) (x : Term) : Prop where
  new : x ∉ n.instances
  entered : ∃ m, t'.node n.id = .ok m ∧ m.instances = n.instances ++ [x]
  /-- A reusable node gets the oldest term it has not had, and the terms of the tableau stay. -/
  oldest : n.kind.isReusable = true → (∃ y ∈ t.terms, y ∉ n.instances) → t'.terms = t.terms ∧
    ∃ older newer, t.terms = older ++ x :: newer ∧ ∀ y ∈ older, y ∈ n.instances
  /-- Without such a term it gets the first numbered one that is neither a term of the tableau nor anywhere in the
  formula of a node ever made; and this is the last of the terms from then on. -/
  fresh : ¬ (n.kind.isReusable = true ∧ ∃ y ∈ t.terms, y ∉ n.instances) → t'.terms = t.terms ++ [x] ∧
    ∃ k, x = .indexed stem k ∧ k ≤ t.terms.length + t.names.length ∧
      IsLeast {k | Term.indexed stem k ∉ t.terms ∧
        ∀ m, made m → Term.indexed stem k ∉ m.signed.formula.identifiers} k

namespace Tableau

theorem allocates_of_unfolds {t t' : Tableau} {n : Node} {e : Expansion} {leaves : List Nat} {made : Node → Prop}
    (h : Valid t) (hn : n ∈ t.tree.labels) (hunfolds : Unfolds t t' n (some (t.termFor n none)) e leaves)
    (hmade : ∀ x, x ∈ t.names ↔ ∃ m, made m ∧ x ∈ m.signed.formula.identifiers) :
    Allocates t.options.termStem made t t' n (t.termFor n none) := by
  have hmention : ∀ x, x ∉ t.names ↔ ∀ m, made m → x ∉ m.signed.formula.identifiers := fun x => by
    rw [hmade]
    push Not
    rfl
  obtain ⟨k, hk, hle, hleast⟩ := t.exists_freshTerm_eq
  have hnew := termFor_not_mem_instances h hn
  have hterms : t'.terms = Term.enter t.terms (t.termFor n none) := hunfolds.terms
  constructor
  case new => exact hnew
  case entered =>
    obtain ⟨m, hm, _⟩ := hunfolds.planted.node n.id n (node_of_mem h.numbered hn)
    exact ⟨m, hm, (hunfolds.developed m hm).2.trans (Term.enter_of_not_mem hnew)⟩
  case oldest =>
    intro hreusable hunused
    obtain ⟨_, older, newer, heq, holder⟩ := termFor_of_unused hreusable hunused
    refine ⟨?_, older, newer, heq, holder⟩
    have hmem : t.termFor n none ∈ t.terms := by
      rw [heq]
      exact List.mem_append_right _ List.mem_cons_self
    rw [hterms, Term.enter_of_mem hmem]
  case fresh =>
    intro hcase
    rw [termFor_of_all_used hcase] at hterms ⊢
    simp only [hmention] at hleast
    exact ⟨hterms.trans (Term.enter_of_not_mem (freshTerm_not_mem_terms t)), k, hk, hle, hleast⟩

/-- The term that a quantified node is developed with in a session, if none is asked for; and the nodes that count as
made are all to which a number has been given. -/
theorem run_allocates (o : Options) (s : Signed) (steps : List Step) (id : Nat) (n : Node)
    (hn : ((start o s).run steps).node id = .ok n) (hquantified : n.kind.isQuantified = true)
    (hok : (((start o s).run steps).develop id none).1 = .ok true) :
    (∀ i, i < ((start o s).run steps).slots ↔ ∃ m, Made (start o s) steps m ∧ m.id = i) ∧
    ∃ x e leaves, Unfolds ((start o s).run steps) (((start o s).run steps).develop id none).2 n (some x) e leaves ∧
      Allocates o.termStem (Made (start o s) steps) ((start o s).run steps)
        (((start o s).run steps).develop id none).2 n x := by
  have hvalid := valid_run o s steps
  obtain ⟨hoptions, hnames, hslots⟩ := registered_run o s steps
  obtain ⟨m, e, leaves, hm, hunfolds⟩ := unfolds_develop hvalid (recorded_run o s steps) hok
  obtain rfl := Except.ok.inj (hn.symm.trans hm)
  rw [given, if_pos hquantified] at hunfolds
  have hallocates := allocates_of_unfolds hvalid (node_eq_ok hn).1 hunfolds hnames
  rw [hoptions] at hallocates
  exact ⟨hslots, _, e, leaves, hunfolds, hallocates⟩

/-- A premise about `t0`, which is taken back. -/
def recantation : List Step :=
  [.assume ⟨saysP "t0", true⟩, .remove 1]

/-- The name in the premise taken back is not given again: the first witness is `t1`. -/
theorem run_allocates_witness :
    ((start { seedConstants := false } somethingP).run recantation).node 0 =
      .ok { Node.ofSigned 0 somethingP none with compared := true } ∧
    somethingP.kind.isQuantified = true ∧
    (((start { seedConstants := false } somethingP).run recantation).develop 0 none).1 = .ok true ∧
    ((start { seedConstants := false } somethingP).run recantation).terms = [] ∧
    (((start { seedConstants := false } somethingP).run recantation).develop 0 none).2.terms = [⟨"t1"⟩] ∧
    ∃ x e leaves, Unfolds ((start { seedConstants := false } somethingP).run recantation)
        (((start { seedConstants := false } somethingP).run recantation).develop 0 none).2
        { Node.ofSigned 0 somethingP none with compared := true } (some x) e leaves ∧
      Allocates "t" (Made (start { seedConstants := false } somethingP) recantation)
        ((start { seedConstants := false } somethingP).run recantation)
        (((start { seedConstants := false } somethingP).run recantation).develop 0 none).2
        { Node.ofSigned 0 somethingP none with compared := true } x := by
  have hn : ((start { seedConstants := false } somethingP).run recantation).node 0 =
      .ok { Node.ofSigned 0 somethingP none with compared := true } := by decide +kernel
  have hok : (((start { seedConstants := false } somethingP).run recantation).develop 0 none).1 = .ok true := by
    decide +kernel
  exact ⟨hn, rfl, hok, by decide +kernel, by decide +kernel,
    (run_allocates { seedConstants := false } somethingP recantation 0 _ hn rfl hok).2⟩

end Tableau

end Tableaux
