import Mathlib
import Tableaux.Proofs.Completeness
import Tableaux.Proofs.Soundness

/-!
Without quantifiers the search decides. Rules lead to smaller formulas and no node is developed twice, so after some
stage of the strategy nothing waits, whatever the limit of instances. If every branch is closed then, the premises
cannot be true together; and if one is open, its formulas are a Hintikka set, no matter which terms have been entered,
and have a model. A search with room for the stages up to this one gives the answer.
-/

namespace Tableaux

universe u

namespace Formula

/-- Whether no quantifier occurs. -/
def isQuantifierFree : Formula → Bool
  | atom _ => true
  | not f => f.isQuantifierFree
  | binary _ l r => l.isQuantifierFree && r.isQuantifierFree
  | quantified _ _ _ => false

theorem isReusable_kind_eq_false {f : Formula} (h : f.isQuantifierFree = true) (value : Bool) :
    (f.kind value).isReusable = false := by
  induction f generalizing value with
  | atom a => rfl
  | not f ih =>
      cases value with
      | true => exact ih h false
      | false => rfl
  | binary c l r => rfl
  | quantified q x body => cases h

end Formula

namespace Signed

theorem isQuantifierFree_fold (s : Signed) : s.fold.formula.isQuantifierFree = s.formula.isQuantifierFree := by
  unfold fold
  split <;> rfl

/-- Rules bring in no quantifiers. -/
theorem isQuantifierFree_of_mem_chain {s r : Signed} {term : Option Term} {e : Expansion} {chain : List Signed}
    (h : s.expansion term = some e) (hchain : chain ∈ e.chains) (hr : r ∈ chain)
    (hs : s.formula.isQuantifierFree = true) : r.formula.isQuantifierFree = true := by
  rcases formula_of_mem_chain h hchain hr with heq | ⟨c, left, right, heq, hpart⟩ | ⟨q, x, body, t, heq, _⟩
  · rwa [heq] at hs
  · rw [heq, Formula.isQuantifierFree, Bool.and_eq_true] at hs
    rcases hpart with hleft | hright
    · rw [hleft]
      exact hs.1
    · rw [hright]
      exact hs.2
  · rw [heq] at hs
    cases hs

end Signed

/-- If no quantifier occurs in the premises, none occurs in the tableau. -/
def QuantifierFree (premises : List Signed) (t : Tableau) : Prop :=
  (∀ s ∈ premises, s.formula.isQuantifierFree = true) → ∀ n ∈ t.tree.labels, n.signed.formula.isQuantifierFree = true

namespace QuantifierFree

theorem start (o : Options) (s : Signed) : QuantifierFree [s] (.start o s) := by
  intro hpremises n hn
  rw [Tableau.labels_start, List.mem_singleton] at hn
  rw [hn]
  exact s.isQuantifierFree_fold.trans (hpremises s List.mem_cons_self)

theorem lasting : Lasting (fun _ step => ∀ id, step ≠ .remove id) QuantifierFree where
  remove h := h _ rfl
  unprompted _ := fun h => by cases h
  closesTo := by
    intro premises t t' h hcloses hpremises m hm
    obtain ⟨n, hn, hnm⟩ := hcloses.exists_label hm
    rw [hnm.signed]
    exact h hpremises n hn
  sendToBack := by
    intro premises t id h
    rw [Tableau.sendToBack_eq]
    exact h
  stated := by
    intro premises t s leaf up hvalid h hpath _ hpremises n hn
    have hleaf : leaf :: up ∈ t.tree.branches := by
      rw [hpath]
      exact List.mem_cons_self
    rcases (Tableau.mem_labels_stated hvalid.numbered s hleaf).1 hn with hn | rfl
    · exact h (fun r hr => hpremises r (List.mem_append_left _ hr)) n hn
    · exact s.isQuantifierFree_fold.trans (hpremises s (List.mem_append_right _ List.mem_cons_self))
  applied := by
    intro premises t t' n e term _ h hn _ hexpansion happlied hpremises m hm
    rcases happlied.label_cases hm with ⟨k, hk, rfl⟩ | ⟨chain, hchain, s, hs, _, heq⟩
    · rw [(Tableau.sameJudgement_touch n.id _ _).signed]
      exact h hpremises k hk
    · rw [heq]
      exact s.isQuantifierFree_fold.trans
        (Signed.isQuantifierFree_of_mem_chain hexpansion hchain hs (h hpremises n hn))

end QuantifierFree

/-- A tableau without quantifiers that the search may go on with: nothing that was done is lost, and no contradiction
is overlooked. -/
structure Propositional (premises : List Signed) (t : Tableau) : Prop where
  valid : Valid t
  diligent : Diligent premises t
  checked : Checked t
  quantifierFree : ∀ n ∈ t.tree.labels, n.signed.formula.isQuantifierFree = true

/-- The tableau of a problem without quantifiers, once the search has looked for contradictions. -/
theorem Problem.propositional (o : Options) {first : Signed} {rest : List Signed}
    (hfree : ∀ s ∈ first :: rest, s.formula.isQuantifierFree = true) :
    Propositional (first :: rest) (((Tableau.start o first).run (Problem.steps rest)).checkClosed
      ((Tableau.start o first).run (Problem.steps rest)).tree.root.id).2 := by
  have hvalid := Tableau.valid_run o first (Problem.steps rest)
  have hdiligent := Diligent.lasting.problem (Diligent.start o first) rest
  have hquantifierFree := QuantifierFree.lasting.problem (QuantifierFree.start o first) rest
  exact ⟨Tableau.valid_checkClosed hvalid _, Diligent.lasting.checkClosed hdiligent _,
    Checked.checkClosed_root hvalid.toCoherent, QuantifierFree.lasting.checkClosed hquantifierFree _ hfree⟩

namespace Propositional

variable {premises : List Signed} {t : Tableau}

theorem stage (h : Propositional premises t) (k : Nat) : Propositional premises (t.stage k) where
  valid := Tableau.valid_stage h.valid k
  diligent := Diligent.lasting.stage h.valid h.diligent k
  checked := h.checked.stage h.valid k
  quantifierFree := by
    have hstage : QuantifierFree [] (t.stage k) := QuantifierFree.lasting.stage h.valid (fun _ => h.quantifierFree) k
    exact hstage fun s hs => by cases hs

theorem isReusable_eq_false (h : Propositional premises t) {n : Node} (hn : n ∈ t.tree.labels) :
    n.kind.isReusable = false :=
  Formula.isReusable_kind_eq_false (h.quantifierFree n hn) _

/-- As long as a node waits there is something to choose. -/
theorem choice_ne_none (h : Propositional premises t) (hwaits : t.worklist ≠ []) : t.choice ≠ .ok none := by
  intro hnone
  obtain ⟨id, hid⟩ := List.exists_mem_of_ne_nil _ hwaits
  rcases Tableau.choice_cases h.valid with ⟨_, hsaturated⟩ | ⟨_, _, hsome, _⟩ | ⟨_, _, _, _, _, hsome, _⟩
  · obtain ⟨n, hnode, hreusable, _⟩ := hsaturated id hid
    cases (h.isReusable_eq_false (Tableau.node_eq_ok hnode).1).symm.trans hreusable
  · cases hnone.symm.trans hsome
  · cases hnone.symm.trans hsome

/-- At some stage nothing waits, since only reusable nodes would. -/
theorem exists_idle (h : Propositional premises t) : ∃ k, (t.stage k).worklist = [] := by
  obtain ⟨k, _, hreusable⟩ := Tableau.exists_stage_reusable h.valid 0
  refine ⟨k, List.eq_nil_iff_forall_not_mem.2 fun id hid => ?_⟩
  have hstage := h.stage k
  obtain ⟨n, hn, rfl, _⟩ := (hstage.valid.waiting id).1 hid
  have hkind := hreusable n.id hid n (Tableau.node_of_mem hstage.valid.numbered hn)
  cases (hstage.isReusable_eq_false hn).symm.trans hkind

/-- Where nothing waits, the formulas of an open branch are a Hintikka set over all terms: there is no quantified
formula to be instantiated with them. -/
theorem hintikka (h : Propositional premises t) (hidle : t.worklist = []) {b : List Node} (hb : b ∈ t.tree.branches)
    (hopen : OpenBranch b) : Hintikka Set.univ (asserted b) := by
  have hlabel : ∀ n ∈ b, n ∈ t.tree.labels := fun n hn => Tree.mem_labels_of_mem_branch hb hn
  have hticked : ∀ n ∈ b, n.ticked = true := by
    intro n hn
    by_contra hnot
    have hwaits := (h.valid.waiting n.id).2 ⟨n, hlabel n hn, rfl, by simpa using hnot, hopen n hn⟩
    rw [hidle] at hwaits
    cases hwaits
  apply hintikka_of_treated
  case folded =>
    rintro _ ⟨n, hn, rfl⟩
    exact (h.valid.settled n (hlabel n hn)).folded
  case free => exact fun _ _ x _ => Set.mem_univ x
  case consistent => exact (h.checked b hb hopen).forall_mem
  case once =>
    rintro _ ⟨n, hn, rfl⟩ _
    exact ⟨b, n, subset_rfl, h.diligent.treated b hb hopen n hn, rfl, hticked n hn, fun x _ => Set.mem_univ x⟩
  case nonempty =>
    rintro _ ⟨n, hn, rfl⟩ hreusable
    cases (h.isReusable_eq_false (hlabel n hn)).symm.trans hreusable
  case every =>
    rintro _ ⟨n, hn, rfl⟩ hreusable
    cases (h.isReusable_eq_false (hlabel n hn)).symm.trans hreusable

/-- Where nothing waits and a branch is open, the premises have a model. -/
theorem exists_model (h : Propositional premises t) (hidle : t.worklist = []) (hopen : t.openBranches ≠ 0) :
    ∃ (D : Type) (M : Structure D) (a : Term → D), ∀ s ∈ premises, s.Holds M a := by
  obtain ⟨_, b, hb, hopen, _⟩ : Nonempty (Tableau.OpenPath t 0) := Tableau.nonempty_openPath h.valid hopen
  obtain ⟨D, M, a, hholds⟩ := (h.hintikka hidle hb hopen).exists_model
  exact ⟨D, M, a, h.diligent.premises_hold hb fun n hn => hholds _ ⟨n, hn, rfl⟩⟩

end Propositional

namespace Tableau

variable {premises : List Signed} {t : Tableau}

/-- Where nothing waits, a search ends. -/
theorem searchFrom_idle {limits : Limits} (left steps : Nat) (hidle : t.worklist = [])
    (hnodes : t.nodeCount < limits.nodes) : (searchFrom limits (left + 1) steps t).1 =
      .ok (if t.openBranches = 0 then .closed steps t.nodeCount else .saturated steps t.openBranches) := by
  rw [searchFrom]
  split
  · rfl
  · rw [if_neg (Nat.not_le.2 hnodes), select, conclude, hidle]
    rfl

/-- A search with enough room reaches the first stage at which nothing waits. -/
theorem exists_limit_idle (h : Propositional premises t) : ∃ k, (t.stage k).worklist = [] ∧
    ∃ N, ∀ limits : Limits, N ≤ limits.steps → N ≤ limits.nodes →
      (searchFrom limits limits.steps 0 t).1 = .ok (if (t.stage k).openBranches = 0 then
        .closed k (t.stage k).nodeCount else .saturated k (t.stage k).openBranches) := by
  classical
  have hexists := h.exists_idle
  obtain ⟨N, hN, hroom⟩ := exists_room t (Nat.find hexists)
  refine ⟨Nat.find hexists, Nat.find_spec hexists, N, fun limits hsteps hnodes => ?_⟩
  have hcount : ∀ j ≤ Nat.find hexists, (t.stage j).nodeCount < limits.nodes := fun j hj =>
    (nodeCount_lt_room _).trans_le ((hroom j hj).trans hnodes)
  have hchoice : ∀ j < Nat.find hexists, (t.stage j).choice ≠ .ok none := fun j hj =>
    (h.stage j).choice_ne_none (Nat.find_min hexists hj)
  have hwithin : ∀ j < Nat.find hexists, (t.stage j).Within limits := by
    intro j hj
    refine ⟨hcount j hj.le, fun n hn hreusable => ?_⟩
    cases ((h.stage j).isReusable_eq_false hn).symm.trans hreusable
  obtain ⟨left, hleft⟩ : ∃ left, limits.steps = left + 1 + Nat.find hexists :=
    ⟨limits.steps - 1 - Nat.find hexists, by omega⟩
  rw [hleft, searchFrom_add (left + 1) 0 h.valid hchoice hwithin, Nat.zero_add]
  exact searchFrom_idle left _ (Nat.find_spec hexists) (hcount _ (Nat.le_refl _))

end Tableau

/-- The search decides problems without quantifiers: for each there is a number such that every search of its tableau
with at least so many steps and nodes, whatever the options and the limit of instances, closes all branches if the
signed formulas cannot be true together, finds nothing left to do if they can, and never stops at a limit. -/
theorem search_decides_quantifier_free {p : Problem} (hvalid : p.validate = .ok ())
    (hfree : ∀ s ∈ p.signedFormulas, s.formula.isQuantifierFree = true) (o : Options) :
    ∃ t, p.toTableau o = .ok t ∧ ∃ N, ∀ limits : Limits, N ≤ limits.steps → N ≤ limits.nodes →
      (∀ steps reason, (t.search limits).1 ≠ .ok (.unknown steps reason)) ∧
      ((∀ (D : Type) (M : Structure D) (a : Term → D), ¬ ∀ s ∈ p.signedFormulas, s.Holds M a) →
        ∃ steps nodes, (t.search limits).1 = .ok (.closed steps nodes)) ∧
      ((∃ (D : Type u) (M : Structure D) (a : Term → D), ∀ s ∈ p.signedFormulas, s.Holds M a) →
        ∃ steps branches, (t.search limits).1 = .ok (.saturated steps branches)) := by
  obtain ⟨first, rest, hformulas⟩ := List.exists_cons_of_ne_nil (Problem.signedFormulas_ne_nil hvalid)
  refine ⟨_, Problem.toTableau_eq hvalid hformulas o, ?_⟩
  rw [hformulas] at hfree ⊢
  have hpropositional := Problem.propositional o hfree
  have hrun := Tableau.valid_run o first (Problem.steps rest)
  have hfaithful := Faithful.lasting.run (Tableau.valid_start o first) (Faithful.start.{u} o first)
    (Problem.throughout_admits_steps o first rest)
  rw [Problem.premises_steps] at hfaithful
  generalize (Tableau.start o first).run (Problem.steps rest) = t at hpropositional hrun hfaithful ⊢
  obtain ⟨k, hidle, N, hN⟩ := Tableau.exists_limit_idle hpropositional
  refine ⟨N, fun limits hsteps hnodes => ?_⟩
  have hsearch : t.search limits = Tableau.searchFrom limits limits.steps 0 (t.checkClosed t.tree.root.id).2 := by
    rw [Tableau.search, Tableau.checkClosed, Tableau.node_root hrun.numbered]
  rw [hsearch, hN limits hsteps hnodes]
  have hstage := hpropositional.stage k
  have hfaithful := Faithful.lasting.stage hpropositional.valid
    (Faithful.lasting.checkClosed hfaithful t.tree.root.id) k
  split
  case isTrue hclosed =>
    refine ⟨?_, fun _ => ⟨_, _, rfl⟩, ?_⟩
    · intro steps reason h
      cases h
    · rintro ⟨D, M, a, hholds⟩
      obtain ⟨s, hs, hfalse⟩ := hfaithful.exists_not_holds hstage.valid hclosed M a
      exact absurd (hholds s hs) hfalse
  case isFalse hopen =>
    refine ⟨?_, ?_, fun _ => ⟨_, _, rfl⟩⟩
    · intro steps reason h
      cases h
    · intro hunsatisfiable
      obtain ⟨D, M, a, hholds⟩ := hstage.exists_model hidle hopen
      exact absurd hholds (hunsatisfiable D M a)

/-- `A` or `B`, and not `A`: does it follow that `B`? -/
def disjunctiveSyllogism : Problem :=
  .argument [.binary .disjunction (.atom (.proposition "A")) (.atom (.proposition "B")),
    .not (.atom (.proposition "A"))] (.atom (.proposition "B"))

/-- A search with limits that are large enough finds out that it follows, without any terms. -/
theorem search_decides_quantifier_free_witness :
    disjunctiveSyllogism.validate = .ok () ∧
    (∀ s ∈ disjunctiveSyllogism.signedFormulas, s.formula.isQuantifierFree = true) ∧
    (∀ (D : Type) (M : Structure D) (a : Term → D), ¬ ∀ s ∈ disjunctiveSyllogism.signedFormulas, s.Holds M a) ∧
    ∃ t, disjunctiveSyllogism.toTableau { seedConstants := false } = .ok t ∧
      ∃ N, ∀ limits : Limits, N ≤ limits.steps → N ≤ limits.nodes →
        ∃ steps nodes, (t.search limits).1 = .ok (.closed steps nodes) := by
  have hvalid : disjunctiveSyllogism.validate = .ok () := by decide +kernel
  have hfree : ∀ s ∈ disjunctiveSyllogism.signedFormulas, s.formula.isQuantifierFree = true := by decide +kernel
  have hunsatisfiable : ∀ (D : Type) (M : Structure D) (a : Term → D),
      ¬ ∀ s ∈ disjunctiveSyllogism.signedFormulas, s.Holds M a := by
    intro D M a hall
    have heither := hall _ List.mem_cons_self
    have hnotA := hall _ (List.mem_cons_of_mem _ List.mem_cons_self)
    have hnotB := hall _ (List.mem_cons_of_mem _ (List.mem_cons_of_mem _ List.mem_cons_self))
    rw [Signed.holds_true] at heither hnotA
    rw [Signed.holds_false] at hnotB
    rcases heither with hA | hB
    · exact hnotA hA
    · exact hnotB hB
  obtain ⟨t, ht, N, hN⟩ := search_decides_quantifier_free.{0} hvalid hfree { seedConstants := false }
  exact ⟨hvalid, hfree, hunsatisfiable, t, ht, N, fun limits hsteps hnodes =>
    (hN limits hsteps hnodes).2.1 hunsatisfiable⟩

end Tableaux
