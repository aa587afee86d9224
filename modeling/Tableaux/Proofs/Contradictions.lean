import Mathlib
import Tableaux.Proofs.Models
import Tableaux.Proofs.Records

/-!
Closing little by little against a look at everything. A check skips the nodes that were compared before, starts only
at the leaves below one node and stops at the first contradiction it meets; a premise is not checked at all. Still,
whenever a development, a removal, a check of the whole tree or a search is over, the closed branches are exactly
those that hold a contradiction: only a tree with a single branch can have one that has not been found.
-/

namespace Tableaux

/-- The nodes assert one formula with opposite values. -/
def Node.Opposes (n m : Node) : Prop :=
  n.signed.formula = m.signed.formula ∧ n.signed.value ≠ m.signed.value

/-- Two nodes of the branch oppose each other. -/
def Contradictory (b : List Node) : Prop :=
  ∃ n ∈ b, ∃ m ∈ b, n.Opposes m

theorem Node.contradicts_iff_opposes {n m : Node} : n.contradicts m = true ↔ n.Opposes m := by
  rw [contradicts, Signed.contradicts, Bool.and_eq_true, bne_iff_ne, decide_eq_true_iff, and_comm]
  rfl

theorem Consistent.not_contradictory {b : List Node} (h : Consistent b) : ¬ Contradictory b := by
  rintro ⟨n, hn, m, hm, hopposes⟩
  have hfalse := h.forall_mem n.signed ⟨n, hn, rfl⟩ m.signed ⟨m, hm, rfl⟩
  have htrue : n.signed.contradicts m.signed = true := Node.contradicts_iff_opposes.2 hopposes
  rw [htrue] at hfalse
  cases hfalse

/-- What a look at the whole tree would find is what is marked: the leaves of contradictory branches are closed and no
others, each of these branches holds a pair of marked nodes, and every marked node is one of such a pair. -/
structure Rechecked (t : Tableau) : Prop where
  closed_iff : ∀ leaf up, leaf :: up ∈ t.tree.branches → (leaf.closed = true ↔ Contradictory (leaf :: up))
  pair : ∀ leaf up, leaf :: up ∈ t.tree.branches → leaf.closed = true →
    ∃ n ∈ leaf :: up, ∃ m ∈ leaf :: up, n.Opposes m ∧ n.contradictory = true ∧ m.contradictory = true
  member : ∀ n ∈ t.tree.labels, n.contradictory = true → ∃ leaf up, leaf :: up ∈ t.tree.branches ∧
    leaf.closed = true ∧ n ∈ leaf :: up ∧ ∃ m ∈ leaf :: up, n.Opposes m ∧ m.contradictory = true

/-- A contradiction that has not been found can only be on a single branch. -/
def Examined (t : Tableau) : Prop :=
  (∃ b, t.tree.branches = [b]) ∨ Checked t

namespace Checked

variable {t t' : Tableau}

theorem closesTo (h : Checked t) (hcloses : t.ClosesTo t') : Checked t' := by
  intro b' hb' hopen
  obtain ⟨b, hb, hmarked⟩ := hcloses.exists_branch hb'
  exact Tableau.consistent_of_marked hmarked (h b hb (openBranch_of_marked hmarked hopen))

theorem remove (hvalid : Valid t) {id : Nat} (h : t.remove id = (.ok true, t')) : Checked t' := by
  rcases Tableau.remove_cases t id with ⟨_, _, heq⟩ | ⟨_, heq⟩ | ⟨_, _, _, heq⟩
  · cases heq.symm.trans h
  · cases heq.symm.trans h
  · obtain rfl := (Prod.mk.inj (heq.symm.trans h)).2
    exact closeBranches_root (Tableau.valid_cleared_excised hvalid id).toCoherent

/-- On a single branch every node is on the branch that its development checks. -/
theorem develop_path (hvalid : Valid t) {b : List Node} (hpath : t.tree.branches = [b]) {id : Nat}
    {term : Option Term} (h : t.develop id term = (.ok true, t')) : Checked t' := by
  rcases Tableau.develop_cases hvalid id term with
    ⟨_, _, heq⟩ | ⟨_, _, _, heq⟩ | ⟨n, e, u, hnode, _, _, _, happlied, hvalid', heq⟩
  · cases heq.symm.trans h
  · cases heq.symm.trans h
  · obtain rfl := (Prod.mk.inj (heq.symm.trans h)).2
    obtain ⟨hn, rfl⟩ := Tableau.node_eq_ok hnode
    have htouch := Tableau.sameJudgement_touch n.id (t.given n term) !n.kind.isReusable
    obtain ⟨c, hc, hnc⟩ := Tree.exists_branch_of_mem_labels hn
    rw [hpath, List.mem_singleton] at hc
    subst hc
    intro b' hb' hopen
    obtain ⟨d, hd, hmarked⟩ := (Tableau.closesTo_closeBranches u n.id).exists_branch hb'
    have hnd : Tableau.touch n.id (t.given n term) (!n.kind.isReusable) n ∈ d := by
      obtain ⟨c', hc', ⟨_, rfl⟩ | ⟨_, _, _, _, _, rfl⟩⟩ := happlied.source d hd
      · rw [hpath, List.mem_singleton] at hc'
        rw [hc']
        exact List.mem_map_of_mem hnc
      · rw [hpath, List.mem_singleton] at hc'
        rw [hc']
        exact List.mem_append_right _ (List.mem_map_of_mem hnc)
    obtain ⟨m, hm, hnm⟩ := exists_of_forall₂_left hmarked hnd
    exact Tableau.consistent_closeBranches hvalid'.toCoherent hb' hopen hm (hnm.id.trans (htouch.id n))

end Checked

namespace Examined

variable {t t' : Tableau}

theorem closesTo (h : Examined t) (hcloses : t.ClosesTo t') : Examined t' := by
  rcases h with ⟨b, hpath⟩ | hchecked
  · obtain ⟨b', hpath', _⟩ := hcloses.exists_path hpath
    exact Or.inl ⟨b', hpath'⟩
  · exact Or.inr (hchecked.closesTo hcloses)

/-- A development leaves nothing unfound. -/
theorem checked_develop (hvalid : Valid t) (h : Examined t) {id : Nat} {term : Option Term}
    (hdevelop : t.develop id term = (.ok true, t')) : Checked t' := by
  rcases h with ⟨b, hpath⟩ | hchecked
  · exact .develop_path hvalid hpath hdevelop
  · have hafter := hchecked.develop hvalid id term
    rwa [hdevelop] at hafter

theorem assume (hvalid : Valid t) (h : Examined t) (s : Signed) : Examined (t.assume s).2 := by
  rcases Tableau.assume_cases t s with ⟨_, heq⟩ | ⟨leaf, up, hpath, _, heq⟩
  · rw [heq]
    exact h
  · rw [heq]
    exact Or.inl ⟨_, Tableau.branches_stated hvalid.numbered s hpath⟩

theorem develop (hvalid : Valid t) (h : Examined t) (id : Nat) (term : Option Term) :
    Examined (t.develop id term).2 := by
  rcases Tableau.develop_cases hvalid id term with ⟨_, _, heq⟩ | ⟨_, _, _, heq⟩ | ⟨_, _, _, _, _, _, _, _, _, heq⟩
  · rw [heq]
    exact h
  · rw [heq]
    exact h
  · rw [heq]
    exact Or.inr (h.checked_develop hvalid heq)

theorem remove (hvalid : Valid t) (h : Examined t) (id : Nat) : Examined (t.remove id).2 := by
  rcases Tableau.remove_cases t id with ⟨_, _, heq⟩ | ⟨_, heq⟩ | ⟨_, _, _, heq⟩
  · rw [heq]
    exact h
  · rw [heq]
    exact h
  · rw [heq]
    exact Or.inr (.remove hvalid heq)

theorem checkClosed (h : Examined t) (id : Nat) : Examined (t.checkClosed id).2 :=
  h.closesTo (Tableau.closesTo_checkClosed t id)

theorem defer (h : Examined t) (id : Nat) : Examined (t.defer id).2 := by
  rcases Tableau.defer_cases t id with heq | heq
  · rw [heq]
    exact h
  · rw [heq, Tableau.sendToBack_eq]
    exact h

theorem perform (hvalid : Valid t) (h : Examined t) (step : Step) : Examined (t.perform step).2 := by
  cases step with
  | assume s => exact h.assume hvalid s
  | develop id term => exact h.develop hvalid id term
  | remove id => exact h.remove hvalid id
  | checkClosed id => exact h.checkClosed id
  | defer id => exact h.defer id
  | search limits => exact Or.inr (.search hvalid limits)

theorem run (o : Options) (s : Signed) (steps : List Step) : Examined ((Tableau.start o s).run steps) :=
  (Tableau.run_induction (P := fun t => Valid t ∧ Examined t)
    (fun _ step h => ⟨Tableau.valid_perform h.1 step, h.2.perform h.1 step⟩)
    ⟨Tableau.valid_start o s, Or.inl ⟨_, Tableau.branches_start o s⟩⟩ steps).2

end Examined

/-- A closed leaf ends a branch with a contradiction. -/
theorem Recorded.contradictory {t : Tableau} (h : Recorded t) {leaf : Node} {up : List Node}
    (hb : leaf :: up ∈ t.tree.branches) (hclosed : leaf.closed = true) : Contradictory (leaf :: up) := by
  obtain ⟨n, m, hpair⟩ := h.pair leaf up hb hclosed
  exact ⟨n, hpair.left, m, hpair.right, Node.contradicts_iff_opposes.1 hpair.contradicts⟩

/-- When nothing is left unfound the marks say what a look at the whole tree would. -/
theorem Checked.rechecked {t : Tableau} (h : Checked t) (hvalid : Valid t) (hrecorded : Recorded t) : Rechecked t where
  closed_iff leaf up hb := by
    refine ⟨hrecorded.contradictory hb, fun hcontra => ?_⟩
    by_contra hopen
    rw [hrecorded.leaf leaf up hb] at hopen
    have hbranch := hvalid.agree.openBranch hb (Bool.not_eq_true _ ▸ hopen)
    exact (h _ hb hbranch).not_contradictory hcontra
  pair leaf up hb hclosed := by
    obtain ⟨n, m, hpair⟩ := hrecorded.pair leaf up hb hclosed
    exact ⟨n, hpair.left, m, hpair.right, Node.contradicts_iff_opposes.1 hpair.contradicts, hpair.marked⟩
  member n hn hmark := by
    obtain ⟨leaf, up, hb, hclosed, m, hpair⟩ := hrecorded.member n hn hmark
    exact ⟨leaf, up, hb, hclosed, hpair.left, m, hpair.right, Node.contradicts_iff_opposes.1 hpair.contradicts,
      hpair.marked.2⟩

/-- A closed leaf always ends a contradictory branch; and after a development or a removal that changed something,
after a check of the whole tree and after a search, the closed branches are all the contradictory ones. -/
theorem closed_branches_rechecked (o : Options) (s : Signed) (steps : List Step) :
    (∀ leaf up, leaf :: up ∈ ((Tableau.start o s).run steps).tree.branches → leaf.closed = true →
      Contradictory (leaf :: up)) ∧
    (∀ id term t', ((Tableau.start o s).run steps).develop id term = (.ok true, t') → Rechecked t') ∧
    (∀ id t', ((Tableau.start o s).run steps).remove id = (.ok true, t') → Rechecked t') ∧
    Rechecked (((Tableau.start o s).run steps).checkClosed ((Tableau.start o s).run steps).tree.root.id).2 ∧
    ∀ limits, Rechecked (((Tableau.start o s).run steps).search limits).2 := by
  have hvalid := Tableau.valid_run o s steps
  have hrecorded := Tableau.recorded_run o s steps
  have hexamined := Examined.run o s steps
  generalize (Tableau.start o s).run steps = t at *
  refine ⟨fun leaf up hb hclosed => hrecorded.contradictory hb hclosed, ?_, ?_, ?_, ?_⟩
  · intro id term t' heq
    have hvalid' := Tableau.valid_develop hvalid id term
    have hrecorded' := Tableau.recorded_develop hvalid hrecorded id term
    rw [heq] at hvalid' hrecorded'
    exact (hexamined.checked_develop hvalid heq).rechecked hvalid' hrecorded'
  · intro id t' heq
    have hvalid' := Tableau.valid_remove hvalid id
    have hrecorded' := Tableau.recorded_remove hvalid hrecorded id
    rw [heq] at hvalid' hrecorded'
    exact (Checked.remove hvalid heq).rechecked hvalid' hrecorded'
  · exact (Checked.checkClosed_root hvalid.toCoherent).rechecked (Tableau.valid_checkClosed hvalid _)
      (Tableau.recorded_checkClosed hvalid.toCoherent hrecorded _)
  · exact fun limits => (Checked.search hvalid limits).rechecked (Tableau.valid_search hvalid limits)
      (Tableau.recorded_search hvalid hrecorded limits)

end Tableaux
