import Mathlib
import Tableaux.Proofs.Integrity
import Tableaux.Proofs.Strategy

/-!
Refusals. Whatever is asked of a node is refused for one reason only, that its number has not been given out or that
the node was removed; a premise is refused where the tree has branched or its only branch is closed. A development
enters a term before it looks for a rule, so that it leaves no trace only because a node that is not ticked has a rule.
A search never meets a refusal, since what waits for development is in the tree.
-/

namespace Tableaux

namespace Tableau

variable {t : Tableau} {id : Nat} {refusal : Refusal}

/-- The refusal of a number without a node: it has not been given out, or its node is no longer in the tree. -/
def Refuses (t : Tableau) (id : Nat) (refusal : Refusal) : Prop :=
  (t.slots ≤ id ∧ refusal = .unknownNode id t.slots) ∨
    (id < t.slots ∧ (∀ n ∈ t.tree.labels, n.id ≠ id) ∧ refusal = .removedNode id)

theorem node_eq_error_iff (h : Indexed t) : t.node id = .error refusal ↔ t.Refuses id refusal := by
  constructor
  · intro herror
    have hlive : t.isLive id = false := by
      rw [isLive, herror]
      rfl
    have hnone : ∀ n ∈ t.tree.labels, n.id ≠ id := by
      intro n hn hid
      rw [(isLive_iff h.numbered).2 ⟨n, hn, hid⟩] at hlive
      cases hlive
    rw [node, subtree_eq_none h.numbered hlive, Except.error.injEq] at herror
    split at herror
    · exact Or.inr ⟨‹_›, hnone, herror.symm⟩
    · exact Or.inl ⟨Nat.not_lt.1 ‹_›, herror.symm⟩
  · intro hrefuses
    have hnone : ∀ n ∈ t.tree.labels, n.id ≠ id := by
      rcases hrefuses with ⟨hle, _⟩ | ⟨_, hnone, _⟩
      · exact fun n hn hid => absurd (h.id_lt n hn) (Nat.not_lt.2 (hid ▸ hle))
      · exact hnone
    have hlive : t.isLive id = false := by
      rw [← Bool.not_eq_true, isLive_iff h.numbered]
      rintro ⟨n, hn, hid⟩
      exact hnone n hn hid
    rw [node, subtree_eq_none h.numbered hlive]
    rcases hrefuses with ⟨hle, rfl⟩ | ⟨hlt, _, rfl⟩
    · rw [if_neg (Nat.not_lt.2 hle)]
    · rw [if_pos hlt]

/-! What is asked of a node is refused when the node is. -/

theorem map_eq_error_iff {α β : Type} {f : α → β} {x : Except Refusal α} :
    x.map f = .error refusal ↔ x = .error refusal := by
  cases x with
  | error e => rw [Except.map, Except.error.injEq, Except.error.injEq]
  | ok a => exact ⟨nofun, nofun⟩

theorem develop_eq_error_iff (h : Valid t) (term : Option Term) :
    (t.develop id term).1 = .error refusal ↔ t.node id = .error refusal := by
  rcases develop_cases h id term with ⟨e, hnode, heq⟩ | ⟨n, hnode, _, heq⟩ | ⟨n, _, _, hnode, _, _, _, _, _, heq⟩
  · rw [heq, hnode, Except.error.injEq, Except.error.injEq]
  · simp [heq, hnode]
  · simp [heq, hnode]

theorem remove_eq_error_iff (h : t.tree.Numbered) :
    (t.remove id).1 = .error refusal ↔ t.node id = .error refusal := by
  rcases remove_cases t id with ⟨e, hnode, heq⟩ | ⟨rfl, heq⟩ | ⟨n, hnode, _, heq⟩
  · rw [heq, hnode, Except.error.injEq, Except.error.injEq]
  · simp [heq, node_root h]
  · simp [heq, hnode]

theorem checkClosed_eq_error_iff : (t.checkClosed id).1 = .error refusal ↔ t.node id = .error refusal := by
  cases hnode : t.node id <;> simp [checkClosed, hnode]

theorem defer_eq_error_iff : (t.defer id).1 = .error refusal ↔ t.node id = .error refusal := by
  cases hnode : t.node id <;> simp [defer, hnode]

/-! What is done without a refusal. -/

theorem develop_eq_true_iff (h : Valid t) (term : Option Term) :
    (t.develop id term).1 = .ok true ↔ ∃ n, t.node id = .ok n ∧ n.ticked = false ∧ n.branchClosed = false := by
  rcases develop_cases h id term with
    ⟨e, hnode, heq⟩ | ⟨n, hnode, hidle, heq⟩ | ⟨n, _, _, hnode, hticked, hclosed, _, _, _, heq⟩
  · simp [heq, hnode]
  · rw [heq, hnode]
    refine ⟨nofun, ?_⟩
    rintro ⟨m, hm, hticked, hclosed⟩
    cases hm
    rcases hidle with hidle | hidle
    · cases hticked.symm.trans hidle
    · cases hclosed.symm.trans hidle
  · exact ⟨fun _ => ⟨n, hnode, hticked, hclosed⟩, fun _ => by rw [heq]⟩

theorem remove_eq_false_iff (h : t.tree.Numbered) : (t.remove id).1 = .ok false ↔ id = t.tree.root.id := by
  rcases remove_cases t id with ⟨e, hnode, heq⟩ | ⟨hid, heq⟩ | ⟨n, hnode, hroot, heq⟩
  · rw [heq]
    refine ⟨nofun, ?_⟩
    rintro rfl
    cases (node_root h).symm.trans hnode
  · rw [heq]
    exact ⟨fun _ => hid, fun _ => rfl⟩
  · rw [heq]
    exact ⟨nofun, fun hid => absurd hid hroot⟩

/-! Premises. -/

theorem assume_eq_branching_iff {s : Signed} {k : Nat} :
    (t.assume s).1 = .error (.premiseAfterBranching k) ↔ t.tree.leaves.length ≠ 1 ∧ k = t.tree.leaves.length := by
  rw [assume]
  split
  · rename_i leaf hleaves
    rw [hleaves]
    split <;> simp
  · rename_i hleaves
    have hlength : t.tree.leaves.length ≠ 1 := by
      rw [Ne, List.length_eq_one_iff]
      rintro ⟨leaf, hleaf⟩
      exact hleaves leaf hleaf
    simp only [Except.error.injEq, Refusal.premiseAfterBranching.injEq]
    exact ⟨fun hk => ⟨hlength, hk.symm⟩, fun hk => hk.2.symm⟩

theorem assume_eq_closed_iff {s : Signed} {l : Nat} :
    (t.assume s).1 = .error (.closedBranch l) ↔
      ∃ leaf, t.tree.leaves = [leaf] ∧ leaf.branchClosed = true ∧ leaf.id = l := by
  rw [assume]
  split
  · rename_i leaf hleaves
    rw [hleaves]
    split <;> simp_all
  · rename_i hleaves
    constructor
    · intro hrefused
      cases hrefused
    · rintro ⟨leaf, hleaf, _⟩
      exact absurd hleaf (hleaves leaf)

/-- A premise on a single open branch is put at its end. -/
theorem assume_open (h : Valid t) {leaf : Node} (hleaves : t.tree.leaves = [leaf]) (hopen : leaf.branchClosed = false)
    (s : Signed) : (t.assume s).1 = .ok t.slots ∧ (t.assume s).2.nodeCount = t.nodeCount + 1 ∧
      ∃ up, t.tree.branches = [leaf :: up] ∧
        (t.assume s).2.tree.branches = [.ofSigned t.slots s none :: leaf :: up] := by
  have heq : t.assume s = (.ok t.slots, t.stated s leaf.id) := by
    rw [assume, hleaves]
    simp only [hopen, Bool.false_eq_true, if_false]
    rfl
  obtain ⟨up, hpath⟩ := exists_branch_of_leaves_singleton hleaves
  rw [heq]
  exact ⟨rfl, rfl, up, hpath, branches_stated h.numbered s hpath⟩

/-! Searches. -/

theorem exists_eq_ok_conclude (h : Valid t) (limits : Limits) (steps : Nat) :
    ∃ v, t.conclude limits steps = .ok v := by
  rcases firstWhere_cases h (fun n => !t.saturates n) fun _ hid => hid with ⟨hnone, _⟩ | ⟨_, _, _, _, _, hsome, _⟩
  · exact ⟨_, by rw [conclude, hnone]⟩
  · exact ⟨_, by rw [conclude, hsome]⟩

/-- What is selected waits for development. -/
theorem select_cases (h : Valid t) (limits : Limits) :
    t.select limits = .ok none ∨ ∃ id ∈ t.worklist, t.select limits = .ok (some id) := by
  rcases firstWhere_cases h (fun n => !n.kind.isReusable) fun _ hid => hid with
    ⟨hnone, _⟩ | ⟨before, id, after, _, hlist, hsome, _⟩
  · rcases firstWhere_cases h (t.isInstantiable limits) fun _ hid => hid with
      ⟨hnone', _⟩ | ⟨before, id, after, _, hlist, hsome, _⟩
    · exact Or.inl (by rw [select, hnone, hnone'])
    · exact Or.inr ⟨id, by simp [hlist], by rw [select, hnone, hsome]⟩
  · exact Or.inr ⟨id, by simp [hlist], by rw [select, hsome]⟩

theorem exists_eq_ok_searchFrom (h : Valid t) (limits : Limits) (left steps : Nat) :
    ∃ v, (searchFrom limits left steps t).1 = .ok v := by
  induction left generalizing t steps with
  | zero =>
      rw [searchFrom]
      split <;> exact ⟨_, rfl⟩
  | succ left ih =>
      rw [searchFrom]
      split
      · exact ⟨_, rfl⟩
      · split
        · exact ⟨_, rfl⟩
        · rcases select_cases h limits with hnone | ⟨id, hwaits, hsome⟩
          · rw [hnone]
            exact exists_eq_ok_conclude h limits steps
          · obtain ⟨n, hn, rfl, _⟩ := (h.waiting id).1 hwaits
            obtain ⟨_, hadvance, _⟩ := advance_waiting h hn hwaits
            rw [hsome]
            simp only
            rw [hadvance]
            exact ih (valid_advance h n.id) (steps + 1)

/-- A search always comes to a verdict. -/
theorem exists_eq_ok_search (h : Valid t) (limits : Limits) : ∃ v, (t.search limits).1 = .ok v := by
  rw [search, checkClosed, node_root h.numbered]
  exact exists_eq_ok_searchFrom (valid_closeBranches h _) limits limits.steps 0

/-! Steps that change nothing. -/

/-- The answer to a step that was refused or had nothing to do. -/
def Fruitless : Except Refusal Answer → Prop
  | .error _ => True
  | .ok (.developed done) => done = false
  | .ok (.removed done) => done = false
  | .ok _ => False

/-- A step that was refused or had nothing to do leaves everything as it was. -/
theorem perform_of_fruitless (h : Valid t) {step : Step} (hfruitless : Fruitless (t.perform step).1) :
    (t.perform step).2 = t := by
  cases step with
  | assume s =>
      rcases assume_cases t s with ⟨_, heq⟩ | ⟨_, _, _, _, heq⟩
      · rw [perform, heq]
      · rw [perform, heq] at hfruitless
        cases hfruitless
  | develop id term =>
      rcases develop_cases h id term with ⟨_, _, heq⟩ | ⟨_, _, _, heq⟩ | ⟨_, _, _, _, _, _, _, _, _, heq⟩
      · rw [perform, heq]
      · rw [perform, heq]
      · rw [perform, heq] at hfruitless
        cases hfruitless
  | remove id =>
      rcases remove_cases t id with ⟨_, _, heq⟩ | ⟨_, heq⟩ | ⟨_, _, _, heq⟩
      · rw [perform, heq]
      · rw [perform, heq]
      · rw [perform, heq] at hfruitless
        cases hfruitless
  | checkClosed id =>
      cases hnode : t.node id with
      | error e => rw [perform, checkClosed, hnode]
      | ok n =>
          rw [perform, checkClosed, hnode] at hfruitless
          cases hfruitless
  | defer id =>
      cases hnode : t.node id with
      | error e => rw [perform, defer, hnode]
      | ok n =>
          rw [perform, defer, hnode] at hfruitless
          cases hfruitless
  | search limits =>
      obtain ⟨v, hv⟩ := exists_eq_ok_search h limits
      have hanswer : (t.perform (.search limits)).1 = .ok (.verdict v) := by
        change (t.search limits).1.map Answer.verdict = _
        rw [hv]
        rfl
      rw [hanswer] at hfruitless
      cases hfruitless

end Tableau

/-- When operations on a tableau are refused or have nothing to do, and that nothing is changed then. -/
structure Guarded (t : Tableau) : Prop where
  node : ∀ id e, t.node id = .error e ↔ t.Refuses id e
  develop : ∀ id term e, (t.develop id term).1 = .error e ↔ t.Refuses id e
  remove : ∀ id e, (t.remove id).1 = .error e ↔ t.Refuses id e
  checkClosed : ∀ id e, (t.checkClosed id).1 = .error e ↔ t.Refuses id e
  defer : ∀ id e, (t.defer id).1 = .error e ↔ t.Refuses id e
  openLeaves : ∀ id e, t.openLeaves id = .error e ↔ t.Refuses id e
  allLeaves : ∀ id e, t.allLeaves id = .error e ↔ t.Refuses id e
  isSaturated : ∀ id e, t.isSaturated id = .error e ↔ t.Refuses id e
  /-- A node is developed exactly if it is in the tree, not ticked and on an open branch. -/
  developed : ∀ id term, (t.develop id term).1 = .ok true ↔
    ∃ n ∈ t.tree.labels, n.id = id ∧ n.ticked = false ∧ n.branchClosed = false
  kept : ∀ id, (t.remove id).1 = .ok false ↔ id = t.tree.root.id
  branching : ∀ s k, (t.assume s).1 = .error (.premiseAfterBranching k) ↔
    t.tree.leaves.length ≠ 1 ∧ k = t.tree.leaves.length
  closed : ∀ s l, (t.assume s).1 = .error (.closedBranch l) ↔
    ∃ leaf, t.tree.leaves = [leaf] ∧ leaf.branchClosed = true ∧ leaf.id = l
  /-- Otherwise the premise is the one new node, below the only leaf. -/
  added : ∀ s leaf, t.tree.leaves = [leaf] → leaf.branchClosed = false →
    (t.assume s).1 = .ok t.slots ∧ (t.assume s).2.nodeCount = t.nodeCount + 1 ∧
      ∃ up, t.tree.branches = [leaf :: up] ∧
        (t.assume s).2.tree.branches = [.ofSigned t.slots s none :: leaf :: up]
  unchanged : ∀ step, Tableau.Fruitless (t.perform step).1 → (t.perform step).2 = t

namespace Tableau

variable {t : Tableau}

theorem guarded_of_valid (h : Valid t) : Guarded t where
  node _ _ := node_eq_error_iff h.toIndexed
  develop _ term _ := (develop_eq_error_iff h term).trans (node_eq_error_iff h.toIndexed)
  remove _ _ := (remove_eq_error_iff h.numbered).trans (node_eq_error_iff h.toIndexed)
  checkClosed _ _ := checkClosed_eq_error_iff.trans (node_eq_error_iff h.toIndexed)
  defer _ _ := defer_eq_error_iff.trans (node_eq_error_iff h.toIndexed)
  openLeaves _ _ := map_eq_error_iff.trans (node_eq_error_iff h.toIndexed)
  allLeaves _ _ := map_eq_error_iff.trans (node_eq_error_iff h.toIndexed)
  isSaturated _ _ := map_eq_error_iff.trans (node_eq_error_iff h.toIndexed)
  developed id term := by
    rw [develop_eq_true_iff h term]
    constructor
    · rintro ⟨n, hnode, hn⟩
      obtain ⟨hmem, hid⟩ := node_eq_ok hnode
      exact ⟨n, hmem, hid, hn⟩
    · rintro ⟨n, hmem, rfl, hn⟩
      exact ⟨n, node_of_mem h.numbered hmem, hn⟩
  kept _ := remove_eq_false_iff h.numbered
  branching _ _ := assume_eq_branching_iff
  closed _ _ := assume_eq_closed_iff
  added s _ hleaves hopen := assume_open h hleaves hopen s
  unchanged _ := perform_of_fruitless h

/-- In whatever order steps are taken, operations are refused for the documented reasons only, and what is refused or
has nothing to do leaves the tableau exactly as it was. -/
theorem run_guarded (o : Options) (s : Signed) (steps : List Step) : Guarded ((start o s).run steps) :=
  guarded_of_valid (valid_run o s steps)

end Tableau

end Tableaux
