import Mathlib
import Tableaux.Proofs.Integrity
import Tableaux.Proofs.Records
import Tableaux.Tableau.Snapshot

/-!
The accounts of a tableau. The number of open branches is kept up to date by every operation in its own way; after
every run it is the number of leaves from which an open way leads to the root, and it is never taken below zero. The
worklist, which nodes enter and leave for many reasons, holds exactly the nodes that can be developed.
-/

namespace Tableaux

namespace Forest

theorem leavesOutside_map {α β : Type} (g : α → β) (cut : β → Bool) (f : Forest α) :
    (f.map g).leavesOutside cut = (f.leavesOutside fun a => cut (g a)).map g := by
  induction f with
  | nil => rfl
  | cons a below beside ihb ihs =>
      rw [map, leavesOutside, leavesOutside, ihb, ihs, isEmpty_map, List.map_append]
      split
      · rfl
      · split <;> rfl

/-- Where marks agree, a leaf whose branch is open is a leaf that is open itself. -/
theorem MarksAgree.leavesOutside_eq {f : Forest Node} (h : f.MarksAgree) :
    f.leavesOutside Node.branchClosed = f.leaves.filter fun n => !n.branchClosed := by
  rw [leavesOutside_eq_heads, ← leaves_eq_heads [], List.filter_filterMap, List.filterMap_filter]
  apply List.filterMap_congr
  intro b hb
  obtain ⟨leaf, up, rfl, _⟩ := exists_cons_of_mem_branches hb
  cases hclosed : leaf.branchClosed with
  | true => simp [hclosed, Option.filter]
  | false =>
      have hopen : ((leaf :: up).all fun n => !n.branchClosed) = true := by
        rw [List.all_eq_true]
        intro n hn
        rw [h.openBranch hb hclosed n hn, Bool.not_false]
      simp [hopen, hclosed, Option.filter]

end Forest

/-- A node without children is the leaf of a branch, every other node is above one. -/
theorem Tree.leaf_or_above {t : Tree Node} {s : Site Node} (hs : s ∈ t.sites) :
    (s.tree.below = .nil ∧ s.tree.root :: s.above ∈ t.branches) ∨
      (s.tree.below ≠ .nil ∧ ∃ leaf up, leaf :: up ∈ t.branches ∧ s.tree.root ∈ up) := by
  by_cases hbelow : s.tree.below = .nil
  · refine Or.inl ⟨hbelow, Forest.mem_branches_of_site hs ?_⟩
    rw [toForest, hbelow, Forest.branches_cons_nil]
    exact List.mem_cons_self
  · refine Or.inr ⟨hbelow, ?_⟩
    obtain ⟨c, hc⟩ := List.exists_mem_of_ne_nil _ (Forest.branches_ne_nil hbelow [])
    obtain ⟨leaf, up, rfl, _⟩ := Forest.exists_cons_of_mem_branches hc
    refine ⟨leaf, up ++ s.tree.root :: s.above, Forest.mem_branches_of_site hs ?_, by simp⟩
    rw [toForest, Forest.branches_cons_of_ne hbelow, Forest.branches_eq_map]
    exact List.mem_append_left _ (List.mem_map_of_mem hc)

namespace Tree.Numbered

variable {t : Tree Node} (h : t.Numbered) {s : Site Node} (hs : s ∈ t.sites)
include h hs

/-- The leaves below a node end the branches through it. -/
theorem mem_leaves_site {leaf : Node} : leaf ∈ s.tree.leaves ↔ ∃ up, leaf :: up ∈ t.branches ∧
    s.tree.root ∈ leaf :: up := by
  rw [mem_leaves_iff]
  constructor
  · rintro ⟨up, hb⟩
    have hb' : leaf :: up ++ s.above ∈ s.tree.toForest.branches s.above := by
      rw [Forest.branches_eq_map]
      exact List.mem_map_of_mem hb
    exact ⟨up ++ s.above, Forest.mem_branches_of_site hs hb',
      (Forest.suffix_of_mem_branches_toForest hb').mem List.mem_cons_self⟩
  · rintro ⟨up, hb, hroot⟩
    obtain ⟨pre, above, heq⟩ := List.append_of_mem hroot
    rw [heq] at hb
    obtain ⟨s', hs', hroot', rfl, hmem⟩ := exists_site hb
    obtain rfl := h.site_eq_of_id_eq hs' hs (congrArg Node.id hroot')
    rw [← heq, Forest.branches_eq_map, List.mem_map] at hmem
    obtain ⟨c, hc, hceq⟩ := hmem
    obtain ⟨leaf', rest, rfl, _⟩ := Forest.exists_cons_of_mem_branches hc
    obtain ⟨rfl, _⟩ := List.cons.inj hceq
    exact ⟨rest, hc⟩

end Tree.Numbered

namespace Tableau

variable {t : Tableau} {id : Nat} {n : Node}

theorem exists_site_of_node (h : t.node id = .ok n) : ∃ s ∈ t.tree.sites, s.tree.root = n ∧ n.id = id := by
  obtain ⟨hn, hid⟩ := node_eq_ok h
  obtain ⟨s, hs, hroot⟩ := Forest.exists_site_of_mem_labels hn []
  exact ⟨s, hs, hroot, hid⟩

/-- A node is closed exactly if every leaf below it is. -/
theorem branchClosed_iff_leavesBelow (h : Coherent t) (hn : t.node id = .ok n) :
    n.branchClosed = true ↔
      ∀ l ∈ t.leavesBelow id, ∃ leaf, t.node l = .ok leaf ∧ leaf.branchClosed = true := by
  obtain ⟨s, hs, rfl, rfl⟩ := exists_site_of_node hn
  have hbelow : t.leavesBelow s.tree.root.id = s.tree.leaves.map Node.id := by
    rw [leavesBelow, subtree_site h.numbered hs]
  rw [hbelow]
  constructor
  · intro hclosed l hl
    obtain ⟨leaf, hleaf, rfl⟩ := List.mem_map.1 hl
    obtain ⟨up, hb, hroot⟩ := (h.numbered.mem_leaves_site hs).1 hleaf
    refine ⟨leaf, node_of_mem h.numbered (Tree.mem_labels_of_mem_branch hb List.mem_cons_self), ?_⟩
    by_contra hopen
    rw [h.agree.openBranch hb (Bool.not_eq_true _ ▸ hopen) _ hroot] at hclosed
    cases hclosed
  · intro hall
    by_contra hopen
    obtain ⟨leaf, up, hb, hroot, hleaf⟩ :=
      h.agree.exists_open_leaf (Forest.mem_labels_of_mem_sites hs) (Bool.not_eq_true _ ▸ hopen)
    have hmem := (h.numbered.mem_leaves_site hs).2 ⟨up, hb, hroot⟩
    obtain ⟨leaf', hnode, hclosed⟩ := hall leaf.id (List.mem_map_of_mem hmem)
    rw [node_of_mem h.numbered ((Forest.leaves_sublist_labels _).trans
      (Forest.labels_sublist_of_mem_sites hs) |>.mem hmem)] at hnode
    rw [← Except.ok.inj hnode, hleaf] at hclosed
    cases hclosed

/-- A node has the mark of a closed leaf exactly if it is one. -/
theorem closed_iff_leaf (h : Coherent t) (hr : Recorded t) (hn : t.node id = .ok n) :
    n.closed = true ↔ n.branchClosed = true ∧ t.children id = [] := by
  obtain ⟨s, hs, rfl, rfl⟩ := exists_site_of_node hn
  rw [children_site h.numbered hs]
  rcases Tree.leaf_or_above hs with ⟨hbelow, hb⟩ | ⟨hbelow, leaf, up, hb, hroot⟩
  · rw [hr.leaf _ _ hb, hbelow]
    simp [Forest.roots]
  · rw [hr.inner leaf up hb _ hroot]
    cases hcase : s.tree.below with
    | nil => exact absurd hcase hbelow
    | cons c below beside => simp [Forest.roots]

theorem leavesBelow_root (h : t.tree.Numbered) : t.leavesBelow t.tree.root.id = t.tree.leaves.map Node.id := by
  have hsub := subtree_site h (s := ⟨t.tree, []⟩) List.mem_cons_self
  rw [leavesBelow, hsub]

theorem openLeavesBelow_root (h : Coherent t) :
    t.openLeavesBelow t.tree.root.id = (t.tree.leaves.filter fun n => !n.branchClosed).map Node.id := by
  have hsub := subtree_site h.numbered (s := ⟨t.tree, []⟩) List.mem_cons_self
  rw [openLeavesBelow, hsub]
  simp only [h.agree.leavesOutside_eq]
  rfl

/-- The open branches are the leaves with nothing closed on the way to the root. -/
theorem openBranches_eq_paths (h : Coherent t) : t.openBranches =
    ((t.leavesBelow t.tree.root.id).filter fun l =>
      (t.tree.trail (·.id == l)).all fun n => !n.branchClosed).length := by
  rw [h.openBranches_eq, Tree.openCount, leavesBelow_root h.numbered, List.filter_map, List.length_map]
  congr 1
  apply List.filter_congr
  intro leaf hleaf
  obtain ⟨up, hb⟩ := Tree.mem_leaves_iff.1 hleaf
  rw [Function.comp_apply, h.numbered.trail_eq_branch hb]
  cases hclosed : leaf.branchClosed with
  | true => simp [hclosed]
  | false =>
      rw [Bool.not_false, eq_comm, List.all_eq_true]
      intro n hn
      rw [h.agree.openBranch hb hclosed n hn, Bool.not_false]

theorem length_openLeavesBelow_root (h : Coherent t) :
    (t.openLeavesBelow t.tree.root.id).length = t.openBranches := by
  rw [openLeavesBelow_root h, List.length_map, h.openBranches_eq]
  rfl

theorem openLeaves_snapshot (h : Coherent t) : t.snapshot.openLeaves = t.openBranches := by
  have hcut : (fun n : Node => n.snapshot.branchClosed) = Node.branchClosed := rfl
  rw [Snapshot.openLeaves, snapshot, Tree.toForest_map, Forest.leavesOutside_map, List.length_map, hcut,
    h.agree.leavesOutside_eq, h.openBranches_eq]
  rfl

/-- The step ends with a look at the open branches through a node: in the tableau as it is, in the one that the rule
of the node has been applied to, or, through the root, in the one that a node has been cut out of. -/
inductive Looks (t : Tableau) : Step → Tableau → Nat → Prop
  | checkClosed {id : Nat} {n : Node} : t.node id = .ok n → Looks t (.checkClosed id) t id
  | develop {id : Nat} {term : Option Term} {n : Node} {u : Tableau} : t.node id = .ok n → n.ticked = false →
      t.openLeavesBelow id ≠ [] → t.applyRule n (t.openLeavesBelow id) term = (true, u) →
      Looks t (.develop id term) u id
  | remove {id : Nat} {n : Node} : t.node id = .ok n → id ≠ t.tree.root.id →
      Looks t (.remove id) (t.excised id).cleared t.tree.root.id

/-- Steps that a search is made of. -/
def Elementary : Step → Prop
  | .checkClosed _ => True
  | .develop _ none => True
  | .defer _ => True
  | _ => False

/-- A search is a run of elementary steps. -/
theorem exists_run_eq_search (t : Tableau) (limits : Limits) :
    ∃ steps, (∀ step ∈ steps, Elementary step) ∧ (t.search limits).2 = t.run steps := by
  have hsnoc : ∀ (u : Tableau) (step : Step), Elementary step →
      (∃ steps, (∀ step ∈ steps, Elementary step) ∧ u = t.run steps) →
      ∃ steps, (∀ step ∈ steps, Elementary step) ∧ (u.perform step).2 = t.run steps := by
    rintro u step hstep ⟨steps, hsteps, rfl⟩
    refine ⟨steps ++ [step], fun r hr => ?_, (run_append t steps [step]).symm⟩
    rcases List.mem_append.1 hr with hr | hr
    · exact hsteps r hr
    · rw [List.mem_singleton.1 hr]
      exact hstep
  refine search_induction (P := fun u => ∃ steps, (∀ step ∈ steps, Elementary step) ∧ u = t.run steps)
    (fun u id h => hsnoc u (.checkClosed id) trivial h) (fun u id h => hsnoc u (.develop id none) trivial h)
    (fun u id h => hsnoc u (.defer id) trivial h) limits ⟨[], fun step hstep => ?_, rfl⟩
  cases hstep

theorem Looks.spec (h : Valid t) {step : Step} {u : Tableau} (hlooks : t.Looks step u id) :
    Coherent u ∧ (t.perform step).2 = (u.closeBranches id).1 := by
  cases hlooks with
  | checkClosed hnode =>
      refine ⟨h.toCoherent, ?_⟩
      rw [perform, Tableau.checkClosed, hnode]
  | @develop _ term n _ hnode hticked hleaves hrule =>
      obtain ⟨hn, rfl⟩ := node_eq_ok hnode
      have hclosed : n.branchClosed = false := by
        rw [← Bool.not_eq_true, ← openLeavesBelow_eq_nil h.toCoherent hn]
        exact hleaves
      obtain ⟨e, he, _, hvalid⟩ := applied_waiting h hn hticked hclosed term
      obtain rfl := (Prod.mk.inj ((applyRule_eq he _).symm.trans hrule)).2
      refine ⟨hvalid.toCoherent, ?_⟩
      rw [perform, develop_eq h hnode hticked hclosed he]
  | remove hnode hroot =>
      refine ⟨(valid_cleared_excised h _).toCoherent, ?_⟩
      rcases remove_cases t _ with ⟨_, hnode', _⟩ | ⟨hroot', _⟩ | ⟨_, _, _, heq⟩
      · rw [hnode] at hnode'
        cases hnode'
      · exact absurd hroot' hroot
      · rw [perform, heq]

/-- Before each look at a leaf there is an open branch left: that of the leaf. -/
theorem openBranches_pos (h : Coherent t) {pre post : List Nat} {leaf : Nat}
    (hleaves : t.openLeavesBelow id = pre ++ leaf :: post) :
    0 < (pre.foldl (fun t leaf => (t.checkLeaf leaf).1) t).openBranches := by
  have hnodup := nodup_openLeavesBelow h.numbered id
  have hopen := openLeaves_openLeavesBelow h id
  rw [hleaves] at hnodup hopen
  obtain ⟨hcoherent, hopen', _⟩ :=
    foldl_checkLeaf_induction (P := fun _ => True) (fun _ _ _ _ _ _ _ => trivial) h hnodup hopen trivial
  obtain ⟨l, up, hb, _, hclosed⟩ := hopen' leaf List.mem_cons_self
  rw [Nat.pos_iff_ne_zero, Ne, hcoherent.openBranches_eq_zero]
  intro hall
  rw [hall l up hb] at hclosed
  cases hclosed

/-- A step that looks at no branches leaves their number as it is. -/
theorem openBranches_of_not_looks (h : Valid t) {step : Step} (hsearch : ∀ limits, step ≠ .search limits)
    (hlooks : ∀ u id, ¬ t.Looks step u id) : (t.perform step).2.openBranches = t.openBranches := by
  cases step with
  | assume s =>
      rcases assume_cases t s with ⟨_, heq⟩ | ⟨leaf, up, _, _, heq⟩
      · rw [perform, heq]
      · rw [perform, heq]
        rfl
  | develop id term =>
      rcases develop_cases h id term with ⟨_, _, heq⟩ | ⟨_, _, _, heq⟩ | ⟨n, e, _, hnode, hticked, hclosed, he, _⟩
      · rw [perform, heq]
      · rw [perform, heq]
      · obtain ⟨hn, rfl⟩ := node_eq_ok hnode
        refine absurd (.develop hnode hticked ?_ (applyRule_eq he _)) (hlooks _ _)
        rw [Ne, openLeavesBelow_eq_nil h.toCoherent hn, hclosed]
        exact Bool.false_ne_true
  | remove id =>
      rcases remove_cases t id with ⟨_, _, heq⟩ | ⟨_, heq⟩ | ⟨n, hnode, hroot, _⟩
      · rw [perform, heq]
      · rw [perform, heq]
      · exact absurd (.remove hnode hroot) (hlooks _ _)
  | checkClosed id =>
      cases hnode : t.node id with
      | error refusal => rw [perform, checkClosed, hnode]
      | ok n => exact absurd (.checkClosed hnode) (hlooks _ _)
  | defer id =>
      rcases defer_cases t id with heq | heq
      · rw [perform, heq]
      · rw [perform, heq, sendToBack_eq]
  | search limits => exact absurd rfl (hsearch limits)

end Tableau

/-- Marks and counts of open branches fit together, and no step takes the count below zero. -/
structure Accounted (t : Tableau) : Prop where
  branchClosed : ∀ id n, t.node id = .ok n → (n.branchClosed = true ↔
    ∀ l ∈ t.leavesBelow id, ∃ leaf, t.node l = .ok leaf ∧ leaf.branchClosed = true)
  closed : ∀ id n, t.node id = .ok n → (n.closed = true ↔ n.branchClosed = true ∧ t.children id = [])
  /-- The open branches are the leaves with nothing closed on their way to the root. -/
  paths : t.openBranches = ((t.leavesBelow t.tree.root.id).filter fun l =>
    (t.tree.trail (·.id == l)).all fun n => !n.branchClosed).length
  openLeaves : ∃ ids, t.openLeaves t.tree.root.id = .ok ids ∧ ids.length = t.openBranches
  snapshot : t.snapshot.openLeaves = t.openBranches
  /-- When a step looks at a leaf, which may then be closed and counted off, the count is not zero. -/
  positive : ∀ step u id, t.Looks step u id → (t.perform step).2 = (u.closeBranches id).1 ∧
    ∀ pre leaf post, u.openLeavesBelow id = pre ++ leaf :: post →
      0 < (pre.foldl (fun u leaf => (u.checkLeaf leaf).1) u).openBranches
  unchanged : ∀ step, (∀ limits, step ≠ .search limits) → (∀ u id, ¬ t.Looks step u id) →
    (t.perform step).2.openBranches = t.openBranches
  search : ∀ limits, ∃ steps, (∀ step ∈ steps, Tableau.Elementary step) ∧ (t.search limits).2 = t.run steps

/-- The worklist is what it should be: each node that is neither ticked nor closed waits on it once, nothing else
does, and whatever waits can be developed, whether a term is given or not. -/
structure Punctual (t : Tableau) : Prop where
  nodup : t.worklist.Nodup
  waiting : ∀ id, id ∈ t.worklist ↔ ∃ n, t.node id = .ok n ∧ n.ticked = false ∧ n.branchClosed = false
  developed : ∀ id ∈ t.worklist, ∀ term, (t.develop id term).1 = .ok true

namespace Tableau

variable {t : Tableau}

/-- The accounts of open branches are right after every run of a session. -/
theorem run_accounted (o : Options) (s : Signed) (steps : List Step) : Accounted ((start o s).run steps) := by
  have hvalid := valid_run o s steps
  have hcoherent := hvalid.toCoherent
  constructor
  case branchClosed => exact fun id n hn => branchClosed_iff_leavesBelow hcoherent hn
  case closed => exact fun id n hn => closed_iff_leaf hcoherent (recorded_run o s steps) hn
  case paths => exact openBranches_eq_paths hcoherent
  case openLeaves =>
    refine ⟨_, ?_, length_openLeavesBelow_root hcoherent⟩
    rw [openLeaves, node_root hvalid.numbered]
    rfl
  case snapshot => exact openLeaves_snapshot hcoherent
  case positive =>
    intro step u id hlooks
    obtain ⟨hu, heq⟩ := hlooks.spec hvalid
    exact ⟨heq, fun pre leaf post hleaves => openBranches_pos hu hleaves⟩
  case unchanged => exact fun step hsearch hlooks => openBranches_of_not_looks hvalid hsearch hlooks
  case search => exact exists_run_eq_search _

theorem waiting_iff_node (h : Valid t) (id : Nat) :
    id ∈ t.worklist ↔ ∃ n, t.node id = .ok n ∧ n.ticked = false ∧ n.branchClosed = false := by
  rw [h.waiting id]
  constructor
  · rintro ⟨n, hn, rfl, hfacts⟩
    exact ⟨n, node_of_mem h.numbered hn, hfacts⟩
  · rintro ⟨n, hnode, hfacts⟩
    obtain ⟨hn, hid⟩ := node_eq_ok hnode
    exact ⟨n, hn, hid, hfacts⟩

/-- The worklist is what it should be after every run of a session. -/
theorem run_punctual (o : Options) (s : Signed) (steps : List Step) : Punctual ((start o s).run steps) := by
  have hvalid := valid_run o s steps
  refine ⟨hvalid.nodup, waiting_iff_node hvalid, ?_⟩
  intro id hid term
  obtain ⟨n, hnode, hticked, hclosed⟩ := (waiting_iff_node hvalid id).1 hid
  obtain ⟨hn, rfl⟩ := node_eq_ok hnode
  obtain ⟨e, he, _, _⟩ := applied_waiting hvalid hn hticked hclosed term
  rw [develop_eq hvalid hnode hticked hclosed he]

end Tableau

end Tableaux
