import Mathlib
import Tableaux.Proofs.Growth
import Tableaux.Proofs.Marks

/-!
Closing of branches. It sets marks and takes nodes off the worklist, and nothing else. A look along a branch that
finds no contradiction shows that the branch has none, since the nodes it skips were compared with the same nodes
above them before; a leaf is closed only where two nodes on its branch contradict each other.
-/

namespace Tableaux

/-- The second node is the first with more marks of closing. -/
structure Node.MarkedTo (n m : Node) : Prop where
  id : m.id = n.id
  signed : m.signed = n.signed
  origin : m.origin = n.origin
  ticked : m.ticked = n.ticked
  instances : m.instances = n.instances
  closed : n.closed = true → m.closed = true
  branchClosed : n.branchClosed = true → m.branchClosed = true
  contradictory : n.contradictory = true → m.contradictory = true
  compared : n.compared = true → m.compared = true

namespace Node.MarkedTo

theorem refl (n : Node) : n.MarkedTo n := by
  constructor <;> first | rfl | exact fun h => h

theorem trans {n m k : Node} (h : n.MarkedTo m) (h' : m.MarkedTo k) : n.MarkedTo k where
  id := h'.id.trans h.id
  signed := h'.signed.trans h.signed
  origin := h'.origin.trans h.origin
  ticked := h'.ticked.trans h.ticked
  instances := h'.instances.trans h.instances
  closed hn := h'.closed (h.closed hn)
  branchClosed hn := h'.branchClosed (h.branchClosed hn)
  contradictory hn := h'.contradictory (h.contradictory hn)
  compared hn := h'.compared (h.compared hn)

theorem of_closesTo {n m : Node} (h : n.ClosesTo m) : n.MarkedTo m := by
  obtain ⟨heq, hclosed⟩ := h
  constructor
  case branchClosed => exact hclosed
  all_goals rw [heq]
  all_goals exact fun h => h

end Node.MarkedTo

/-- The second tableau is the first with more marks of closing and fewer waiting nodes. -/
structure Tableau.ClosesTo (t t' : Tableau) : Prop where
  tree : Forest.Rel Node.MarkedTo t.tree.toForest t'.tree.toForest
  options : t'.options = t.options
  slots : t'.slots = t.slots
  nodeCount : t'.nodeCount = t.nodeCount
  terms : t'.terms = t.terms
  names : t'.names = t.names
  worklist : t'.worklist.Sublist t.worklist

theorem Signed.contradicts_self (s : Signed) : s.contradicts s = false := by
  simp [contradicts]

theorem Signed.contradicts_comm (s r : Signed) : s.contradicts r = r.contradicts s := by
  simp only [contradicts, bne_comm (a := s.value), eq_comm (a := s.formula)]

/-- No two nodes of the branch contradict each other. -/
def Consistent (b : List Node) : Prop :=
  b.Pairwise fun n m => n.contradicts m = false

theorem consistent_iff_signed {b : List Node} :
    Consistent b ↔ (b.map Node.signed).Pairwise fun s r => s.contradicts r = false := by
  rw [List.pairwise_map]
  rfl

/-- What closing does not change is the same along a branch. -/
theorem map_eq_of_marked {α : Type} {f : Node → α} (hf : ∀ {n m : Node}, n.MarkedTo m → f m = f n) {b b' : List Node}
    (h : List.Forall₂ Node.MarkedTo b b') : b'.map f = b.map f := by
  induction h with
  | nil => rfl
  | cons hnm _ ih => rw [List.map_cons, List.map_cons, hf hnm, ih]

theorem openBranch_of_marked {b b' : List Node} (h : List.Forall₂ Node.MarkedTo b b') (hopen : OpenBranch b') :
    OpenBranch b := by
  intro n hn
  obtain ⟨m, hm, hnm⟩ := exists_of_forall₂_left h hn
  rw [← Bool.not_eq_true]
  intro hclosed
  have hmopen := hopen m hm
  rw [hnm.branchClosed hclosed] at hmopen
  cases hmopen

namespace Tableau.ClosesTo

variable {t t' t'' : Tableau}

theorem refl (t : Tableau) : t.ClosesTo t :=
  ⟨.refl Node.MarkedTo.refl _, rfl, rfl, rfl, rfl, rfl, .refl _⟩

theorem trans (h : t.ClosesTo t') (h' : t'.ClosesTo t'') : t.ClosesTo t'' where
  tree := h.tree.trans h'.tree fun _ _ _ => Node.MarkedTo.trans
  options := h'.options.trans h.options
  slots := h'.slots.trans h.slots
  nodeCount := h'.nodeCount.trans h.nodeCount
  terms := h'.terms.trans h.terms
  names := h'.names.trans h.names
  worklist := h'.worklist.trans h.worklist

variable (h : t.ClosesTo t')
include h

theorem indexed (ht : Indexed t) : Indexed t' :=
  ht.of_rel h.tree (fun _ _ hnm => hnm.id) h.slots h.nodeCount

theorem exists_label {m : Node} (hm : m ∈ t'.tree.labels) : ∃ n ∈ t.tree.labels, n.MarkedTo m :=
  exists_of_forall₂_right h.tree.labels hm

theorem exists_marked {n : Node} (hn : n ∈ t.tree.labels) : ∃ m ∈ t'.tree.labels, n.MarkedTo m :=
  exists_of_forall₂_left h.tree.labels hn

theorem exists_branch {b' : List Node} (hb' : b' ∈ t'.tree.branches) :
    ∃ b ∈ t.tree.branches, List.Forall₂ Node.MarkedTo b b' :=
  exists_of_forall₂_right (h.tree.branches .nil) hb'

theorem exists_marked_branch {b : List Node} (hb : b ∈ t.tree.branches) :
    ∃ b' ∈ t'.tree.branches, List.Forall₂ Node.MarkedTo b b' :=
  exists_of_forall₂_left (h.tree.branches .nil) hb

theorem exists_path {b : List Node} (hpath : t.tree.branches = [b]) :
    ∃ b', t'.tree.branches = [b'] ∧ List.Forall₂ Node.MarkedTo b b' := by
  have hbranches : List.Forall₂ (List.Forall₂ Node.MarkedTo) t.tree.branches t'.tree.branches := h.tree.branches .nil
  rw [hpath] at hbranches
  obtain ⟨b', _, hb', hnil, heq⟩ := List.forall₂_cons_left_iff.1 hbranches
  rw [List.forall₂_nil_left_iff.1 hnil] at heq
  exact ⟨b', heq, hb'⟩

theorem root_id : t'.tree.root.id = t.tree.root.id := by
  have htree := h.tree
  rw [Tree.toForest, Tree.toForest] at htree
  cases htree with
  | cons hroot _ _ => exact hroot.id

end Tableau.ClosesTo

namespace Scan

/-- A node that has passed has nothing above it that contradicts it. -/
theorem exists_of_mem_passed {b : List Node} {id : Nat} (hid : id ∈ (ofBranch b).passed) :
    ∃ pre n up, b = pre ++ n :: up ∧ n.id = id ∧ ∀ m ∈ up, n.contradicts m = false := by
  induction b with
  | nil => cases hid
  | cons n above ih =>
      rw [ofBranch] at hid
      have lift : id ∈ (ofBranch above).passed →
          ∃ pre n' up, n :: above = pre ++ n' :: up ∧ n'.id = id ∧ ∀ m ∈ up, n'.contradicts m = false := by
        intro hid
        obtain ⟨pre, n', up, heq, hn', hup⟩ := ih hid
        exact ⟨n :: pre, n', up, by rw [heq]; rfl, hn', hup⟩
      split at hid
      · exact lift hid
      · split at hid
        · cases hid
        · rename_i hnone
          rcases List.mem_cons.1 hid with rfl | hid
          · refine ⟨[], n, above, rfl, rfl, fun m hm => ?_⟩
            simpa using List.find?_eq_none.1 hnone m hm
          · exact lift hid

/-- A clash names two nodes of the branch that contradict each other. -/
theorem exists_pair_of_clash {b : List Node} {pair : Nat × Nat} (h : (ofBranch b).clash = some pair) :
    ∃ n ∈ b, ∃ m ∈ b, n.contradicts m = true ∧ pair = (n.id, m.id) := by
  induction b with
  | nil => cases h
  | cons n above ih =>
      have lift : (ofBranch above).clash = some pair →
          ∃ n' ∈ n :: above, ∃ m ∈ n :: above, n'.contradicts m = true ∧ pair = (n'.id, m.id) := by
        intro h
        obtain ⟨n', hn', m, hm, hfacts⟩ := ih h
        exact ⟨n', List.mem_cons_of_mem _ hn', m, List.mem_cons_of_mem _ hm, hfacts⟩
      rw [ofBranch] at h
      split at h
      · exact lift h
      · split at h
        · rename_i m hsome
          exact ⟨n, List.mem_cons_self, m, List.mem_cons_of_mem _ (List.mem_of_find?_eq_some hsome),
            List.find?_some hsome, (Option.some.inj h).symm⟩
        · exact lift h

/-- Without a clash, every node of the branch has been compared by now. -/
theorem mem_passed_of_clash_eq_none {b : List Node} (h : (ofBranch b).clash = none) :
    ∀ n ∈ b, n.compared = true ∨ n.id ∈ (ofBranch b).passed := by
  induction b with
  | nil => exact fun n hn => by cases hn
  | cons n above ih =>
      rw [ofBranch] at h ⊢
      intro m hm
      split at h
      · rename_i hcompared
        rw [if_pos hcompared]
        rcases List.mem_cons.1 hm with rfl | hm
        · exact Or.inl hcompared
        · exact ih h m hm
      · rename_i hcompared
        rw [if_neg hcompared]
        split at h
        · cases h
        · rcases List.mem_cons.1 hm with rfl | hm
          · exact Or.inr List.mem_cons_self
          · exact (ih h m hm).imp_right (List.mem_cons_of_mem _)

end Scan

/-- The marks of closing and the worklist are up to date: an inner node is closed exactly if all its children are, and
the nodes that wait are those that are neither ticked nor closed. -/
structure Marked (t : Tableau) : Prop where
  agree : t.tree.toForest.MarksAgree
  nodup : t.worklist.Nodup
  waiting : ∀ id, id ∈ t.worklist ↔ ∃ n ∈ t.tree.labels, n.id = id ∧ n.ticked = false ∧ n.branchClosed = false

/-- The number of leaves that end an open branch. -/
def Tree.openCount (tree : Tree Node) : Nat :=
  (tree.leaves.filter fun n => !n.branchClosed).length

/-- What comparing nodes and closing leaves has found out is true. -/
structure Judged (t : Tableau) : Prop where
  compared : ∀ b ∈ t.tree.branches, b.Pairwise fun n m => n.compared = true → n.contradicts m = false
  refuted : ∀ leaf up, leaf :: up ∈ t.tree.branches → leaf.branchClosed = true →
    ∃ n ∈ leaf :: up, ∃ m ∈ leaf :: up, n.contradicts m = true

/-- The bookkeeping of a tableau is right: numbers, marks, worklist, comparisons and the number of open branches. -/
structure Coherent (t : Tableau) : Prop extends Indexed t, Marked t, Judged t where
  openBranches_eq : t.openBranches = t.tree.openCount

theorem Coherent.openBranches_eq_zero {t : Tableau} (h : Coherent t) :
    t.openBranches = 0 ↔ ∀ leaf up, leaf :: up ∈ t.tree.branches → leaf.branchClosed = true := by
  rw [h.openBranches_eq, Tree.openCount, List.length_eq_zero_iff, List.filter_eq_nil_iff]
  constructor
  · intro hclosed leaf up hb
    simpa using hclosed leaf (Tree.mem_leaves_iff.2 ⟨up, hb⟩)
  · intro hclosed leaf hleaf
    obtain ⟨up, hb⟩ := Tree.mem_leaves_iff.1 hleaf
    simpa using hclosed leaf up hb

namespace Tableau

variable {t : Tableau}

/-- The node with what a look along a branch has found about it. -/
def recordNode (scan : Scan) (n : Node) : Node :=
  { n with
    compared := n.compared || scan.passed.contains n.id
    contradictory := n.contradictory || scan.clash.any fun pair => n.id == pair.1 || n.id == pair.2 }

theorem tree_recordScan (t : Tableau) (scan : Scan) :
    (t.recordScan scan).tree = t.tree.map (recordNode scan) := rfl

theorem closesTo_recordScan (t : Tableau) (scan : Scan) : t.ClosesTo (t.recordScan scan) where
  tree := by
    rw [tree_recordScan, Tree.toForest_map]
    apply Forest.Rel.of_map
    intro n
    constructor <;> first | rfl | simp_all [recordNode]
  options := rfl
  slots := rfl
  nodeCount := rfl
  terms := rfl
  names := rfl
  worklist := .refl _

/-- The node with the given number becomes a closed leaf. -/
def closeNode (leaf : Nat) (n : Node) : Node :=
  if n.id = leaf then { n with closed := true, branchClosed := true } else n

theorem markedTo_closeNode (leaf : Nat) (n : Node) : n.MarkedTo (closeNode leaf n) := by
  rw [closeNode]
  split
  · constructor <;> first | rfl | simp
  · exact .refl n

theorem tree_closeLeaf (t : Tableau) (leaf : Nat) :
    (t.closeLeaf leaf).tree.toForest = (t.tree.toForest.map (closeNode leaf)).closeInner := rfl

theorem closesTo_closeLeaf (t : Tableau) (leaf : Nat) : t.ClosesTo (t.closeLeaf leaf) where
  tree := by
    rw [tree_closeLeaf]
    exact (Forest.Rel.of_map (markedTo_closeNode leaf) _).trans (Forest.rel_closeInner _)
      fun _ _ _ h h' => h.trans (.of_closesTo h')
  options := rfl
  slots := rfl
  nodeCount := rfl
  terms := rfl
  names := rfl
  worklist := List.filter_sublist

theorem leaves_closeLeaf (t : Tableau) (leaf : Nat) :
    (t.closeLeaf leaf).tree.leaves = t.tree.leaves.map (closeNode leaf) := by
  rw [Tree.leaves, tree_closeLeaf, Forest.leaves_closeInner, Forest.leaves_map]
  rfl

/-- Marks that do not close anything leave the worklist and the closed nodes up to date. -/
theorem marked_of_map {t' : Tableau} {g : Node → Node} (h : Marked t) (htree : t'.tree = t.tree.map g)
    (hworklist : t'.worklist = t.worklist)
    (hg : ∀ n, (g n).id = n.id ∧ (g n).ticked = n.ticked ∧ (g n).branchClosed = n.branchClosed) : Marked t' where
  agree := by
    rw [htree, Tree.toForest_map]
    exact h.agree.map fun n => (hg n).2.2
  nodup := by
    rw [hworklist]
    exact h.nodup
  waiting := by
    intro id
    rw [hworklist, h.waiting, htree, Tree.labels_map]
    simp [hg]

theorem openCount_map {g : Node → Node} (hg : ∀ n, (g n).branchClosed = n.branchClosed) (tree : Tree Node) :
    (tree.map g).openCount = tree.openCount := by
  rw [Tree.openCount, Tree.leaves, Tree.toForest_map, Forest.leaves_map, List.filter_map, List.length_map]
  simp only [Function.comp_def, hg]
  rfl

theorem marked_recordScan (h : Marked t) (scan : Scan) : Marked (t.recordScan scan) :=
  marked_of_map h (tree_recordScan t scan) rfl fun _ => ⟨rfl, rfl, rfl⟩

section Leaf

variable {leaf : Node} {up : List Node}

/-- What has been recorded of a look along a branch is true. -/
theorem judged_recordScan (hi : Indexed t) (h : Judged t) (hleaf : leaf :: up ∈ t.tree.branches) :
    Judged (t.recordScan (Scan.ofBranch (leaf :: up))) where
  compared := by
    intro b' hb'
    rw [tree_recordScan, Tree.branches_map, List.mem_map] at hb'
    obtain ⟨b, hb, rfl⟩ := hb'
    rw [List.pairwise_map, List.pairwise_iff_forall_sublist]
    intro n m hsub hn
    change n.contradicts m = false
    rw [recordNode, Bool.or_eq_true, List.contains_iff_mem] at hn
    rcases hn with hn | hn
    · exact List.pairwise_iff_forall_sublist.1 (h.compared b hb) hsub hn
    · -- a node that has just passed has the same nodes above it on every branch
      obtain ⟨pre, n', above, heq, hid, habove⟩ := Scan.exists_of_mem_passed hn
      obtain ⟨pre', above', hb', hm⟩ : ∃ pre' above', b = pre' ++ n :: above' ∧ m ∈ above' := by
        obtain ⟨l, r, rfl, hl, hr⟩ := List.cons_sublist_iff.1 hsub
        obtain ⟨pre', above', rfl⟩ := List.append_of_mem hl
        exact ⟨pre', above' ++ r, by simp, List.mem_append_right _ (List.singleton_sublist.1 hr)⟩
      rw [heq] at hleaf
      rw [hb'] at hb
      obtain ⟨rfl, rfl⟩ := hi.numbered.above_eq_of_id_eq hleaf hb hid
      exact habove m hm
  refuted := by
    intro leaf' up' hb' hclosed
    rw [tree_recordScan, Tree.branches_map, List.mem_map] at hb'
    obtain ⟨b, hb, heq⟩ := hb'
    obtain ⟨n, above, rfl⟩ := Tree.exists_cons_of_mem_branches hb
    rw [← heq]
    obtain ⟨rfl, rfl⟩ := List.cons.inj heq
    obtain ⟨n', hn', m', hm', hcontra⟩ := h.refuted n above hb hclosed
    exact ⟨_, List.mem_map_of_mem hn', _, List.mem_map_of_mem hm', hcontra⟩

theorem agree_closeLeaf (hi : Indexed t) (h : Marked t) (hleaf : leaf :: up ∈ t.tree.branches) :
    (t.closeLeaf leaf.id).tree.toForest.MarksAgree := by
  rw [tree_closeLeaf]
  apply Forest.marksAgree_closeInner
  apply h.agree.closedDown_map fun n => (markedTo_closeNode leaf.id n).branchClosed
  intro s hs hchanged
  apply hi.numbered.below_eq_nil_of_leaf hleaf hs
  by_contra hid
  rw [closeNode, if_neg hid] at hchanged
  exact hchanged rfl

theorem mem_worklist_closeLeaf (t : Tableau) (leaf id : Nat) :
    id ∈ (t.closeLeaf leaf).worklist ↔
      id ∈ t.worklist ∧ ∀ m ∈ (t.closeLeaf leaf).tree.labels, m.id = id → m.branchClosed = false := by
  rw [closeLeaf, List.mem_filter, Bool.not_eq_true', closedAt, List.any_eq_false]
  simp

theorem marked_closeLeaf (hi : Indexed t) (h : Marked t) (hleaf : leaf :: up ∈ t.tree.branches) :
    Marked (t.closeLeaf leaf.id) where
  agree := agree_closeLeaf hi h hleaf
  nodup := h.nodup.sublist (closesTo_closeLeaf t leaf.id).worklist
  waiting := by
    have hcloses := closesTo_closeLeaf t leaf.id
    intro id
    rw [mem_worklist_closeLeaf, h.waiting]
    constructor
    · rintro ⟨⟨n, hn, rfl, hticked, _⟩, hopen⟩
      obtain ⟨m, hm, hnm⟩ := hcloses.exists_marked hn
      exact ⟨m, hm, hnm.id, hnm.ticked.trans hticked, hopen m hm hnm.id⟩
    · rintro ⟨m, hm, rfl, hticked, hopen⟩
      obtain ⟨n, hn, hnm⟩ := hcloses.exists_label hm
      refine ⟨⟨n, hn, hnm.id.symm, hnm.ticked.symm.trans hticked, ?_⟩, ?_⟩
      · rw [← Bool.not_eq_true]
        intro hclosed
        rw [hnm.branchClosed hclosed] at hopen
        cases hopen
      · intro m' hm' hid
        rw [(hcloses.indexed hi).numbered.eq_of_id_eq hm' hm hid]
        exact hopen

theorem rel_closeLeaf (t : Tableau) (leaf : Nat) :
    Forest.Rel (fun n m => m.signed = n.signed ∧ m.compared = n.compared) t.tree.toForest
      (t.closeLeaf leaf).tree.toForest := by
  rw [tree_closeLeaf]
  refine (@Forest.Rel.of_map _ _ (fun n m => m.signed = n.signed ∧ m.compared = n.compared) _ ?_ _).trans
    (Forest.rel_closeInner _) ?_
  · intro n
    rw [closeNode]
    split <;> exact ⟨rfl, rfl⟩
  · rintro n m k ⟨hsigned, hcompared⟩ ⟨heq, _⟩
    rw [heq]
    exact ⟨hsigned, hcompared⟩

/-- A leaf that is closed after one leaf has been closed is that one, or was closed before. -/
theorem closed_before_closeLeaf (hi : Indexed t) {id : Nat} {n m : Node} {above above' : List Node}
    (hb : n :: above ∈ t.tree.branches) (hm : m :: above' ∈ (t.closeLeaf id).tree.branches) (hnm : n.MarkedTo m)
    (hclosed : m.branchClosed = true) (hid : n.id ≠ id) : n.branchClosed = true := by
  have hleaf : m ∈ (t.closeLeaf id).tree.leaves := Tree.mem_leaves_iff.2 ⟨above', hm⟩
  rw [leaves_closeLeaf, List.mem_map] at hleaf
  obtain ⟨n', hn', rfl⟩ := hleaf
  have hsame : n'.id = n.id := (markedTo_closeNode id n').id.symm.trans hnm.id
  obtain ⟨above'', hb'⟩ := Tree.mem_leaves_iff.1 hn'
  obtain ⟨rfl, _⟩ := hi.numbered.eq_of_leaf_id_eq hb' hb hsame
  rwa [closeNode, if_neg hid] at hclosed

theorem judged_closeLeaf (hi : Indexed t) (h : Judged t) (hleaf : leaf :: up ∈ t.tree.branches)
    (hclash : ∃ n ∈ leaf :: up, ∃ m ∈ leaf :: up, n.contradicts m = true) : Judged (t.closeLeaf leaf.id) where
  compared := by
    intro b' hb'
    obtain ⟨b, hb, hbb'⟩ := exists_of_forall₂_right ((rel_closeLeaf t leaf.id).branches .nil) hb'
    apply pairwise_of_forall₂ hbb' ?_ (h.compared b hb)
    rintro n m n' m' ⟨hn, hcompared⟩ ⟨hm, _⟩ hnm
    rw [Node.contradicts, hn, hm, hcompared]
    exact hnm
  refuted := by
    intro leaf' up' hb' hclosed
    obtain ⟨b, hb, hbb'⟩ := (closesTo_closeLeaf t leaf.id).exists_branch hb'
    obtain ⟨n, hn, m, hm, hcontra⟩ : ∃ n ∈ b, ∃ m ∈ b, n.contradicts m = true := by
      cases hbb' with
      | @cons l _ above _ hmarked hup =>
          by_cases hid : l.id = leaf.id
          · obtain ⟨rfl, rfl⟩ := hi.numbered.eq_of_leaf_id_eq hb hleaf hid
            exact hclash
          · exact h.refuted l above hb (closed_before_closeLeaf hi hb hb' hmarked hclosed hid)
    obtain ⟨n', hn', hnn'⟩ := exists_of_forall₂_left hbb' hn
    obtain ⟨m', hm', hmm'⟩ := exists_of_forall₂_left hbb' hm
    refine ⟨n', hn', m', hm', ?_⟩
    rw [Node.contradicts, hnn'.signed, hmm'.signed]
    exact hcontra

theorem openLeaves_closeLeaf {leaves : List Nat} {id : Nat} (hopen : OpenLeaves t leaves) (hid : id ∉ leaves) :
    OpenLeaves (t.closeLeaf id) leaves := by
  intro l hl
  obtain ⟨n, above, hb, rfl, hclosed⟩ := hopen l hl
  have hleaf : closeNode id n ∈ (t.closeLeaf id).tree.leaves := by
    rw [leaves_closeLeaf]
    exact List.mem_map_of_mem (Tree.mem_leaves_iff.2 ⟨above, hb⟩)
  have hne : n.id ≠ id := by
    rintro rfl
    exact hid hl
  rw [closeNode, if_neg hne] at hleaf
  obtain ⟨above', hb'⟩ := Tree.mem_leaves_iff.1 hleaf
  exact ⟨n, above', hb', rfl, hclosed⟩

/-- Closing an open leaf makes one open branch less. -/
theorem openCount_closeLeaf (hi : Indexed t) (hleaf : leaf :: up ∈ t.tree.branches)
    (hopen : leaf.branchClosed = false) : (t.closeLeaf leaf.id).tree.openCount + 1 = t.tree.openCount := by
  have hmem : leaf ∈ t.tree.leaves := Tree.mem_leaves_iff.2 ⟨up, hleaf⟩
  have hnodup : (t.tree.leaves.map Node.id).Nodup :=
    ((Forest.leaves_sublist_labels t.tree.toForest).map Node.id).nodup hi.numbered
  rw [Tree.openCount, Tree.openCount, leaves_closeLeaf]
  generalize t.tree.leaves = leaves at hmem hnodup
  have hsame : ∀ l : List Node, leaf.id ∉ l.map Node.id → l.map (closeNode leaf.id) = l := by
    intro l hl
    conv_rhs => rw [← List.map_id l]
    apply List.map_congr_left
    intro n hn
    rw [closeNode, if_neg fun heq => hl (List.mem_map.2 ⟨n, hn, heq⟩)]
    rfl
  obtain ⟨pre, post, rfl⟩ := List.append_of_mem hmem
  rw [List.map_append, List.map_cons, List.nodup_append, List.nodup_cons] at hnodup
  obtain ⟨_, ⟨hpost, _⟩, hpre⟩ := hnodup
  have hpre : leaf.id ∉ pre.map Node.id := fun hin => hpre _ hin _ List.mem_cons_self rfl
  rw [List.map_append, List.map_cons, hsame pre hpre, hsame post hpost]
  simp [closeNode, hopen]
  omega

theorem closesTo_checkLeaf (t : Tableau) (id : Nat) : t.ClosesTo (t.checkLeaf id).1 := by
  rw [checkLeaf]
  split
  · exact (closesTo_recordScan t _).trans (closesTo_closeLeaf _ id)
  · exact closesTo_recordScan t _

theorem coherent_recordScan (h : Coherent t) (hleaf : leaf :: up ∈ t.tree.branches) :
    Coherent (t.recordScan (Scan.ofBranch (leaf :: up))) where
  toIndexed := (closesTo_recordScan t _).indexed h.toIndexed
  toMarked := marked_recordScan h.toMarked _
  toJudged := judged_recordScan h.toIndexed h.toJudged hleaf
  openBranches_eq := by
    rw [tree_recordScan, openCount_map (g := recordNode _) fun n => rfl]
    exact h.openBranches_eq

/-- The branch of a leaf after a look along it has been recorded. -/
theorem recorded_mem_branches (scan : Scan) (hleaf : leaf :: up ∈ t.tree.branches) :
    recordNode scan leaf :: up.map (recordNode scan) ∈ (t.recordScan scan).tree.branches := by
  rw [tree_recordScan, Tree.branches_map]
  exact List.mem_map_of_mem hleaf

theorem coherent_closeLeaf (h : Coherent t) (hleaf : leaf :: up ∈ t.tree.branches)
    (hopen : leaf.branchClosed = false)
    (hclash : ∃ n ∈ leaf :: up, ∃ m ∈ leaf :: up, n.contradicts m = true) : Coherent (t.closeLeaf leaf.id) where
  toIndexed := (closesTo_closeLeaf t leaf.id).indexed h.toIndexed
  toMarked := marked_closeLeaf h.toIndexed h.toMarked hleaf
  toJudged := judged_closeLeaf h.toIndexed h.toJudged hleaf hclash
  openBranches_eq := by
    change t.openBranches - 1 = _
    rw [h.openBranches_eq, ← openCount_closeLeaf h.toIndexed hleaf hopen, Nat.add_sub_cancel]

/-- A look at the branch of an open leaf either closes the leaf, for a good reason, or leaves it open and has met no
contradiction. -/
theorem checkLeaf_cases (h : Coherent t) (hleaf : leaf :: up ∈ t.tree.branches) :
    ((∃ n ∈ leaf :: up, ∃ m ∈ leaf :: up, n.contradicts m = true) ∧ t.checkLeaf leaf.id =
      ((t.recordScan (Scan.ofBranch (leaf :: up))).closeLeaf leaf.id, true)) ∨
    ((Scan.ofBranch (leaf :: up)).clash = none ∧
      t.checkLeaf leaf.id = (t.recordScan (Scan.ofBranch (leaf :: up)), false)) := by
  have htrail := h.numbered.trail_eq_branch hleaf
  rw [checkLeaf, htrail]
  cases hclash : (Scan.ofBranch (leaf :: up)).clash with
  | some pair =>
      rw [Option.isSome_some, if_pos rfl]
      obtain ⟨n, hn, m, hm, hcontra, _⟩ := Scan.exists_pair_of_clash hclash
      exact Or.inl ⟨⟨n, hn, m, hm, hcontra⟩, rfl⟩
  | none =>
      rw [Option.isSome_none, if_neg Bool.false_ne_true]
      exact Or.inr ⟨rfl, rfl⟩

theorem coherent_checkLeaf (h : Coherent t) (hleaf : leaf :: up ∈ t.tree.branches)
    (hopen : leaf.branchClosed = false) : Coherent (t.checkLeaf leaf.id).1 := by
  rcases checkLeaf_cases h hleaf with ⟨hclash, heq⟩ | ⟨_, heq⟩
  · rw [heq]
    have hmem := recorded_mem_branches (Scan.ofBranch (leaf :: up)) hleaf
    apply coherent_closeLeaf (coherent_recordScan h hleaf) hmem hopen
    obtain ⟨n, hn, m, hm, hcontra⟩ := hclash
    exact ⟨_, List.mem_map_of_mem (f := recordNode _) hn, _, List.mem_map_of_mem (f := recordNode _) hm, hcontra⟩
  · rw [heq]
    exact coherent_recordScan h hleaf

theorem openLeaves_recordScan {leaves : List Nat} (hopen : OpenLeaves t leaves) (scan : Scan) :
    OpenLeaves (t.recordScan scan) leaves := by
  intro l hl
  obtain ⟨n, above, hb, hid, hclosed⟩ := hopen l hl
  exact ⟨_, _, recorded_mem_branches scan hb, hid, hclosed⟩

theorem openLeaves_checkLeaf {leaves : List Nat} {id : Nat} (hopen : OpenLeaves t leaves) (hid : id ∉ leaves) :
    OpenLeaves (t.checkLeaf id).1 leaves := by
  rw [checkLeaf]
  split
  · exact openLeaves_closeLeaf (openLeaves_recordScan hopen _) hid
  · exact openLeaves_recordScan hopen _

/-- After the look the branch of the leaf is closed or its nodes have all been compared. -/
theorem compared_checkLeaf (h : Coherent t) (hleaf : leaf :: up ∈ t.tree.branches) {b : List Node}
    (hb : b ∈ (t.checkLeaf leaf.id).1.tree.branches) (hends : EndsIn [leaf.id] b) (hopen : OpenBranch b) :
    ∀ n ∈ b, n.compared = true := by
  rcases checkLeaf_cases h hleaf with ⟨_, heq⟩ | ⟨hclash, heq⟩
  · -- the leaf is closed by now
    rw [heq] at hb
    obtain ⟨l, above, rfl⟩ := Tree.exists_cons_of_mem_branches hb
    have hleaf' := Tree.mem_leaves_iff.2 ⟨above, hb⟩
    rw [leaves_closeLeaf, List.mem_map] at hleaf'
    obtain ⟨n, _, rfl⟩ := hleaf'
    have hn : n.id = leaf.id :=
      (markedTo_closeNode leaf.id n).id.symm.trans (List.mem_singleton.1 (endsIn_cons.1 hends))
    have hclosed := hopen _ List.mem_cons_self
    rw [closeNode, if_pos hn] at hclosed
    cases hclosed
  · rw [heq, tree_recordScan, Tree.branches_map, List.mem_map] at hb
    obtain ⟨b₀, hb₀, rfl⟩ := hb
    obtain ⟨l, above, rfl⟩ := Tree.exists_cons_of_mem_branches hb₀
    rw [List.map_cons, endsIn_cons] at hends
    have hid : l.id = leaf.id := List.mem_singleton.1 hends
    obtain ⟨rfl, rfl⟩ := h.numbered.eq_of_leaf_id_eq hb₀ hleaf hid
    intro m hm
    obtain ⟨n, hn, rfl⟩ := List.mem_map.1 hm
    rw [recordNode, Bool.or_eq_true, List.contains_iff_mem]
    exact Scan.mem_passed_of_clash_eq_none hclash n hn

end Leaf

/-- The looks at the branches of a list of leaves, one after the other, without the number of closed ones. -/
theorem fst_foldl_checkLeaf (leaves : List Nat) (t : Tableau) (count : Nat) :
    (leaves.foldl (fun (state : Tableau × Nat) leaf =>
      ((state.1.checkLeaf leaf).1, if (state.1.checkLeaf leaf).2 then state.2 + 1 else state.2)) (t, count)).1 =
      leaves.foldl (fun t leaf => (t.checkLeaf leaf).1) t := by
  induction leaves generalizing t count with
  | nil => rfl
  | cons leaf leaves ih => exact ih _ _

theorem fst_closeBranches (t : Tableau) (id : Nat) :
    (t.closeBranches id).1 = (t.openLeavesBelow id).foldl (fun t leaf => (t.checkLeaf leaf).1) t :=
  fst_foldl_checkLeaf _ t 0

theorem closesTo_foldl_checkLeaf (leaves : List Nat) (t : Tableau) :
    t.ClosesTo (leaves.foldl (fun t leaf => (t.checkLeaf leaf).1) t) := by
  induction leaves generalizing t with
  | nil => exact .refl t
  | cons leaf leaves ih => exact (closesTo_checkLeaf t leaf).trans (ih _)

theorem closesTo_closeBranches (t : Tableau) (id : Nat) : t.ClosesTo (t.closeBranches id).1 := by
  rw [fst_closeBranches]
  exact closesTo_foldl_checkLeaf _ t

/-- Marks do not change where a branch ends. -/
theorem endsIn_of_marked {leaves : List Nat} {b b' : List Node} (h : List.Forall₂ Node.MarkedTo b b')
    (hends : EndsIn leaves b') : EndsIn leaves b := by
  cases h with
  | nil => exact hends
  | cons hl _ =>
      rw [endsIn_cons, hl.id] at hends
      exact endsIn_cons.2 hends

theorem consistent_of_marked {b b' : List Node} (h : List.Forall₂ Node.MarkedTo b b') (hb : Consistent b) :
    Consistent b' := by
  rw [consistent_iff_signed, map_eq_of_marked Node.MarkedTo.signed h, ← consistent_iff_signed]
  exact hb

theorem compared_of_marked {b b' : List Node} (h : List.Forall₂ Node.MarkedTo b b') (hb : ∀ n ∈ b, n.compared = true) :
    ∀ n ∈ b', n.compared = true := by
  intro m hm
  obtain ⟨n, hn, hnm⟩ := exists_of_forall₂_right h hm
  exact hnm.compared (hb n hn)

/-- What a look at the branch of an open leaf keeps is kept by looks at the branches of several, one after the other,
and the leaves still to be looked at stay open. -/
theorem foldl_checkLeaf_induction {P : Tableau → Prop} {leaves rest : List Nat}
    (hstep : ∀ (t : Tableau) (leaf : Node) (up : List Node), Coherent t → leaf :: up ∈ t.tree.branches →
      leaf.branchClosed = false → P t → P (t.checkLeaf leaf.id).1)
    (h : Coherent t) (hnodup : (leaves ++ rest).Nodup) (hopen : OpenLeaves t (leaves ++ rest)) (hP : P t) :
    Coherent (leaves.foldl (fun t leaf => (t.checkLeaf leaf).1) t) ∧
      OpenLeaves (leaves.foldl (fun t leaf => (t.checkLeaf leaf).1) t) rest ∧
      P (leaves.foldl (fun t leaf => (t.checkLeaf leaf).1) t) := by
  induction leaves generalizing t with
  | nil => exact ⟨h, hopen, hP⟩
  | cons l leaves ih =>
      obtain ⟨leaf, up, hleaf, rfl, hclosed⟩ := hopen l List.mem_cons_self
      obtain ⟨hnotin, hnodup⟩ := List.nodup_cons.1 hnodup
      have hrest : OpenLeaves t (leaves ++ rest) := fun l hl => hopen l (List.mem_cons_of_mem _ hl)
      exact ih (coherent_checkLeaf h hleaf hclosed) hnodup (openLeaves_checkLeaf hrest hnotin)
        (hstep t leaf up h hleaf hclosed hP)

/-- Looking at the branches of open leaves keeps the bookkeeping right and leaves no node to be compared on those that
stay open. -/
theorem foldl_checkLeaf_spec {leaves : List Nat} (h : Coherent t) (hnodup : leaves.Nodup)
    (hopen : OpenLeaves t leaves) :
    Coherent (leaves.foldl (fun t leaf => (t.checkLeaf leaf).1) t) ∧
      ∀ b ∈ (leaves.foldl (fun t leaf => (t.checkLeaf leaf).1) t).tree.branches, EndsIn leaves b → OpenBranch b →
        ∀ n ∈ b, n.compared = true := by
  induction leaves generalizing t with
  | nil => exact ⟨h, fun b _ hends => by simp [EndsIn] at hends⟩
  | cons l leaves ih =>
      obtain ⟨leaf, up, hleaf, rfl, hclosed⟩ := hopen l List.mem_cons_self
      obtain ⟨hnotin, hnodup⟩ := List.nodup_cons.1 hnodup
      have hrest : OpenLeaves t leaves := fun l hl => hopen l (List.mem_cons_of_mem _ hl)
      obtain ⟨hcoherent, hcompared⟩ := ih (coherent_checkLeaf h hleaf hclosed) hnodup
        (openLeaves_checkLeaf hrest hnotin)
      refine ⟨hcoherent, ?_⟩
      intro b hb hends hb_open
      rw [List.foldl_cons] at hb
      obtain ⟨b₀, hb₀, hmarked⟩ := (closesTo_foldl_checkLeaf leaves _).exists_branch hb
      by_cases hlater : EndsIn leaves b
      · exact hcompared b hb hlater hb_open
      · have hnow : EndsIn [leaf.id] b := by
          obtain ⟨n, hn, hmem⟩ := hends
          rcases List.mem_cons.1 hmem with heq | hmem
          · exact ⟨n, hn, List.mem_singleton.2 heq⟩
          · exact absurd ⟨n, hn, hmem⟩ hlater
        exact compared_of_marked hmarked (compared_checkLeaf h hleaf hb₀ (endsIn_of_marked hmarked hnow)
          (openBranch_of_marked hmarked hb_open))

theorem openLeaves_openLeavesBelow (h : Coherent t) (id : Nat) : OpenLeaves t (t.openLeavesBelow id) := by
  intro l hl
  obtain ⟨leaf, up, hb, hid, hopen, _⟩ := (mem_openLeavesBelow h.numbered h.agree).1 hl
  exact ⟨leaf, up, hb, hid, hopen⟩

theorem coherent_closeBranches (h : Coherent t) (id : Nat) : Coherent (t.closeBranches id).1 := by
  rw [fst_closeBranches]
  exact (foldl_checkLeaf_spec h (nodup_openLeavesBelow h.numbered id) (openLeaves_openLeavesBelow h id)).1

/-- After closing the branches through a node, all nodes of those that are still open have been compared. -/
theorem compared_closeBranches (h : Coherent t) {id : Nat} {b : List Node}
    (hb : b ∈ (t.closeBranches id).1.tree.branches) (hopen : OpenBranch b) {n : Node} (hn : n ∈ b)
    (hid : n.id = id) : ∀ m ∈ b, m.compared = true := by
  obtain ⟨b₀, hb₀, hmarked⟩ := (closesTo_closeBranches t id).exists_branch hb
  have hopen₀ := openBranch_of_marked hmarked hopen
  obtain ⟨leaf, up, rfl⟩ := Tree.exists_cons_of_mem_branches hb₀
  obtain ⟨n₀, hn₀, hnn⟩ := exists_of_forall₂_right hmarked hn
  have hmem : leaf.id ∈ t.openLeavesBelow id := (mem_openLeavesBelow h.numbered h.agree).2
    ⟨leaf, up, hb₀, rfl, hopen₀ leaf List.mem_cons_self, n₀, hn₀, hnn.id.symm.trans hid⟩
  cases hmarked with
  | @cons _ leaf' _ up' hl hup =>
      rw [fst_closeBranches] at hb
      refine (foldl_checkLeaf_spec h (nodup_openLeavesBelow h.numbered id) (openLeaves_openLeavesBelow h id)).2 _ hb
        (endsIn_cons.2 ?_) hopen
      rw [hl.id]
      exact hmem

/-- After closing the branches through a node, those that are still open are consistent. -/
theorem consistent_closeBranches (h : Coherent t) {id : Nat} {b : List Node}
    (hb : b ∈ (t.closeBranches id).1.tree.branches) (hopen : OpenBranch b) {n : Node} (hn : n ∈ b)
    (hid : n.id = id) : Consistent b := by
  have hcompared := compared_closeBranches h hb hopen hn hid
  refine ((coherent_closeBranches h id).compared b hb).imp_of_mem ?_
  intro m k hm _ hmk
  exact hmk (hcompared m hm)

end Tableau

end Tableaux
