import Mathlib
import Tableaux.Proofs.Premises

/-!
What closing a branch records. A leaf is marked as closed together with two nodes of its branch that contradict each
other, and these marks are set nowhere else: so in every tableau that a run reaches the closed nodes are the leaves of
closed branches, each closed branch holds such a marked pair, and every node with the mark belongs to one.
-/

namespace Tableaux

/-- The nodes are on the branch, contradict each other, and are marked for it. -/
structure ClosingPair (b : List Node) (n m : Node) : Prop where
  left : n ∈ b
  right : m ∈ b
  contradicts : n.contradicts m = true
  marked : n.contradictory = true ∧ m.contradictory = true

/-- What is recorded of closed branches is right: of the nodes of a branch only the leaf can be marked as closed, and
it is if the branch is; a closed branch holds a marked pair, and a marked node belongs to one. -/
structure Recorded (t : Tableau) : Prop where
  leaf : ∀ leaf up, leaf :: up ∈ t.tree.branches → leaf.closed = leaf.branchClosed
  inner : ∀ leaf up, leaf :: up ∈ t.tree.branches → ∀ n ∈ up, n.closed = false
  pair : ∀ leaf up, leaf :: up ∈ t.tree.branches → leaf.closed = true → ∃ n m, ClosingPair (leaf :: up) n m
  member : ∀ n ∈ t.tree.labels, n.contradictory = true → ∃ leaf up, leaf :: up ∈ t.tree.branches ∧
    leaf.closed = true ∧ ∃ m, ClosingPair (leaf :: up) n m

namespace ClosingPair

variable {b b' : List Node} {n m n' m' : Node}

theorem symm (h : ClosingPair b n m) : ClosingPair b m n where
  left := h.right
  right := h.left
  contradicts := (Signed.contradicts_comm m.signed n.signed).trans h.contradicts
  marked := h.marked.symm

/-- On another branch the same pair is there if it still says the same and has its marks. -/
theorem transfer (h : ClosingPair b n m) (hn : n' ∈ b') (hm : m' ∈ b') (hnn : n'.signed = n.signed)
    (hmm : m'.signed = m.signed) (hmarked : n'.contradictory = true ∧ m'.contradictory = true) :
    ClosingPair b' n' m' where
  left := hn
  right := hm
  contradicts := by
    rw [Node.contradicts, hnn, hmm]
    exact h.contradicts
  marked := hmarked

end ClosingPair

/-- Nothing of a node is changed that is recorded of closed branches. -/
structure SameRecord (g : Node → Node) : Prop where
  signed : ∀ n, (g n).signed = n.signed
  closed : ∀ n, (g n).closed = n.closed
  branchClosed : ∀ n, (g n).branchClosed = n.branchClosed
  contradictory : ∀ n, (g n).contradictory = n.contradictory

theorem SameRecord.id : SameRecord fun n => n := by
  constructor <;> exact fun n => rfl

theorem ClosingPair.map {g : Node → Node} {b : List Node} {n m : Node} (h : ClosingPair b n m) (hg : SameRecord g) :
    ClosingPair (b.map g) (g n) (g m) := by
  refine h.transfer (List.mem_map_of_mem h.left) (List.mem_map_of_mem h.right) (hg.signed n) (hg.signed m) ?_
  rw [hg.contradictory, hg.contradictory]
  exact h.marked

/-- The second tableau is the first with unmarked nodes below some of the open leaves, and with nothing else changed
that is recorded of closed branches. -/
structure Prolongs (g : Node → Node) (t t' : Tableau) : Prop where
  same : SameRecord g
  source : ∀ b' ∈ t'.tree.branches, ∃ b ∈ t.tree.branches, b' = b.map g ∨ ∃ n new, OpenBranch b ∧
    (∀ m ∈ n :: new, m.closed = false ∧ m.branchClosed = false ∧ m.contradictory = false) ∧ b' = n :: new ++ b.map g
  kept : ∀ leaf up, leaf :: up ∈ t.tree.branches → leaf.branchClosed = true →
    (leaf :: up).map g ∈ t'.tree.branches

/-- A marked node was there before. -/
theorem Prolongs.exists_of_contradictory {g : Node → Node} {t t' : Tableau} (h : Prolongs g t t') {m : Node}
    (hm : m ∈ t'.tree.labels) (hmark : m.contradictory = true) : ∃ n ∈ t.tree.labels, m = g n := by
  obtain ⟨b', hb', hmb'⟩ := Tree.exists_branch_of_mem_labels hm
  obtain ⟨b, hb, rfl | ⟨n, new, _, hnew, rfl⟩⟩ := h.source b' hb'
  · obtain ⟨k, hk, rfl⟩ := List.mem_map.1 hmb'
    exact ⟨k, Tree.mem_labels_of_mem_branch hb hk, rfl⟩
  · rcases List.mem_append.1 hmb' with hm | hm
    · rw [(hnew m hm).2.2] at hmark
      cases hmark
    · obtain ⟨k, hk, rfl⟩ := List.mem_map.1 hm
      exact ⟨k, Tree.mem_labels_of_mem_branch hb hk, rfl⟩

namespace Recorded

variable {t t' : Tableau}

/-- Where nothing is marked, nothing wrong is recorded. -/
theorem of_unmarked (h : ∀ n ∈ t.tree.labels, n.closed = false ∧ n.branchClosed = false ∧ n.contradictory = false) :
    Recorded t where
  leaf leaf up hb := by
    obtain ⟨hclosed, hbranch, _⟩ := h leaf (Tree.mem_labels_of_mem_branch hb List.mem_cons_self)
    rw [hclosed, hbranch]
  inner leaf up hb n hn := (h n (Tree.mem_labels_of_mem_branch hb (List.mem_cons_of_mem _ hn))).1
  pair leaf up hb hclosed := by
    rw [(h leaf (Tree.mem_labels_of_mem_branch hb List.mem_cons_self)).1] at hclosed
    cases hclosed
  member n hn hmark := by
    rw [(h n hn).2.2] at hmark
    cases hmark

theorem inner_prolongs {g : Node → Node} (h : Recorded t) (hp : Prolongs g t t') {leaf : Node} {up : List Node}
    (hb' : leaf :: up ∈ t'.tree.branches) {m : Node} (hm : m ∈ up) : m.closed = false := by
  obtain ⟨b, hb, heq | ⟨n, new, hopen, hnew, heq⟩⟩ := hp.source _ hb'
  · obtain ⟨l, above, rfl⟩ := Tree.exists_cons_of_mem_branches hb
    obtain ⟨_, rfl⟩ := List.cons.inj heq
    obtain ⟨k, hk, rfl⟩ := List.mem_map.1 hm
    rw [hp.same.closed]
    exact h.inner l above hb k hk
  · obtain ⟨l, above, rfl⟩ := Tree.exists_cons_of_mem_branches hb
    obtain ⟨_, rfl⟩ := List.cons.inj heq
    rcases List.mem_append.1 hm with hm | hm
    · exact (hnew m (List.mem_cons_of_mem _ hm)).1
    · -- the former leaf is above the new nodes, and open
      obtain ⟨k, hk, rfl⟩ := List.mem_map.1 hm
      rw [hp.same.closed]
      rcases List.mem_cons.1 hk with rfl | hk
      · rw [h.leaf k above hb]
        exact hopen k List.mem_cons_self
      · exact h.inner l above hb k hk

theorem prolongs {g : Node → Node} (h : Recorded t) (hp : Prolongs g t t') : Recorded t' := by
  have hg := hp.same
  constructor
  case leaf =>
    intro leaf up hb'
    obtain ⟨b, hb, heq | ⟨n, new, _, hnew, heq⟩⟩ := hp.source _ hb'
    · obtain ⟨l, above, rfl⟩ := Tree.exists_cons_of_mem_branches hb
      obtain ⟨rfl, _⟩ := List.cons.inj heq
      rw [hg.closed, hg.branchClosed]
      exact h.leaf l above hb
    · obtain ⟨rfl, _⟩ := List.cons.inj heq
      obtain ⟨hclosed, hbranch, _⟩ := hnew leaf List.mem_cons_self
      rw [hclosed, hbranch]
  case inner => exact fun leaf up hb' m hm => h.inner_prolongs hp hb' hm
  case pair =>
    intro leaf up hb' hclosed
    obtain ⟨b, hb, heq | ⟨n, new, _, hnew, heq⟩⟩ := hp.source _ hb'
    · obtain ⟨l, above, rfl⟩ := Tree.exists_cons_of_mem_branches hb
      rw [heq]
      obtain ⟨rfl, _⟩ := List.cons.inj heq
      rw [hg.closed] at hclosed
      obtain ⟨n, m, hnm⟩ := h.pair l above hb hclosed
      exact ⟨g n, g m, hnm.map hg⟩
    · obtain ⟨rfl, _⟩ := List.cons.inj heq
      rw [(hnew leaf List.mem_cons_self).1] at hclosed
      cases hclosed
  case member =>
    intro m hm hmark
    obtain ⟨n, hn, rfl⟩ := hp.exists_of_contradictory hm hmark
    rw [hg.contradictory] at hmark
    obtain ⟨leaf, up, hb, hclosed, m, hnm⟩ := h.member n hn hmark
    have hbranch : leaf.branchClosed = true := by
      rw [← h.leaf leaf up hb]
      exact hclosed
    exact ⟨g leaf, up.map g, hp.kept leaf up hb hbranch, (hg.closed leaf).trans hclosed, g m, hnm.map hg⟩

end Recorded

namespace Tableau

variable {t : Tableau} {leaf : Node} {up : List Node}

/-- A look that finds nothing records nothing of closed branches. -/
theorem prolongs_recordScan {scan : Scan} (hclash : scan.clash = none) (t : Tableau) :
    Prolongs (recordNode scan) t (t.recordScan scan) where
  same := by
    constructor <;> intro n <;> first | rfl | simp [recordNode, hclash]
  source b' hb' := by
    rw [tree_recordScan, Tree.branches_map, List.mem_map] at hb'
    obtain ⟨b, hb, rfl⟩ := hb'
    exact ⟨b, hb, Or.inl rfl⟩
  kept leaf up hb _ := recorded_mem_branches scan hb

end Tableau

/-- The second node is the first with what a look along a branch has found, and with the mark of the closed leaf if it
is the one with the given number. -/
structure Node.EndsAs (scan : Scan) (leaf : Nat) (n m : Node) : Prop where
  id : m.id = n.id
  signed : m.signed = n.signed
  closed : m.closed = true ↔ n.closed = true ∨ n.id = leaf
  contradictory : m.contradictory = true ↔
    n.contradictory = true ∨ ∃ pair, scan.clash = some pair ∧ (n.id = pair.1 ∨ n.id = pair.2)

namespace Tableau

variable {t : Tableau} {leaf : Node} {up : List Node} {scan : Scan}

theorem endsAs_closeNode (scan : Scan) (leaf : Nat) (n : Node) :
    n.EndsAs scan leaf (closeNode leaf (recordNode scan n)) := by
  have hid : (recordNode scan n).id = n.id := rfl
  by_cases hn : n.id = leaf
  · rw [closeNode, if_pos (hid.trans hn)]
    constructor <;> first | rfl | simp [recordNode, hn, Option.any_eq_true]
  · rw [closeNode, if_neg (hid.trans_ne hn)]
    constructor <;> first | rfl | simp [recordNode, hn, Option.any_eq_true]

theorem rel_endsAs (t : Tableau) (scan : Scan) (leaf : Nat) :
    Forest.Rel (Node.EndsAs scan leaf) t.tree.toForest ((t.recordScan scan).closeLeaf leaf).tree.toForest := by
  rw [tree_closeLeaf, tree_recordScan, Tree.toForest_map, Forest.map_map]
  refine (Forest.Rel.of_map (endsAs_closeNode scan leaf) _).trans (Forest.rel_closeInner _) ?_
  rintro n m k h ⟨heq, _⟩
  rw [heq]
  exact ⟨h.id, h.signed, h.closed, h.contradictory⟩

/-- A marked pair stays one, and two nodes that a clash names become one. -/
theorem closingPair_endsAs {leaf : Nat} {b b' : List Node} {pair : Nat × Nat} (hclash : scan.clash = some pair)
    (hb : List.Forall₂ (Node.EndsAs scan leaf) b b') {n m : Node} (hn : n ∈ b) (hm : m ∈ b)
    (hcontra : n.contradicts m = true)
    (hmarks : n.contradictory = true ∧ m.contradictory = true ∨ pair = (n.id, m.id)) :
    ∃ n' m', n.EndsAs scan leaf n' ∧ m.EndsAs scan leaf m' ∧ ClosingPair b' n' m' := by
  obtain ⟨n', hn', hnn'⟩ := exists_of_forall₂_left hb hn
  obtain ⟨m', hm', hmm'⟩ := exists_of_forall₂_left hb hm
  refine ⟨n', m', hnn', hmm', hn', hm', ?_, ?_⟩
  · rw [Node.contradicts, hnn'.signed, hmm'.signed]
    exact hcontra
  · rw [hnn'.contradictory, hmm'.contradictory]
    rcases hmarks with ⟨hn, hm⟩ | rfl
    · exact ⟨Or.inl hn, Or.inl hm⟩
    · exact ⟨Or.inr ⟨_, hclash, Or.inl rfl⟩, Or.inr ⟨_, hclash, Or.inr rfl⟩⟩

theorem closed_leaf_closeLeaf (h : Recorded t) {id : Nat} {l : Node} {above : List Node}
    (hb : l :: above ∈ ((t.recordScan scan).closeLeaf id).tree.branches) : l.closed = l.branchClosed := by
  have hl : l ∈ ((t.recordScan scan).closeLeaf id).tree.leaves := Tree.mem_leaves_iff.2 ⟨above, hb⟩
  rw [leaves_closeLeaf, List.mem_map] at hl
  obtain ⟨k, hk, rfl⟩ := hl
  rw [Tree.leaves, tree_recordScan, Tree.toForest_map, Forest.leaves_map, List.mem_map] at hk
  obtain ⟨j, hj, rfl⟩ := hk
  obtain ⟨above', hb'⟩ := Tree.mem_leaves_iff.1 hj
  rw [closeNode]
  split
  · rfl
  · exact h.leaf j above' hb'

section Clash

variable {n m : Node} (hi : Indexed t) (h : Recorded t) (hleaf : leaf :: up ∈ t.tree.branches)
include hi h hleaf

theorem closed_inner_closeLeaf {l k : Node} {above : List Node}
    (hb' : l :: above ∈ ((t.recordScan scan).closeLeaf leaf.id).tree.branches) (hk : k ∈ above) :
    k.closed = false := by
  obtain ⟨b, hb, hbb'⟩ := exists_of_forall₂_right ((rel_endsAs t scan leaf.id).branches .nil) hb'
  cases hbb' with
  | @cons l₀ _ above₀ _ hl habove =>
      obtain ⟨k₀, hk₀, hkk⟩ := exists_of_forall₂_right habove hk
      rw [← Bool.not_eq_true, hkk.closed, h.inner l₀ above₀ hb k₀ hk₀]
      -- a node above the end of a branch is not the leaf
      rintro (hfalse | hid)
      · cases hfalse
      · obtain ⟨pre, post, rfl⟩ := List.append_of_mem hk₀
        have hb : (l₀ :: pre) ++ k₀ :: post ∈ t.tree.branches := hb
        cases hi.numbered.eq_nil_of_leaf hb hleaf hid

variable (hn : n ∈ leaf :: up) (hm : m ∈ leaf :: up) (hcontra : n.contradicts m = true)
  (hclash : scan.clash = some (n.id, m.id))
include hn hm hcontra hclash

theorem pair_closeLeaf {l : Node} {above : List Node}
    (hb' : l :: above ∈ ((t.recordScan scan).closeLeaf leaf.id).tree.branches) (hclosed : l.closed = true) :
    ∃ k j, ClosingPair (l :: above) k j := by
  obtain ⟨b, hb, hbb'⟩ := exists_of_forall₂_right ((rel_endsAs t scan leaf.id).branches .nil) hb'
  obtain ⟨k, hk, j, hj, hkj, hmarks⟩ : ∃ k ∈ b, ∃ j ∈ b, k.contradicts j = true ∧
      (k.contradictory = true ∧ j.contradictory = true ∨ (n.id, m.id) = (k.id, j.id)) := by
    cases hbb' with
    | @cons l₀ _ above₀ _ hl habove =>
        rcases hl.closed.1 hclosed with hclosed | hid
        · obtain ⟨k, j, hkj⟩ := h.pair l₀ above₀ hb hclosed
          exact ⟨k, hkj.left, j, hkj.right, hkj.contradicts, Or.inl hkj.marked⟩
        · obtain ⟨rfl, rfl⟩ := hi.numbered.eq_of_leaf_id_eq hb hleaf hid
          exact ⟨n, hn, m, hm, hcontra, Or.inr rfl⟩
  obtain ⟨k', j', _, _, hkj'⟩ := closingPair_endsAs hclash hbb' hk hj hkj hmarks
  exact ⟨k', j', hkj'⟩

/-- A node with the mark had it before, on a branch closed before, or the clash names it. -/
theorem exists_clash_of_marked {k k' : Node} (hk : k ∈ t.tree.labels) (hkk' : k.EndsAs scan leaf.id k')
    (hmark : k'.contradictory = true) :
    ∃ l above, l :: above ∈ t.tree.branches ∧ (l.closed = true ∨ l.id = leaf.id) ∧
      ∃ i ∈ l :: above, ∃ j ∈ l :: above, (k = i ∨ k = j) ∧ i.contradicts j = true ∧
        (i.contradictory = true ∧ j.contradictory = true ∨ (n.id, m.id) = (i.id, j.id)) := by
  rcases hkk'.contradictory.1 hmark with hmark | ⟨pair, hpair, hid⟩
  · obtain ⟨l, above, hb, hclosed, j, hkj⟩ := h.member k hk hmark
    exact ⟨l, above, hb, Or.inl hclosed, k, hkj.left, j, hkj.right, Or.inl rfl, hkj.contradicts, Or.inl hkj.marked⟩
  · obtain rfl := Option.some.inj (hclash.symm.trans hpair)
    refine ⟨leaf, up, hleaf, Or.inr rfl, n, hn, m, hm, ?_, hcontra, Or.inr rfl⟩
    exact hid.imp (hi.numbered.eq_of_id_eq hk (Tree.mem_labels_of_mem_branch hleaf hn))
      (hi.numbered.eq_of_id_eq hk (Tree.mem_labels_of_mem_branch hleaf hm))

theorem member_closeLeaf {k' : Node} (hk' : k' ∈ ((t.recordScan scan).closeLeaf leaf.id).tree.labels)
    (hmark : k'.contradictory = true) :
    ∃ l above, l :: above ∈ ((t.recordScan scan).closeLeaf leaf.id).tree.branches ∧ l.closed = true ∧
      ∃ j', ClosingPair (l :: above) k' j' := by
  have hnumbered := (((closesTo_recordScan t scan).trans (closesTo_closeLeaf _ leaf.id)).indexed hi).numbered
  have hrel := rel_endsAs t scan leaf.id
  obtain ⟨k, hk, hkk'⟩ := exists_of_forall₂_right hrel.labels hk'
  obtain ⟨l, above, hb, hclosed, i, hi', j, hj, hkij, hcontra, hmarks⟩ :=
    exists_clash_of_marked hi h hleaf hn hm hcontra hclash hk hkk' hmark
  obtain ⟨b', hb', hbb'⟩ := exists_of_forall₂_left (hrel.branches .nil) hb
  obtain ⟨i', j', hii', hjj', hpair⟩ := closingPair_endsAs hclash hbb' hi' hj hcontra hmarks
  have hsame : ∀ {i i' : Node}, i.EndsAs scan leaf.id i' → i' ∈ b' → k = i → k' = i' := by
    rintro i i' hii' hmem rfl
    exact hnumbered.eq_of_id_eq hk' (Tree.mem_labels_of_mem_branch hb' hmem) (hkk'.id.trans hii'.id.symm)
  cases hbb' with
  | @cons _ l' _ above' hl habove =>
      refine ⟨l', above', hb', hl.closed.2 hclosed, ?_⟩
      rcases hkij with hki | hkj
      · rw [hsame hii' hpair.left hki]
        exact ⟨j', hpair⟩
      · rw [hsame hjj' hpair.right hkj]
        exact ⟨i', hpair.symm⟩

/-- Closing a leaf records the pair that a look along its branch has found. -/
theorem recorded_closeLeaf : Recorded ((t.recordScan scan).closeLeaf leaf.id) where
  leaf _ _ hb := closed_leaf_closeLeaf h hb
  inner _ _ hb _ hk := closed_inner_closeLeaf hi h hleaf hb hk
  pair _ _ hb hclosed := pair_closeLeaf hi h hleaf hn hm hcontra hclash hb hclosed
  member _ hk hmark := member_closeLeaf hi h hleaf hn hm hcontra hclash hk hmark

end Clash

theorem recorded_checkLeaf (hi : Indexed t) (h : Recorded t) (hleaf : leaf :: up ∈ t.tree.branches) :
    Recorded (t.checkLeaf leaf.id).1 := by
  rw [checkLeaf, hi.numbered.trail_eq_branch hleaf]
  cases hclash : (Scan.ofBranch (leaf :: up)).clash with
  | none =>
      rw [Option.isSome_none, if_neg Bool.false_ne_true]
      exact h.prolongs (prolongs_recordScan hclash t)
  | some pair =>
      rw [Option.isSome_some, if_pos rfl]
      obtain ⟨n, hn, m, hm, hcontra, rfl⟩ := Scan.exists_pair_of_clash hclash
      exact recorded_closeLeaf hi h hleaf hn hm hcontra hclash

theorem recorded_closeBranches (hc : Coherent t) (h : Recorded t) (id : Nat) : Recorded (t.closeBranches id).1 := by
  have hleaves : t.openLeavesBelow id ++ [] = t.openLeavesBelow id := List.append_nil _
  have hnodup := nodup_openLeavesBelow hc.numbered id
  have hopen := openLeaves_openLeavesBelow hc id
  rw [← hleaves] at hnodup hopen
  rw [fst_closeBranches]
  exact (foldl_checkLeaf_induction (P := Recorded)
    (fun t leaf up hc hleaf _ h => recorded_checkLeaf hc.toIndexed h hleaf) hc hnodup hopen h).2.2

theorem recorded_checkClosed (hc : Coherent t) (h : Recorded t) (id : Nat) : Recorded (t.checkClosed id).2 := by
  rcases checkClosed_cases t id with heq | heq
  · rw [heq]
    exact h
  · rw [heq]
    exact recorded_closeBranches hc h id

theorem recorded_defer (h : Recorded t) (id : Nat) : Recorded (t.defer id).2 := by
  rcases defer_cases t id with heq | heq
  · rw [heq]
    exact h
  · rw [heq, sendToBack_eq]
    exact ⟨h.leaf, h.inner, h.pair, h.member⟩

theorem sameRecord_touch (id : Nat) (x : Option Term) (done : Bool) : SameRecord (touch id x done) := by
  constructor <;> intro n <;> rw [touch] <;> split <;> rfl

theorem prolongs_applied {n : Node} {x : Option Term} {e : Expansion} {id : Nat} {t' : Tableau} (hc : Coherent t)
    (hne : ∀ chain ∈ e.chains, chain ≠ []) (happlied : Applied n x e (t.openLeavesBelow id) t t') :
    Prolongs (touch n.id x !n.kind.isReusable) t t' where
  same := sameRecord_touch n.id x _
  source b' hb' := by
    obtain ⟨b, hb, ⟨_, rfl⟩ | ⟨hends, chain, hchain, start, _, rfl⟩⟩ := happlied.source b' hb'
    · exact ⟨b, hb, Or.inl rfl⟩
    · obtain ⟨leaf, up, rfl⟩ := Tree.exists_cons_of_mem_branches hb
      obtain ⟨l, above, hb', hid, hopen, _⟩ := (mem_openLeavesBelow hc.numbered hc.agree).1 (endsIn_cons.1 hends)
      obtain ⟨rfl, rfl⟩ := hc.numbered.eq_of_leaf_id_eq hb' hb hid
      refine ⟨_, hb, Or.inr ?_⟩
      obtain ⟨m, new, hnew⟩ :=
        List.exists_cons_of_ne_nil (Node.reverse_ofChain_ne_nil (hne chain hchain) n.id start)
      refine ⟨m, new, hc.agree.openBranch hb hopen, fun k hk => ?_, by rw [hnew]⟩
      rw [← hnew, List.mem_reverse] at hk
      obtain ⟨s, _, heq⟩ := Node.exists_of_mem_ofChain hk
      rw [heq]
      exact ⟨rfl, rfl, rfl⟩
  kept leaf up hb hclosed := by
    refine happlied.kept _ hb fun hends => ?_
    obtain ⟨l, above, hb', hid, hopen, _⟩ := (mem_openLeavesBelow hc.numbered hc.agree).1 (endsIn_cons.1 hends)
    obtain ⟨rfl, _⟩ := hc.numbered.eq_of_leaf_id_eq hb' hb hid
    rw [hclosed] at hopen
    cases hopen

theorem recorded_develop (hvalid : Valid t) (h : Recorded t) (id : Nat) (term : Option Term) :
    Recorded (t.develop id term).2 := by
  rcases develop_cases hvalid id term with
    ⟨_, _, heq⟩ | ⟨_, _, _, heq⟩ | ⟨n, e, t', hnode, _, _, hexpansion, happlied, hvalid', heq⟩
  · rw [heq]
    exact h
  · rw [heq]
    exact h
  · rw [heq]
    exact recorded_closeBranches hvalid'.toCoherent
      (h.prolongs (prolongs_applied hvalid.toCoherent (Signed.chain_ne_nil hexpansion) happlied)) id

theorem prolongs_stated (hvalid : Valid t) (s : Signed) (hleaf : leaf :: up ∈ t.tree.branches)
    (hopen : leaf.branchClosed = false) : Prolongs (fun n => n) t (t.stated s leaf.id) where
  same := .id
  source b' hb' := by
    rcases (mem_branches_stated hvalid.numbered s hleaf).1 hb' with ⟨hb, _⟩ | rfl
    · exact ⟨b', hb, Or.inl (List.map_id' b').symm⟩
    · refine ⟨_, hleaf, Or.inr ⟨.ofSigned t.slots s none, [], hvalid.agree.openBranch hleaf hopen, ?_, ?_⟩⟩
      · intro n hn
        rw [List.mem_singleton.1 hn]
        exact ⟨rfl, rfl, rfl⟩
      · rw [List.map_id']
        rfl
  kept l above hb hclosed := by
    rw [List.map_id']
    refine (mem_branches_stated hvalid.numbered s hleaf).2 (Or.inl ⟨hb, fun hends => ?_⟩)
    obtain ⟨rfl, _⟩ := hvalid.numbered.eq_of_leaf_id_eq hb hleaf (List.mem_singleton.1 (endsIn_cons.1 hends))
    rw [hclosed] at hopen
    cases hopen

theorem recorded_assume (hvalid : Valid t) (h : Recorded t) (s : Signed) : Recorded (t.assume s).2 := by
  rcases assume_cases t s with ⟨_, heq⟩ | ⟨leaf, up, hbranches, hopen, heq⟩
  · rw [heq]
    exact h
  · rw [heq]
    exact h.prolongs (prolongs_stated hvalid s (by rw [hbranches]; exact List.mem_cons_self) hopen)

theorem recorded_cleared (t : Tableau) : Recorded t.cleared := by
  refine .of_unmarked fun n hn => ?_
  rw [cleared, Tree.labels_map, List.mem_map] at hn
  obtain ⟨m, _, rfl⟩ := hn
  exact ⟨rfl, rfl, rfl⟩

theorem recorded_remove (hvalid : Valid t) (h : Recorded t) (id : Nat) : Recorded (t.remove id).2 := by
  rcases remove_cases t id with ⟨_, _, heq⟩ | ⟨_, heq⟩ | ⟨_, _, _, heq⟩
  · rw [heq]
    exact h
  · rw [heq]
    exact h
  · rw [heq]
    exact recorded_closeBranches (valid_cleared_excised hvalid id).toCoherent (recorded_cleared _) _

theorem recorded_search (hvalid : Valid t) (h : Recorded t) (limits : Limits) : Recorded (t.search limits).2 := by
  refine (search_induction (P := fun t => Valid t ∧ Recorded t) ?_ ?_ ?_ limits ⟨hvalid, h⟩).2
  · exact fun t id h => ⟨valid_checkClosed h.1 id, recorded_checkClosed h.1.toCoherent h.2 id⟩
  · exact fun t id h => ⟨valid_develop h.1 id none, recorded_develop h.1 h.2 id none⟩
  · exact fun t id h => ⟨valid_defer h.1 id, recorded_defer h.2 id⟩

theorem recorded_perform (hvalid : Valid t) (h : Recorded t) (step : Step) : Recorded (t.perform step).2 := by
  cases step with
  | assume s => exact recorded_assume hvalid h s
  | develop id term => exact recorded_develop hvalid h id term
  | remove id => exact recorded_remove hvalid h id
  | checkClosed id => exact recorded_checkClosed hvalid.toCoherent h id
  | defer id => exact recorded_defer h id
  | search limits => exact recorded_search hvalid h limits

theorem recorded_start (o : Options) (s : Signed) : Recorded (start o s) := by
  refine .of_unmarked fun n hn => ?_
  rw [labels_start, List.mem_singleton] at hn
  rw [hn]
  exact ⟨rfl, rfl, rfl⟩

/-- What is recorded of closed branches is right after every run. -/
theorem recorded_run (o : Options) (s : Signed) (steps : List Step) : Recorded ((start o s).run steps) :=
  (run_induction (P := fun t => Valid t ∧ Recorded t)
    (fun _ step h => ⟨valid_perform h.1 step, recorded_perform h.1 h.2 step⟩)
    ⟨valid_start o s, recorded_start o s⟩ steps).2

end Tableau

end Tableaux
