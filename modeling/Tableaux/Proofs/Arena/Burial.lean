import Mathlib
import Tableaux.Arena.Removal
import Tableaux.Proofs.Arena.Looking
import Tableaux.Proofs.Causes

/-!
Deleting a branch of an arena. Its head is taken off the children of its parent, and then the nodes on a stack become
removed one by one, each leaving its children on the stack. The count goes down by one for each node, so at the end it
is again the number of nodes that are left, and the worklist has lost exactly the nodes that are gone.
-/

namespace Tableaux

namespace Forest

section Trees

variable {α : Type}

theorem roots_trees (f : Forest α) : f.trees.map Tree.root = f.roots := by
  induction f with
  | nil => rfl
  | cons a below beside _ ih => rw [trees, roots, List.map_cons, ih]

theorem labels_trees (f : Forest α) : f.trees.flatMap Tree.labels = f.labels := by
  induction f with
  | nil => rfl
  | cons a below beside _ ih =>
      rw [trees, List.flatMap_cons, ih, labels, Tree.labels, Tree.toForest, labels, labels, List.append_nil]
      rfl

end Trees

/-- Pruning at one place takes the nodes of one tree away. -/
theorem labels_prune_perm {above : List Node} {f : Forest Node} (hids : (f.labels.map Node.id).Nodup) {r : Site Node}
    (hr : r ∈ f.sites above) :
    f.labels.Perm ((f.prune fun n => n.id == r.tree.root.id).labels ++ r.tree.labels) := by
  induction f generalizing above with
  | nil => cases hr
  | cons n below beside ihb ihs =>
      rw [labels, List.map_cons, List.map_append, List.nodup_cons, List.nodup_append] at hids
      obtain ⟨hn, hbelow, hbeside, hdisjoint⟩ := hids
      rw [List.mem_append, not_or] at hn
      have hfree : ∀ {g : Forest Node} {id : Nat}, id ∉ g.labels.map Node.id → g.prune (fun n => n.id == id) = g := by
        intro g id hid
        exact prune_of_forall_not fun m hm => beq_eq_false_iff_ne.2 fun heq => hid (heq ▸ List.mem_map_of_mem hm)
      rw [sites, List.mem_cons, List.mem_append] at hr
      rcases hr with rfl | hr | hr
      · rw [prune, if_pos (beq_self_eq_true n.id), hfree hn.2, labels, Tree.labels, Tree.toForest, labels, labels,
          List.append_nil]
        exact (List.perm_append_comm.cons n).trans List.perm_middle.symm
      · have hid := List.mem_map_of_mem (f := Node.id) (mem_labels_of_mem_sites hr)
        have hne : ¬ (n.id == r.tree.root.id) = true := fun heq => hn.1 (beq_iff_eq.1 heq ▸ hid)
        rw [prune, if_neg hne, hfree fun hid' => hdisjoint _ hid _ hid' rfl, labels, labels, List.cons_append,
          List.append_assoc]
        refine List.Perm.cons n ?_
        exact ((ihb hbelow hr).append_right _).trans (by
          rw [List.append_assoc]
          exact List.Perm.append_left _ List.perm_append_comm)
      · have hid := List.mem_map_of_mem (f := Node.id) (mem_labels_of_mem_sites hr)
        have hne : ¬ (n.id == r.tree.root.id) = true := fun heq => hn.2 (beq_iff_eq.1 heq ▸ hid)
        rw [prune, if_neg hne, hfree fun hid' => hdisjoint _ hid' _ hid rfl, labels, labels, List.cons_append,
          List.append_assoc]
        exact List.Perm.cons n ((ihs hbeside hr).append_left _)

theorem prune_toForest {tree : Tree Node} {id : Nat} (h : tree.root.id ≠ id) :
    tree.toForest.prune (fun n => n.id == id) =
      (Tree.mk tree.root (tree.below.prune fun n => n.id == id)).toForest := by
  rw [Tree.toForest, prune, if_neg (by simpa using h)]
  rfl

end Forest

/-- The numbers are in order, and what waits is a node of the tree and waits once. -/
structure Tidy (t : Tableau) : Prop extends Indexed t where
  nodup : t.worklist.Nodup
  waits : ∀ i ∈ t.worklist, ∃ n ∈ t.tree.labels, n.id = i

/-- The tableau with the given forest below its root and without what is no longer there. -/
def Tableau.cutTo (t : Tableau) (below : Forest Node) : Tableau :=
  { t with
    tree := ⟨t.tree.root, below⟩
    nodeCount := (Tree.mk t.tree.root below).size
    worklist := t.worklist.filter ((Tree.mk t.tree.root below).labels.map Node.id).contains }

theorem Tableau.below_cutTo (t : Tableau) (below : Forest Node) : (t.cutTo below).tree.below = below := rfl

namespace Tidy

variable {t : Tableau} {below below' : Forest Node}

theorem of_valid (h : Valid t) : Tidy t where
  toIndexed := h.toIndexed
  nodup := h.nodup
  waits i hi := by
    obtain ⟨n, hn, hid, _⟩ := (h.waiting i).1 hi
    exact ⟨n, hn, hid⟩

theorem cutTo (h : Tidy t) (hshrinks : t.tree.below.Shrinks below) : Tidy (t.cutTo below) where
  numbered := (((hshrinks.cons (.refl .nil) t.tree.root).labels).map Node.id).nodup h.numbered
  id_lt n hn := h.id_lt n ((hshrinks.cons (.refl .nil) t.tree.root).labels.mem hn)
  ordered b hb := by
    obtain ⟨c, hc, hbc⟩ := (hshrinks.cons (.refl .nil) t.tree.root).branches b hb
    exact (h.ordered c hc).sublist hbc
  count := rfl
  nodup := h.nodup.filter _
  waits i hi := by
    have hmem := List.of_mem_filter hi
    rw [List.contains_iff_mem, List.mem_map] at hmem
    exact hmem

theorem cutTo_below (h : Tidy t) : t.cutTo t.tree.below = t := by
  have hworklist : t.worklist.filter (t.tree.labels.map Node.id).contains = t.worklist := by
    refine List.filter_eq_self.2 fun i hi => ?_
    rw [List.contains_iff_mem, List.mem_map]
    exact h.waits i hi
  have hcount : t.tree.size = t.nodeCount := h.count.symm
  exact congrArg₂ (fun nodeCount worklist => { t with nodeCount, worklist }) hcount hworklist

theorem cutTo_cutTo (hshrinks : below.Shrinks below') : (t.cutTo below).cutTo below' = t.cutTo below' := by
  have hworklist : (t.worklist.filter ((Tree.mk t.tree.root below).labels.map Node.id).contains).filter
      ((Tree.mk t.tree.root below').labels.map Node.id).contains =
      t.worklist.filter ((Tree.mk t.tree.root below').labels.map Node.id).contains := by
    rw [List.filter_filter]
    refine List.filter_congr fun i _ => ?_
    rw [Bool.and_eq_left_iff_imp, List.contains_iff_mem, List.contains_iff_mem]
    exact fun hi => ((hshrinks.cons (.refl .nil) t.tree.root).labels.map Node.id).mem hi
  exact congrArg (fun worklist => { t.cutTo below' with worklist }) hworklist

end Tidy

/-- The second arena is the first with the given nodes removed and without links. -/
structure Arena.Buries (ids : List Nat) (a a' : Arena) : Prop where
  options : a'.options = a.options
  root : a'.root = a.root
  openBranches : a'.openBranches = a.openBranches
  terms : a'.terms = a.terms
  names : a'.names = a.names
  length : a'.slots.length = a.slots.length
  worklist : a'.worklist = a.worklist.filter fun i => !ids.contains i
  nodeCount : a'.nodeCount + ids.length = a.nodeCount
  kept : ∀ i ∉ ids, a'.slot i = a.slot i
  buried : ∀ i ∈ ids, ∃ s, a'.slot i = some s ∧ s.Buried

namespace Arena

variable {a a' a'' : Arena} {ids ids' : List Nat} {s : Slot} {id : Nat}

namespace Buries

theorem refl (a : Arena) : Buries [] a a :=
  ⟨rfl, rfl, rfl, rfl, rfl, rfl, (List.filter_eq_self.2 fun _ _ => rfl).symm, rfl, fun _ _ => rfl,
    fun _ hi => by cases hi⟩

theorem trans (h : Buries ids a a') (h' : Buries ids' a' a'') : Buries (ids ++ ids') a a'' where
  options := h'.options.trans h.options
  root := h'.root.trans h.root
  openBranches := h'.openBranches.trans h.openBranches
  terms := h'.terms.trans h.terms
  names := h'.names.trans h.names
  length := h'.length.trans h.length
  worklist := by
    rw [h'.worklist, h.worklist, List.filter_filter]
    refine List.filter_congr fun i _ => ?_
    rw [List.contains_append, Bool.not_or, Bool.and_comm]
  nodeCount := by
    rw [List.length_append, ← h.nodeCount, ← h'.nodeCount]
    omega
  kept i hi := by
    rw [List.mem_append, not_or] at hi
    rw [h'.kept i hi.2, h.kept i hi.1]
  buried i hi := by
    by_cases hi' : i ∈ ids'
    · exact h'.buried i hi'
    · rw [h'.kept i hi']
      exact h.buried i ((List.mem_append.1 hi).resolve_right hi')

end Buries

/-- The second arena differs from the first in what its slots hold, and in nothing else. -/
structure Relinks (a a' : Arena) : Prop where
  options : a'.options = a.options
  root : a'.root = a.root
  openBranches : a'.openBranches = a.openBranches
  terms : a'.terms = a.terms
  names : a'.names = a.names
  length : a'.slots.length = a.slots.length
  worklist : a'.worklist = a.worklist
  nodeCount : a'.nodeCount = a.nodeCount

namespace Relinks

theorem refl (a : Arena) : a.Relinks a :=
  ⟨rfl, rfl, rfl, rfl, rfl, rfl, rfl, rfl⟩

theorem put (a : Arena) (id : Nat) (s : Slot) : a.Relinks (a.put id s) :=
  ⟨rfl, rfl, rfl, rfl, rfl, length_put, rfl, rfl⟩

theorem trans (h : a.Relinks a') (h' : a'.Relinks a'') : a.Relinks a'' :=
  ⟨h'.options.trans h.options, h'.root.trans h.root, h'.openBranches.trans h.openBranches, h'.terms.trans h.terms,
    h'.names.trans h.names, h'.length.trans h.length, h'.worklist.trans h.worklist, h'.nodeCount.trans h.nodeCount⟩

end Relinks

/-- If links are changed and nodes removed so that the slots show a smaller tree, and the nodes that are gone are those
removed, then the arena stands for the tableau that is cut to that tree. -/
theorem Represents.cut {t : Tableau} {below : Forest Node} (h : a.Represents t) (ht : Tidy t) (hlinks : a.Relinks a')
    (hburies : Buries ids a' a'')
    (hids : (t.tree.labels.map Node.id).Perm ((Tree.mk t.tree.root below).labels.map Node.id ++ ids))
    (hholds : a''.Holds none (Tree.mk t.tree.root below).toForest)
    (hkept : ∀ i, (∀ n ∈ t.tree.labels, n.id ≠ i) → a'.slot i = a.slot i) : a''.Represents (t.cutTo below) where
  options := hburies.options.trans (hlinks.options.trans h.options)
  root := hburies.root.trans (hlinks.root.trans h.root)
  length := hburies.length.trans (hlinks.length.trans h.length)
  nodeCount := by
    have hlength := hids.length_eq
    rw [List.length_map, List.length_append, List.length_map, Tree.length_labels, Tree.length_labels, ← ht.count,
      ← h.nodeCount, ← hlinks.nodeCount, ← hburies.nodeCount] at hlength
    exact Nat.add_right_cancel hlength
  openBranches := hburies.openBranches.trans (hlinks.openBranches.trans h.openBranches)
  terms := hburies.terms.trans (hlinks.terms.trans h.terms)
  names := hburies.names.trans (hlinks.names.trans h.names)
  worklist := by
    rw [hburies.worklist, hlinks.worklist, h.worklist]
    refine List.filter_congr fun i hi => ?_
    obtain ⟨n, hn, rfl⟩ := ht.waits i hi
    rw [Bool.eq_iff_iff, Bool.not_eq_true', ← Bool.not_eq_true, List.contains_iff_mem, List.contains_iff_mem]
    constructor
    · exact (List.mem_append.1 (hids.mem_iff.1 (List.mem_map_of_mem hn))).resolve_right
    · exact fun hmem hgone => (List.nodup_append.1 (hids.nodup_iff.1 ht.numbered)).2.2 _ hmem _ hgone rfl
  holds := hholds
  buried := by
    intro i hi hfree
    by_cases hgone : i ∈ ids
    · exact hburies.buried i hgone
    · have hfree' : ∀ n ∈ t.tree.labels, n.id ≠ i := by
        rintro n hn rfl
        rcases List.mem_append.1 (hids.mem_iff.1 (List.mem_map_of_mem hn)) with hmem | hmem
        · obtain ⟨m, hm, hid⟩ := List.mem_map.1 hmem
          exact hfree m hm hid
        · exact hgone hmem
      rw [hburies.kept i hgone, hkept i hfree']
      exact h.buried i hi hfree'

/-- Removing one node whose slot has been found. -/
theorem tombstone_buries (hslot : a.slot id = some s) (hcount : 0 < a.nodeCount) (hnodup : a.worklist.Nodup) :
    ∃ a', a.tombstone id = some a' ∧ Buries [id] a a' := by
  let tomb : Slot := { s with removed := true, node.branchClosed := true, parent := none, children := [] }
  have hput : a.alter id (fun s =>
      { s with removed := true, node.branchClosed := true, parent := none, children := [] }) = some (a.put id tomb) :=
    alter_eq hslot _
  refine ⟨{ (a.put id tomb).dequeue id with nodeCount := a.nodeCount - 1 }, ?_, ?_⟩
  · rw [tombstone, hput]
    change (if a.nodeCount = 0 then none else _) = _
    rw [if_neg (Nat.ne_of_gt hcount)]
    rfl
  · refine ⟨rfl, rfl, rfl, rfl, rfl, length_put, ?_, Nat.sub_add_cancel hcount, fun i hi => ?_, fun i hi => ?_⟩
    · change a.worklist.erase id = _
      rw [hnodup.erase_eq_filter]
      refine List.filter_congr fun i _ => ?_
      rw [List.contains_cons, List.contains_nil, Bool.or_false]
      rfl
    · exact slot_put_ne fun heq => hi (List.mem_singleton.2 heq)
    · rw [List.mem_singleton.1 hi]
      exact ⟨tomb, slot_put_self hslot, rfl, rfl, rfl⟩

theorem Buries.nodup (h : Buries ids a a') (hnodup : a.worklist.Nodup) : a'.worklist.Nodup := by
  rw [h.worklist]
  exact hnodup.filter _

theorem Holds.trees {up : Option Nat} {f : Forest Node} (h : a.Holds up f) :
    ∀ tree ∈ f.trees, a.Holds up tree.toForest := by
  induction f with
  | nil => exact fun _ htree => by cases htree
  | cons n below beside _ ih =>
      intro tree htree
      rcases List.mem_cons.1 htree with rfl | htree
      · exact ⟨h.1, h.2.1, trivial⟩
      · exact ih h.2.2 tree htree

/-- The trees whose roots are on the stack are removed with all that is in them. -/
theorem bury_buries {rounds : Nat} {ts : List (Tree Node)}
    (hts : ∀ tree ∈ ts, ∃ up, a.Holds up tree.toForest) (hids : ((ts.flatMap Tree.labels).map Node.id).Nodup)
    (hrounds : (ts.flatMap Tree.labels).length ≤ rounds) (hcount : (ts.flatMap Tree.labels).length ≤ a.nodeCount)
    (hnodup : a.worklist.Nodup) :
    ∃ ids a', a.bury rounds (ts.map fun tree => tree.root.id) = some a' ∧ Buries ids a a' ∧
      ids.Perm ((ts.flatMap Tree.labels).map Node.id) := by
  induction rounds generalizing a ts with
  | zero =>
      cases ts with
      | nil => exact ⟨[], a, rfl, .refl a, .refl _⟩
      | cons tree ts => simp [Tree.labels, Tree.toForest, Forest.labels] at hrounds
  | succ rounds ih =>
      cases ts with
      | nil => exact ⟨[], a, rfl, .refl a, .refl _⟩
      | cons tree ts =>
          obtain ⟨n, below⟩ := tree
          obtain ⟨up, hslot, hbelow, _⟩ := hts _ List.mem_cons_self
          have hlabels : ((⟨n, below⟩ :: ts : List (Tree Node)).flatMap Tree.labels) =
              n :: (below.labels ++ ts.flatMap Tree.labels) := by
            simp [Tree.labels, Tree.toForest, Forest.labels]
          -- what is on the stack afterwards
          have hperm : ((below.trees.reverse ++ ts).flatMap Tree.labels).Perm
              (below.labels ++ ts.flatMap Tree.labels) := by
            rw [List.flatMap_append, ← Forest.labels_trees]
            exact ((List.reverse_perm _).flatMap_right _).append_right _
          rw [hlabels, List.map_cons, List.nodup_cons] at hids
          rw [hlabels, List.length_cons, ← hperm.length_eq] at hrounds hcount
          obtain ⟨a₁, htomb, hone⟩ := tombstone_buries hslot (Nat.lt_of_lt_of_le (Nat.succ_pos _) hcount) hnodup
          have hts' : ∀ tree ∈ below.trees.reverse ++ ts, ∃ up, a₁.Holds up tree.toForest := by
            intro tree htree
            have hfree : ∀ m ∈ tree.labels, a₁.slot m.id = a.slot m.id := by
              intro m hm
              refine hone.kept m.id fun hmem => hids.1 ?_
              rw [← List.mem_singleton.1 hmem]
              exact List.mem_map_of_mem (hperm.mem_iff.1 (List.mem_flatMap.2 ⟨tree, htree, hm⟩))
            rcases List.mem_append.1 htree with htree | htree
            · exact ⟨_, (hbelow.trees tree (List.mem_reverse.1 htree)).congr hfree⟩
            · obtain ⟨up, hholds⟩ := hts tree (List.mem_cons_of_mem _ htree)
              exact ⟨up, hholds.congr hfree⟩
          obtain ⟨ids, a₂, hbury, hrest, hids'⟩ := ih hts' ((hperm.map Node.id).nodup_iff.2 hids.2)
            (Nat.le_of_succ_le_succ hrounds) (by rw [← hone.nodeCount] at hcount; exact Nat.le_of_succ_le_succ hcount)
            (hone.nodup hnodup)
          refine ⟨[n.id] ++ ids, a₂, ?_, hone.trans hrest, ?_⟩
          · have hstack : (below.roots.map Node.id).reverse ++ ts.map (fun tree => tree.root.id) =
                (below.trees.reverse ++ ts).map fun tree => tree.root.id := by
              rw [List.map_append, List.map_reverse, ← Forest.roots_trees, List.map_map]
              rfl
            rw [List.map_cons, bury, hslot]
            change (a.tombstone n.id).bind _ = _
            rw [htomb, Option.bind_some, hstack]
            exact hbury
          · rw [hlabels, List.map_cons]
            exact (hids'.trans (hperm.map Node.id)).cons n.id

/-- A tree is removed from its root downward. -/
theorem bury_tree {up : Option Nat} {tree : Tree Node} {rounds : Nat} (h : a.Holds up tree.toForest)
    (hids : (tree.labels.map Node.id).Nodup) (hrounds : tree.labels.length ≤ rounds)
    (hcount : tree.labels.length ≤ a.nodeCount) (hnodup : a.worklist.Nodup) :
    ∃ ids a', a.bury rounds [tree.root.id] = some a' ∧ Buries ids a a' ∧ ids.Perm (tree.labels.map Node.id) := by
  have hlabels : [tree].flatMap Tree.labels = tree.labels := List.flatMap_singleton _ _
  have hts : ∀ tree' ∈ [tree], ∃ up, a.Holds up tree'.toForest := by
    intro tree' htree
    rw [List.mem_singleton.1 htree]
    exact ⟨up, h⟩
  have hbury := bury_buries hts (hlabels.symm ▸ hids) (hlabels.symm ▸ hrounds) (hlabels.symm ▸ hcount) hnodup
  rw [hlabels] at hbury
  exact hbury

/-- Pruning at one place, once the head is off the children of its parent. -/
theorem Holds.prune {up : Option Nat} {f : Forest Node} (h : a.Holds up f)
    (heq : ∀ n ∈ (f.prune fun n => n.id == id).labels, ∀ s, a.slot n.id = some s →
      a'.slot n.id = some { s with children := s.children.filter (· != id) }) :
    a'.Holds up (f.prune fun n => n.id == id) := by
  induction f generalizing up with
  | nil => trivial
  | cons n below beside ihb ihs =>
      rw [Forest.prune] at heq ⊢
      by_cases hid : (n.id == id) = true
      · rw [if_pos hid] at heq ⊢
        exact ihs h.2.2 heq
      · rw [if_neg hid] at heq ⊢
        simp only [Forest.labels, List.mem_cons, List.mem_append] at heq
        refine ⟨?_, ihb h.2.1 fun m hm => heq m (Or.inr (Or.inl hm)), ihs h.2.2 fun m hm => heq m (Or.inr (Or.inr hm))⟩
        rw [heq n (Or.inl rfl) _ h.1, Forest.roots_prune, List.filter_map]
        rfl

section Delete

variable {t : Tableau} {r p : Site Node} (h : a.Represents t) (ht : Tidy t) (hr : r ∈ t.tree.sites)
  (hp : p ∈ t.tree.sites) (habove : r.above = p.tree.root :: p.above)

include h ht hr hp habove

/-- A node is taken off the children of its parent, and nothing else has it for a child. -/
theorem unlink_site : ∃ a', a.unlink r.tree.root.id (some p.tree.root.id) = some a' ∧ a.Relinks a' ∧
    (∀ i ≠ p.tree.root.id, a'.slot i = a.slot i) ∧ ∀ n ∈ t.tree.labels, ∀ s, a.slot n.id = some s →
      a'.slot n.id = some { s with children := s.children.filter (· != r.tree.root.id) } := by
  refine ⟨_, alter_eq (h.slot_site hp) _, .put a _ _, fun i hi => slot_put_ne hi, fun n hn s hs => ?_⟩
  obtain ⟨q, hq, rfl⟩ := Forest.exists_site_of_mem_labels hn []
  obtain rfl := Option.some.inj (hs.symm.trans (h.slot_site hq))
  by_cases hid : q.tree.root.id = p.tree.root.id
  · obtain rfl := ht.numbered.site_eq_of_id_eq hq hp hid
    exact slot_put_self (h.slot_site hq)
  · have hfilter : (q.tree.below.roots.map Node.id).filter (· != r.tree.root.id) =
        q.tree.below.roots.map Node.id := by
      refine List.filter_eq_self.2 fun i hi => bne_iff_ne.2 ?_
      rintro rfl
      have hparent := (ht.numbered.mem_children_iff hr hq).1 hi
      rw [habove, List.head?_cons, Option.map_some, Option.some_inj] at hparent
      exact hid hparent.symm
    rw [slot_put_ne hid, hs, hfilter]

/-- Deleting a node of the tree with all that is below it. -/
theorem deleteBranch_site : ∃ a', a.deleteBranch r.tree.root.id = some a' ∧
    a'.Represents (t.cutTo (t.tree.below.prune fun n => n.id == r.tree.root.id)) := by
  have hslot := h.slot_site hr
  rw [habove, List.head?_cons, Option.map_some] at hslot
  have hsub := Forest.labels_sublist_of_mem_sites hr
  have hup : p.tree.root.id < r.tree.root.id := ht.parent_lt hr (by rw [habove]; rfl)
  have hbelow : ∀ m ∈ r.tree.labels, m.id ≠ p.tree.root.id := by
    intro m hm
    by_cases hid : m.id = r.tree.root.id
    · rw [hid]
      exact Nat.ne_of_gt hup
    · exact Nat.ne_of_gt (hup.trans (ht.lt_of_mem_below hr (Tree.mem_below_of_ne_root hm hid)))
  -- the head is taken off the children of its parent
  obtain ⟨a₁, hunlink, hlinks, hkept, hset⟩ := unlink_site h ht hr hp habove
  -- and its tree is buried
  have hholds : a₁.Holds (some p.tree.root.id) r.tree.toForest :=
    Holds.congr ⟨hslot, (h.holds.site rfl hr).2, trivial⟩ fun m hm => hkept m.id (hbelow m hm)
  have hsize : r.tree.labels.length ≤ t.tree.size := Tree.length_labels t.tree ▸ hsub.length_le
  obtain ⟨ids, a', hbury, hburies, hgone⟩ := bury_tree hholds ((hsub.map Node.id).nodup ht.numbered)
    (hsize.trans (ht.toIndexed.size_le.trans (hlinks.length.trans h.length).ge))
    (hsize.trans (ht.count.ge.trans (hlinks.nodeCount.trans h.nodeCount).ge))
    (hlinks.worklist.symm ▸ h.worklist ▸ ht.nodup)
  have hforest : t.tree.toForest.prune (fun n => n.id == r.tree.root.id) =
      (Tree.mk t.tree.root (t.tree.below.prune fun n => n.id == r.tree.root.id)).toForest :=
    Forest.prune_toForest (ht.numbered.root_ne hr (by rw [habove]; exact List.cons_ne_nil _ _))
  have hids : (t.tree.labels.map Node.id).Perm
      ((Tree.mk t.tree.root (t.tree.below.prune fun n => n.id == r.tree.root.id)).labels.map Node.id ++ ids) := by
    have hperm := (Forest.labels_prune_perm ht.numbered hr).map Node.id
    rw [hforest, List.map_append] at hperm
    exact hperm.trans (hgone.symm.append_left _)
  refine ⟨a', ?_, h.cut ht hlinks hburies hids ?_ fun i hi => hkept i ?_⟩
  · rw [deleteBranch, hslot]
    change (a.unlink r.tree.root.id (some p.tree.root.id)).bind _ = _
    rw [hunlink]
    exact hbury
  · rw [← hforest]
    refine h.holds.prune fun n hn s hs => ?_
    have hleft : n.id ∈
        (Tree.mk t.tree.root (t.tree.below.prune fun n => n.id == r.tree.root.id)).labels.map Node.id := by
      rw [Tree.labels, ← hforest]
      exact List.mem_map_of_mem hn
    rw [hburies.kept n.id fun hmem => (List.nodup_append.1 (hids.nodup_iff.1 ht.numbered)).2.2 _ hleft _ hmem rfl]
    exact hset n (Forest.mem_labels_prune hn).1 s hs
  · exact (hi _ (Forest.mem_labels_of_mem_sites hp)).symm

end Delete

/-- Deleting a node with all that is below it, or nothing if it is gone already. -/
theorem deleteBranch_sim {t : Tableau} {head : Nat} (h : a.Represents t) (ht : Tidy t) (hlt : head < t.slots)
    (hroot : head ≠ t.tree.root.id) :
    ∃ a', a.deleteBranch head = some a' ∧ a'.Represents (t.cutTo (t.tree.below.prune fun n => n.id == head)) := by
  rcases h.site_or_buried hlt with ⟨r, hr, rfl⟩ | ⟨hfree, s, hslot, hburied⟩
  · rcases Forest.root_or_below hr with ⟨_, hmem⟩ | ⟨p, hp, habove, _⟩
    · exact absurd (congrArg Node.id (List.mem_singleton.1 hmem)) hroot
    · exact deleteBranch_site h ht hr hp habove
  · have hsame : (t.tree.below.prune fun n => n.id == head) = t.tree.below :=
      Forest.prune_of_forall_not fun n hn => beq_eq_false_iff_ne.2
        (hfree n (List.mem_cons_of_mem _ (List.mem_append_left _ hn)))
    refine ⟨a, ?_, ?_⟩
    · rw [deleteBranch, hslot]
      simp only [Option.bind_eq_bind, Option.bind_some, hburied.removed, if_true]
      rfl
    · rw [hsame, ht.cutTo_below]
      exact h

/-- Deleting branches one after the other deletes them all at once. -/
theorem deleteBranches_sim {t : Tableau} {heads : List Nat} (h : a.Represents t) (ht : Tidy t)
    (hheads : ∀ i ∈ heads, i < t.slots ∧ i ≠ t.tree.root.id) :
    ∃ a', a.deleteBranches heads = some a' ∧
      a'.Represents (t.cutTo (t.tree.below.prune fun n => heads.contains n.id)) := by
  induction heads generalizing a t with
  | nil =>
      refine ⟨a, rfl, ?_⟩
      rw [Forest.prune_of_forall_not fun n _ => List.contains_nil, ht.cutTo_below]
      exact h
  | cons head heads ih =>
      obtain ⟨hlt, hroot⟩ := hheads head List.mem_cons_self
      obtain ⟨a₁, hdelete, h₁⟩ := deleteBranch_sim h ht hlt hroot
      have hshrinks := Forest.Shrinks.prune (fun n : Node => n.id == head) t.tree.below
      obtain ⟨a₂, hrest, h₂⟩ := ih h₁ (ht.cutTo hshrinks) fun i hi => hheads i (List.mem_cons_of_mem _ hi)
      refine ⟨a₂, ?_, ?_⟩
      · change (a.deleteBranch head).bind _ = _
        rw [hdelete]
        exact hrest
      · have hboth : ((t.tree.below.prune fun n => n.id == head).prune fun n => heads.contains n.id) =
            t.tree.below.prune fun n => (head :: heads).contains n.id := by
          refine (Forest.prune_prune _ _ _).trans (Forest.prune_congr fun n _ => ?_)
          rw [List.contains_cons]
        rw [Tableau.below_cutTo, Tidy.cutTo_cutTo (.prune _ _), hboth] at h₂
        exact h₂

end Arena

end Tableaux
