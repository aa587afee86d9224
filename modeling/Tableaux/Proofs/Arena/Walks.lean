import Mathlib
import Tableaux.Proofs.Accounting
import Tableaux.Proofs.Arena.Links
import Tableaux.Proofs.Causes

/-!
Walks through the slots of an arena. There are at least as many slots as nodes in the tree, so a walk downward with a
stack and a climb toward the root come to their ends. The walk finds the leaves of the tree from left to right.
-/

namespace Tableaux

namespace Forest

theorem leavesOutside_none {α : Type} (f : Forest α) : f.leavesOutside (fun _ => false) = f.leaves := by
  induction f with
  | nil => rfl
  | cons n below beside ihb ihs => rw [leavesOutside, leaves, ihb, ihs, if_neg Bool.false_ne_true]

end Forest

/-- Different numbers below a bound are at most as many as the bound. -/
theorem length_le_of_ids {l : List Node} {bound : Nat} (hnodup : (l.map Node.id).Nodup) (hlt : ∀ n ∈ l, n.id < bound) :
    l.length ≤ bound := by
  have hsub : l.map Node.id ⊆ List.range bound := by
    intro i hi
    obtain ⟨n, hn, rfl⟩ := List.mem_map.1 hi
    exact List.mem_range.2 (hlt n hn)
  have hle := (hnodup.subperm hsub).length_le
  rwa [List.length_map, List.length_range] at hle

theorem Tree.mem_labels_of_mem_above {tree : Tree Node} {r : Site Node} (hr : r ∈ tree.sites) {n : Node}
    (hn : n ∈ r.tree.root :: r.above) : n ∈ tree.labels := by
  obtain ⟨pre, hb⟩ := Forest.exists_branch_of_site hr
  exact Tree.mem_labels_of_mem_branch hb (List.mem_append_right _ hn)

theorem Tree.mem_below_of_ne_root {tree : Tree Node} {n : Node} (hn : n ∈ tree.labels) (hne : n.id ≠ tree.root.id) :
    n ∈ tree.below.labels := by
  rw [Tree.labels, Tree.toForest, Forest.labels, Forest.labels, List.append_nil] at hn
  rcases List.mem_cons.1 hn with rfl | hn
  · exact absurd rfl hne
  · exact hn

namespace Tree.Numbered

variable {tree : Tree Node} (h : tree.Numbered) {p q r : Site Node} (hr : r ∈ tree.sites) (hq : q ∈ tree.sites)

include h hr

/-- What has something above it is not the root. -/
theorem root_ne (habove : r.above ≠ []) : tree.root.id ≠ r.tree.root.id := by
  intro heq
  have hroot : (⟨tree, []⟩ : Site Node) ∈ tree.sites := List.mem_cons_self
  rw [← h.site_eq_of_id_eq hroot hr heq] at habove
  exact habove rfl

include hq

theorem above_of_mem_roots (hmem : r.tree.root ∈ q.tree.below.roots) : r.above = q.tree.root :: q.above := by
  obtain ⟨s, hs, hroot, habove⟩ := Forest.exists_site_of_mem_roots hmem (q.tree.root :: q.above)
  obtain rfl := h.site_eq_of_id_eq (Forest.sites_below_subset hq s hs) hr (congrArg Node.id hroot)
  exact habove

/-- Only the site above has the root of this one among its children. -/
theorem eq_of_mem_roots (hp : p ∈ tree.sites) (habove : r.above = p.tree.root :: p.above)
    (hmem : r.tree.root ∈ q.tree.below.roots) : q = p := by
  have hsame := (h.above_of_mem_roots hr hq hmem).symm.trans habove
  exact h.site_eq_of_id_eq hq hp (congrArg Node.id (List.cons.inj hsame).1)

/-- The children of a node are the nodes whose parent it is. -/
theorem mem_children_iff :
    r.tree.root.id ∈ q.tree.below.roots.map Node.id ↔ r.above.head?.map Node.id = some q.tree.root.id := by
  constructor
  · intro hmem
    obtain ⟨m, hm, hid⟩ := List.mem_map.1 hmem
    obtain rfl := h.eq_of_id_eq ((Forest.labels_below_sublist_of_mem_sites hq).mem
      ((Forest.roots_sublist_labels _).mem hm)) (Forest.mem_labels_of_mem_sites hr) hid
    rw [h.above_of_mem_roots hr hq hm, List.head?_cons, Option.map_some]
  · intro hparent
    rcases Forest.root_or_below hr with ⟨habove, _⟩ | ⟨p, hp, habove, hmem⟩
    · rw [habove] at hparent
      cases hparent
    · rw [habove, List.head?_cons, Option.map_some] at hparent
      obtain rfl := h.site_eq_of_id_eq hp hq (Option.some.inj hparent)
      exact List.mem_map_of_mem hmem

end Tree.Numbered

namespace Indexed

variable {t : Tableau} (h : Indexed t)

include h

theorem size_le : t.tree.size ≤ t.slots := by
  rw [← Tree.length_labels]
  exact length_le_of_ids h.numbered h.id_lt

/-- Above a node the numbers decrease. -/
theorem ordered_site {r : Site Node} (hr : r ∈ t.tree.sites) :
    (r.tree.root :: r.above).Pairwise fun n m => m.id < n.id := by
  obtain ⟨pre, hb⟩ := Forest.exists_branch_of_site hr
  exact (h.ordered _ hb).sublist (List.sublist_append_right _ _)

theorem parent_lt {r : Site Node} (hr : r ∈ t.tree.sites) {p : Nat} (hparent : r.above.head?.map Node.id = some p) :
    p < r.tree.root.id := by
  obtain ⟨n, hn, rfl⟩ := Option.map_eq_some_iff.1 hparent
  exact (List.pairwise_cons.1 (h.ordered_site hr)).1 n (List.mem_of_mem_head? hn)

theorem lt_of_mem_below {r : Site Node} (hr : r ∈ t.tree.sites) {n : Node} (hn : n ∈ r.tree.below.labels) :
    r.tree.root.id < n.id := by
  obtain ⟨b, hb, hsub⟩ := (Forest.above_iff h.numbered hr).2 hn
  exact List.pairwise_iff_forall_sublist.1 (h.ordered b hb) hsub

theorem nodup_site {r : Site Node} (hr : r ∈ t.tree.sites) : ((r.tree.root :: r.above).map Node.id).Nodup := by
  rw [List.Nodup, List.pairwise_map]
  exact (h.ordered_site hr).imp fun hlt => Nat.ne_of_gt hlt

theorem length_site_le {r : Site Node} (hr : r ∈ t.tree.sites) : (r.tree.root :: r.above).length ≤ t.slots :=
  length_le_of_ids (h.nodup_site hr) fun n hn => h.id_lt n (Tree.mem_labels_of_mem_above hr hn)

end Indexed

namespace Arena

variable {a : Arena} {t : Tableau}

/-- The walk passes over a forest in at most as many rounds as it has nodes, and collects the leaves that are not cut
off. -/
theorem walk_forest {openOnly : Bool} {up : Option Nat} {f : Forest Node} (h : a.Holds up f)
    {stack leaves found : List Nat} {k rounds : Nat} (hrounds : f.size + k ≤ rounds)
    (hrest : ∀ j, k ≤ j → a.walk openOnly j stack
      (leaves ++ (f.leavesOutside fun n => openOnly && n.branchClosed).map Node.id) = some found) :
    a.walk openOnly rounds (f.roots.map Node.id ++ stack) leaves = some found := by
  induction f generalizing up stack leaves k rounds with
  | nil =>
      rw [Forest.leavesOutside, List.map_nil, List.append_nil] at hrest
      exact hrest rounds (by simpa [Forest.size] using hrounds)
  | cons n below beside ihb ihs =>
      obtain ⟨hslot, hbelow, hbeside⟩ := h
      rw [Forest.size] at hrounds
      obtain ⟨rounds, rfl⟩ : ∃ r, rounds = r + 1 := ⟨rounds - 1, by omega⟩
      rw [Forest.roots, List.map_cons, List.cons_append, walk, hslot]
      rw [Forest.leavesOutside, List.map_append] at hrest
      change (if (openOnly && n.branchClosed) = true then _ else if (below.roots.map Node.id).isEmpty = true then _
        else _) = some found
      by_cases hcut : (openOnly && n.branchClosed) = true
      · rw [if_pos hcut]
        rw [if_pos hcut] at hrest
        exact ihs hbeside (k := k) (by omega) hrest
      · rw [if_neg hcut]
        rw [if_neg hcut] at hrest
        by_cases hne : below = .nil
        · subst hne
          rw [Forest.roots, List.map_nil, List.isEmpty_nil, if_pos rfl]
          refine ihs hbeside (k := k) (by omega) fun j hj => ?_
          rw [List.append_assoc]
          exact hrest j hj
        · have hroots : ¬ (below.roots.map Node.id).isEmpty = true := by
            rw [List.isEmpty_iff, List.map_eq_nil_iff]
            exact fun hnil => hne (Forest.eq_nil_of_roots_eq_nil hnil)
          rw [if_neg hroots]
          rw [if_neg (fun hempty => hne (Forest.isEmpty_iff.1 hempty))] at hrest
          -- first everything below the node, then what is beside it
          refine ihb hbelow (k := beside.size + k) (by omega) fun j hj => ihs hbeside (k := k) (by omega) fun i hi => ?_
          rw [List.append_assoc]
          exact hrest i hi

namespace Represents

variable (h : a.Represents t) (hi : Indexed t) {r : Site Node} (hr : r ∈ t.tree.sites)

include h hi hr

theorem leavesBelow_site (openOnly : Bool) : a.leavesBelow r.tree.root.id openOnly =
    some ((r.tree.toForest.leavesOutside fun n => openOnly && n.branchClosed).map Node.id) := by
  have hholds : a.Holds (r.above.head?.map Node.id) r.tree.toForest :=
    ⟨h.slot_site hr, (h.holds.site rfl hr).2, trivial⟩
  have hsize : r.tree.toForest.size ≤ a.slots.length := by
    rw [h.length, ← Forest.length_labels]
    refine Nat.le_trans (Forest.labels_sublist_of_mem_sites hr).length_le ?_
    rw [Forest.length_labels]
    exact hi.size_le
  have hdone : ∀ j, 0 ≤ j → a.walk openOnly j [] ([] ++
      (r.tree.toForest.leavesOutside fun n => openOnly && n.branchClosed).map Node.id) =
        some ((r.tree.toForest.leavesOutside fun n => openOnly && n.branchClosed).map Node.id) := by
    intro j _
    cases j <;> rfl
  exact walk_forest hholds hsize hdone

/-- The walk downward finds the open leaves below a node. -/
theorem openLeavesBelow_eq : a.leavesBelow r.tree.root.id true = some (t.openLeavesBelow r.tree.root.id) := by
  rw [h.leavesBelow_site hi hr, Tableau.openLeavesBelow, Tableau.subtree_site hi.numbered hr]
  rfl

/-- The walk downward finds the leaves below a node. -/
theorem leavesBelow_eq : a.leavesBelow r.tree.root.id false = some (t.leavesBelow r.tree.root.id) := by
  rw [h.leavesBelow_site hi hr, Tableau.leavesBelow, Tableau.subtree_site hi.numbered hr]
  exact congrArg (fun l => some (List.map Node.id l)) (Forest.leavesOutside_none _)

end Represents

/-- The walk downward from the root finds the leaves of the tree. -/
theorem Represents.leaves_eq (h : a.Represents t) (hi : Indexed t) :
    a.leavesBelow a.root false = some (t.tree.leaves.map Node.id) := by
  have hroot : (⟨t.tree, []⟩ : Site Node) ∈ t.tree.sites := List.mem_cons_self
  rw [h.root, h.leavesBelow_eq hi hroot, Tableau.leavesBelow_root hi.numbered]

end Arena

end Tableaux
