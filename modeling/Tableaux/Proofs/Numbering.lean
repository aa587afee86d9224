import Tableaux.Proofs.Forest
import Tableaux.Tableau.Basic

/-!
Trees of nodes with different numbers. The number of a node then determines the node, what is below it and what is
above it, so that the look-ups by number find what is meant. A leaf is on one branch only.
-/

namespace Tableaux

/-- A search by a key that tells the elements apart finds the element with that key. -/
theorem find?_key_eq_some {α : Type} {key : α → Nat} {l : List α} (h : (l.map key).Nodup) {a : α} (ha : a ∈ l) :
    l.find? (fun b => key b == key a) = some a := by
  have hsome : (l.find? fun b => key b == key a).isSome = true := by
    rw [List.find?_isSome]
    exact ⟨a, ha, by simp⟩
  obtain ⟨b, hb⟩ := Option.isSome_iff_exists.1 hsome
  have hkey : key b = key a := by simpa using List.find?_some hb
  rw [hb, List.inj_on_of_nodup_map h (List.mem_of_find?_eq_some hb) ha hkey]

theorem Forest.site_eq_of_id_eq {f : Forest Node} (h : (f.labels.map Node.id).Nodup) {s s' : Site Node}
    (hs : s ∈ f.sites []) (hs' : s' ∈ f.sites []) (hid : s.tree.root.id = s'.tree.root.id) : s = s' := by
  rw [← map_root_sites [], List.map_map] at h
  exact List.inj_on_of_nodup_map h hs hs' hid

namespace Tree

/-- No two nodes have the same number. -/
def Numbered (t : Tree Node) : Prop :=
  (t.labels.map Node.id).Nodup

theorem map_root_sites (t : Tree Node) : t.sites.map (fun s => s.tree.root.id) = t.labels.map Node.id := by
  rw [labels, ← Forest.map_root_sites [], List.map_map]
  rfl

theorem mem_labels_of_mem_branch {t : Tree Node} {b : List Node} (hb : b ∈ t.branches) {n : Node} (hn : n ∈ b) :
    n ∈ t.labels :=
  Forest.mem_labels_of_mem_branch hb hn

theorem exists_branch_of_mem_labels {t : Tree Node} {n : Node} (hn : n ∈ t.labels) : ∃ b ∈ t.branches, n ∈ b :=
  Forest.exists_branch_of_mem_labels hn

theorem exists_site {t : Tree Node} {pre up : List Node} {n : Node} (hb : pre ++ n :: up ∈ t.branches) :
    ∃ s ∈ t.sites, s.tree.root = n ∧ s.above = up ∧ pre ++ n :: up ∈ s.tree.toForest.branches up :=
  Forest.exists_site_of_mem_branches hb List.nil_suffix

theorem exists_site_of_leaf {t : Tree Node} {up : List Node} {leaf : Node} (hb : leaf :: up ∈ t.branches) :
    ∃ s ∈ t.sites, s.tree.root = leaf ∧ s.above = up ∧ leaf :: up ∈ s.tree.toForest.branches up := by
  have hb : [] ++ leaf :: up ∈ t.branches := hb
  exact exists_site hb

theorem exists_cons_of_mem_branches {t : Tree Node} {b : List Node} (hb : b ∈ t.branches) :
    ∃ leaf up, b = leaf :: up := by
  obtain ⟨leaf, up, h, _⟩ := Forest.exists_cons_of_mem_branches hb
  exact ⟨leaf, up, h⟩

theorem mem_leaves_iff {t : Tree Node} {leaf : Node} : leaf ∈ t.leaves ↔ ∃ up, leaf :: up ∈ t.branches := by
  rw [leaves, ← Forest.leaves_eq_heads [], List.mem_filterMap]
  constructor
  · rintro ⟨b, hb, hhead⟩
    obtain ⟨l, up, rfl⟩ := exists_cons_of_mem_branches (t := t) hb
    cases hhead
    exact ⟨up, hb⟩
  · rintro ⟨up, hb⟩
    exact ⟨leaf :: up, hb, rfl⟩

namespace Numbered

variable {t : Tree Node} (h : t.Numbered)

include h

theorem eq_of_id_eq {n m : Node} (hn : n ∈ t.labels) (hm : m ∈ t.labels) (hid : n.id = m.id) : n = m :=
  List.inj_on_of_nodup_map h hn hm hid

theorem site_eq_of_id_eq {s s' : Site Node} (hs : s ∈ t.sites) (hs' : s' ∈ t.sites)
    (hid : s.tree.root.id = s'.tree.root.id) : s = s' :=
  Forest.site_eq_of_id_eq h hs hs' hid

theorem find?_site {s : Site Node} (hs : s ∈ t.sites) :
    (t.sites.find? fun r => r.tree.root.id == s.tree.root.id) = some s := by
  rw [Numbered, ← map_root_sites] at h
  exact find?_key_eq_some h hs

theorem find?_eq_tree {s : Site Node} (hs : s ∈ t.sites) : t.find? (·.id == s.tree.root.id) = some s.tree := by
  have hfind := h.find?_site hs
  rw [sites] at hfind
  rw [find?, Forest.find?_eq_sites _ [], hfind]
  rfl

theorem trail_eq_above {s : Site Node} (hs : s ∈ t.sites) :
    t.trail (·.id == s.tree.root.id) = s.tree.root :: s.above := by
  have hfind := h.find?_site hs
  rw [sites] at hfind
  rw [trail, Forest.trail?_eq_sites, hfind]
  rfl

/-- The nodes above a node are the same on every branch. -/
theorem above_eq_of_id_eq {pre pre' up up' : List Node} {n n' : Node} (hb : pre ++ n :: up ∈ t.branches)
    (hb' : pre' ++ n' :: up' ∈ t.branches) (hid : n.id = n'.id) : n = n' ∧ up = up' := by
  obtain ⟨s, hs, rfl, rfl, _⟩ := exists_site hb
  obtain ⟨s', hs', rfl, rfl, _⟩ := exists_site hb'
  have heq := h.site_eq_of_id_eq hs hs' hid
  exact ⟨congrArg (·.tree.root) heq, congrArg Site.above heq⟩

theorem eq_of_leaf_id_eq {n n' : Node} {up up' : List Node} (hb : n :: up ∈ t.branches)
    (hb' : n' :: up' ∈ t.branches) (hid : n.id = n'.id) : n = n' ∧ up = up' :=
  h.above_eq_of_id_eq (show [] ++ n :: up ∈ t.branches from hb) (show [] ++ n' :: up' ∈ t.branches from hb') hid

theorem trail_eq_branch {leaf : Node} {up : List Node} (hb : leaf :: up ∈ t.branches) :
    t.trail (·.id == leaf.id) = leaf :: up := by
  obtain ⟨s, hs, rfl, rfl, _⟩ := exists_site_of_leaf hb
  exact h.trail_eq_above hs

/-- Nothing is below the site of a leaf. -/
theorem below_eq_nil_of_leaf {leaf : Node} {up : List Node} (hb : leaf :: up ∈ t.branches) {s : Site Node}
    (hs : s ∈ t.sites) (hid : s.tree.root.id = leaf.id) : s.tree.below = .nil := by
  obtain ⟨s', hs', hroot, _, hmem⟩ := exists_site_of_leaf hb
  obtain rfl := h.site_eq_of_id_eq hs hs' (hid.trans (congrArg Node.id hroot.symm))
  by_contra hne
  rw [toForest, Forest.branches_cons_of_ne hne, Forest.branches, List.append_nil, hroot, Forest.branches_eq_map,
    List.mem_map] at hmem
  obtain ⟨c, hc, hceq⟩ := hmem
  obtain ⟨l, rest, rfl, _⟩ := Forest.exists_cons_of_mem_branches hc
  have hlen := congrArg List.length hceq
  simp only [List.cons_append, List.length_cons, List.length_append] at hlen
  omega

/-- Only the end of a branch has the number of a leaf. -/
theorem eq_nil_of_leaf {pre up up' : List Node} {n leaf : Node}
    (hb : pre ++ n :: up ∈ t.branches) (hleaf : leaf :: up' ∈ t.branches) (hid : n.id = leaf.id) : pre = [] := by
  obtain ⟨s, hs, rfl, rfl, hmem⟩ := exists_site hb
  have hbelow := h.below_eq_nil_of_leaf hleaf hs hid
  rw [toForest, hbelow, Forest.branches_cons_nil, Forest.branches, List.mem_singleton] at hmem
  have hlen := congrArg List.length hmem
  rw [List.length_append] at hlen
  exact List.eq_nil_of_length_eq_zero (by omega)

theorem leaf_chosen_below {leaf : Node} {up : List Node} (hb : leaf :: up ∈ t.branches) :
    ∀ s ∈ t.toForest.sites [], (s.tree.root.id == leaf.id) = true → s.tree.below = .nil := by
  intro s hs hid
  exact h.below_eq_nil_of_leaf hb hs (by simpa using hid)

end Numbered

end Tree

namespace Tableau

variable {t : Tableau}

theorem subtree_root_mem {id : Nat} {s : Tree Node} (hs : t.subtree id = some s) :
    s.root ∈ t.tree.labels ∧ s.root.id = id := by
  rw [subtree, Tree.find?, Forest.find?_eq_sites _ [], Option.map_map, Option.map_eq_some_iff] at hs
  obtain ⟨site, hsite, rfl⟩ := hs
  exact ⟨Forest.mem_labels_of_mem_sites (List.mem_of_find?_eq_some hsite), by simpa using List.find?_some hsite⟩

theorem node_eq_ok {id : Nat} {n : Node} (hn : t.node id = .ok n) : n ∈ t.tree.labels ∧ n.id = id := by
  rw [node] at hn
  split at hn
  · rename_i s hs
    cases hn
    exact subtree_root_mem hs
  · simp at hn

theorem subtree_site (h : t.tree.Numbered) {s : Site Node} (hs : s ∈ t.tree.sites) :
    t.subtree s.tree.root.id = some s.tree :=
  h.find?_eq_tree hs

theorem node_of_mem (h : t.tree.Numbered) {n : Node} (hn : n ∈ t.tree.labels) : t.node n.id = .ok n := by
  obtain ⟨s, hs, rfl⟩ := Forest.exists_site_of_mem_labels hn []
  rw [node, subtree_site h hs]

theorem node_root (h : t.tree.Numbered) : t.node t.tree.root.id = .ok t.tree.root :=
  node_of_mem h t.tree.root_mem_labels

end Tableau

end Tableaux
