import Mathlib
import Tableaux.Proofs.Runs

/-!
What can be asked about the nodes of a tableau fits together: the parent of a node and the children of a node tell the
same story, everything that is left hangs on the root, nothing that was removed is heard of again, and the number of
nodes is the number of those that can be found.
-/

namespace Tableaux

namespace Tableau

variable {t : Tableau} {s : Site Node} {id : Nat}

/-- Whether a node with the given number is in the tree. -/
def isLive (t : Tableau) (id : Nat) : Bool :=
  (t.node id).isOk

theorem isLive_iff (h : t.tree.Numbered) : t.isLive id = true ↔ ∃ n ∈ t.tree.labels, n.id = id := by
  rw [isLive]
  constructor
  · intro hok
    cases hnode : t.node id with
    | ok n => exact ⟨n, node_eq_ok hnode⟩
    | error e => rw [hnode] at hok; cases hok
  · rintro ⟨n, hn, rfl⟩
    rw [node_of_mem h hn]
    rfl

theorem isLive_site (h : t.tree.Numbered) (hs : s ∈ t.tree.sites) : t.isLive s.tree.root.id = true :=
  (isLive_iff h).2 ⟨_, Forest.mem_labels_of_mem_sites hs, rfl⟩

theorem exists_site_of_isLive (h : t.tree.Numbered) (hid : t.isLive id = true) :
    ∃ s ∈ t.tree.sites, s.tree.root.id = id := by
  obtain ⟨n, hn, rfl⟩ := (isLive_iff h).1 hid
  obtain ⟨s, hs, rfl⟩ := Forest.exists_site_of_mem_labels hn []
  exact ⟨s, hs, rfl⟩

theorem parent_site (h : t.tree.Numbered) (hs : s ∈ t.tree.sites) :
    t.parent s.tree.root.id = s.above.head?.map Node.id := by
  rw [parent, Tree.parent?, h.trail_eq_above hs, List.getElem?_cons_succ, List.head?_eq_getElem?]

theorem children_site (h : t.tree.Numbered) (hs : s ∈ t.tree.sites) :
    t.children s.tree.root.id = s.tree.below.roots.map Node.id := by
  rw [children, subtree_site h hs]

theorem subtree_eq_none (h : t.tree.Numbered) (hid : t.isLive id = false) : t.subtree id = none := by
  cases hsub : t.subtree id with
  | none => rfl
  | some tree =>
      have hlive := (isLive_iff h).2 ⟨_, subtree_root_mem hsub⟩
      rw [hid] at hlive
      cases hlive

/-- A removed node has no children and no parent. -/
theorem forgotten (h : t.tree.Numbered) (hid : t.isLive id = false) : t.parent id = none ∧ t.children id = [] := by
  have hsub := subtree_eq_none h hid
  constructor
  · have hfind : (t.tree.sites.find? fun s => s.tree.root.id == id) = none := by
      rw [subtree, Tree.find?, Forest.find?_eq_sites _ [], Option.map_map, Option.map_eq_none_iff] at hsub
      exact hsub
    have htrail : t.tree.toForest.trail? (·.id == id) [] = none := by
      rw [Forest.trail?_eq_sites, Option.map_eq_none_iff]
      exact hfind
    rw [parent, Tree.parent?, Tree.trail, htrail]
    rfl
  · rw [children, hsub]

/-- A child names its parent. -/
theorem parent_of_mem_children (h : t.tree.Numbered) {p : Nat} (hid : id ∈ t.children p) :
    t.parent id = some p ∧ t.isLive id = true := by
  cases hlive : t.isLive p with
  | false =>
      rw [(forgotten h hlive).2] at hid
      cases hid
  | true =>
      obtain ⟨s, hs, rfl⟩ := exists_site_of_isLive h hlive
      rw [children_site h hs, List.mem_map] at hid
      obtain ⟨r, hr, rfl⟩ := hid
      obtain ⟨s', hs', rfl, habove⟩ := Forest.exists_site_of_mem_roots hr (s.tree.root :: s.above)
      have hs' := Forest.sites_below_subset hs s' hs'
      refine ⟨?_, isLive_site h hs'⟩
      rw [parent_site h hs', habove]
      rfl

theorem nodup_children (h : t.tree.Numbered) (p : Nat) : (t.children p).Nodup := by
  cases hlive : t.isLive p with
  | false =>
      rw [(forgotten h hlive).2]
      exact List.nodup_nil
  | true =>
      obtain ⟨s, hs, rfl⟩ := exists_site_of_isLive h hlive
      rw [children_site h hs]
      have hsub : s.tree.below.roots.Sublist t.tree.labels :=
        (Forest.roots_sublist_labels _).trans (Forest.labels_below_sublist_of_mem_sites hs)
      exact (hsub.map Node.id).nodup h

/-- A node other than the root has a parent, which was made before it and has it for a child. -/
theorem exists_parent (h : Indexed t) (hid : t.isLive id = true) (hroot : id ≠ t.tree.root.id) :
    ∃ p, t.parent id = some p ∧ t.isLive p = true ∧ p < id ∧ id ∈ t.children p := by
  obtain ⟨s, hs, rfl⟩ := exists_site_of_isLive h.numbered hid
  rcases Forest.root_or_below hs with ⟨_, hmem⟩ | ⟨r, hr, habove, hbelow⟩
  · exact absurd (congrArg Node.id (List.mem_singleton.1 hmem)) hroot
  · have hr : r ∈ t.tree.sites := hr
    refine ⟨r.tree.root.id, ?_, isLive_site h.numbered hr, ?_, ?_⟩
    · rw [parent_site h.numbered hs, habove]
      rfl
    · obtain ⟨pre, hb⟩ := Forest.exists_branch_of_site hs
      have hordered := (h.ordered _ hb).sublist (List.sublist_append_right _ _)
      rw [habove] at hordered
      exact (List.pairwise_cons.1 hordered).1 _ List.mem_cons_self
    · rw [children_site h.numbered hr]
      exact List.mem_map_of_mem hbelow

theorem parent_root (h : t.tree.Numbered) : t.parent t.tree.root.id = none :=
  parent_site h (s := ⟨t.tree, []⟩) List.mem_cons_self

/-- Every node can be reached from the root by going from parent to child. -/
theorem reachable_of_isLive (h : Indexed t) (hid : t.isLive id = true) :
    Relation.ReflTransGen (fun p c => c ∈ t.children p) t.tree.root.id id := by
  induction id using Nat.strong_induction_on with
  | _ id ih =>
      by_cases hroot : id = t.tree.root.id
      · rw [hroot]
      · obtain ⟨p, _, hlive, hlt, hmem⟩ := exists_parent h hid hroot
        exact (ih p hlt hlive).tail hmem

/-- The nodes that can be found are as many as there are in the tree. -/
theorem length_live (h : Indexed t) : ((List.range t.slots).filter t.isLive).length = t.nodeCount := by
  have hperm : ((List.range t.slots).filter t.isLive).Perm (t.tree.labels.map Node.id) := by
    rw [List.perm_ext_iff_of_nodup (List.nodup_range.filter _) h.numbered]
    intro id
    rw [List.mem_filter, List.mem_range, isLive_iff h.numbered, List.mem_map]
    constructor
    · exact fun hid => hid.2
    · rintro ⟨n, hn, rfl⟩
      exact ⟨h.id_lt n hn, n, hn, rfl⟩
  rw [hperm.length_eq, List.length_map, Tree.length_labels, h.count]

/-- A node that a removal leaves was there before; at most its marks have changed. -/
theorem exists_of_mem_remove {m : Node} (hm : m ∈ (t.remove id).2.tree.labels) :
    ∃ n ∈ t.tree.labels, m.id = n.id ∧ m.ticked = n.ticked ∧ m.signed = n.signed ∧ m.origin = n.origin ∧
      m.instances = n.instances := by
  rcases remove_cases t id with ⟨_, _, heq⟩ | ⟨_, heq⟩ | ⟨_, _, _, heq⟩
  · rw [heq] at hm
    exact ⟨m, hm, rfl, rfl, rfl, rfl, rfl⟩
  · rw [heq] at hm
    exact ⟨m, hm, rfl, rfl, rfl, rfl, rfl⟩
  · rw [heq] at hm
    obtain ⟨k, hk, hkm⟩ := (closesTo_closeBranches _ _).exists_label hm
    rw [cleared, Tree.labels_map, List.mem_map] at hk
    obtain ⟨n, hn, rfl⟩ := hk
    exact ⟨n, (shrinks_excised t id).labels.mem hn, hkm.id, hkm.ticked, hkm.signed, hkm.origin, hkm.instances⟩

/-- After a removal only nodes that were there before are there. -/
theorem isLive_of_isLive_remove (h : Valid t) (id : Nat) {i : Nat} (hi : (t.remove id).2.isLive i = true) :
    t.isLive i = true := by
  obtain ⟨m, hm, rfl⟩ := (isLive_iff (valid_remove h id).numbered).1 hi
  obtain ⟨n, hn, hid, _⟩ := exists_of_mem_remove hm
  exact (isLive_iff h.numbered).2 ⟨n, hn, hid.symm⟩

theorem slots_remove (t : Tableau) (id : Nat) : (t.remove id).2.slots = t.slots := by
  rcases remove_cases t id with ⟨_, _, heq⟩ | ⟨_, heq⟩ | ⟨_, _, _, heq⟩
  · rw [heq]
  · rw [heq]
  · rw [heq]
    exact (closesTo_closeBranches _ _).slots

end Tableau

end Tableaux
