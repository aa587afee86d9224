import Mathlib
import Tableaux.Proofs.Application
import Tableaux.Tableau.Removal

/-!
Removal only takes nodes away: what is left keeps its order, and every branch that is left is part of a branch that
was there. Since marks, worklist and open branches are worked out anew, the bookkeeping is right again afterwards.
-/

namespace Tableaux

/-- The second forest comes out of the first by deletion of labels: they keep their order, and each branch is part of
a branch that was there. -/
structure Forest.Shrinks {α : Type} (f f' : Forest α) : Prop where
  labels : f'.labels.Sublist f.labels
  branches : ∀ b ∈ f'.branches [], ∃ c ∈ f.branches [], b.Sublist c

namespace Forest.Shrinks

variable {α : Type} {f f' f'' g g' : Forest α}

theorem refl (f : Forest α) : Shrinks f f :=
  ⟨.refl _, fun b hb => ⟨b, hb, .refl _⟩⟩

theorem trans (h : Shrinks f f') (h' : Shrinks f' f'') : Shrinks f f'' where
  labels := h'.labels.trans h.labels
  branches := by
    intro b hb
    obtain ⟨c, hc, hbc⟩ := h'.branches b hb
    obtain ⟨d, hd, hcd⟩ := h.branches c hc
    exact ⟨d, hd, hbc.trans hcd⟩

theorem eq_nil (h : Shrinks nil f') : f' = nil := by
  cases f' with
  | nil => rfl
  | cons a below beside => exact absurd h.labels (by simp [Forest.labels])

theorem cons (h : Shrinks f f') (h' : Shrinks g g') (a : α) : Shrinks (.cons a f g) (.cons a f' g') where
  labels := (h.labels.append h'.labels).cons_cons a
  branches := by
    intro b hb
    rcases List.mem_append.1 hb with hb | hb
    · by_cases hf' : f' = nil
      · -- whatever was below `a` is gone, and each branch through `a` ends in it
        subst hf'
        rw [isEmpty_nil, if_pos rfl, List.mem_singleton] at hb
        subst hb
        by_cases hf : f = nil
        · subst hf
          exact ⟨[a], by rw [branches_cons_nil]; exact List.mem_cons_self, .refl _⟩
        · obtain ⟨c, hc⟩ := List.exists_mem_of_ne_nil _ (branches_ne_nil hf [a])
          refine ⟨c, ?_, (suffix_of_mem_branches hc).sublist⟩
          rw [branches_cons_of_ne hf]
          exact List.mem_append_left _ hc
      · have hf : f ≠ nil := by
          rintro rfl
          exact hf' h.eq_nil
        rw [if_neg (by rwa [isEmpty_iff]), branches_eq_map, List.mem_map] at hb
        obtain ⟨d, hd, rfl⟩ := hb
        obtain ⟨c, hc, hdc⟩ := h.branches d hd
        refine ⟨c ++ [a], ?_, hdc.append_right [a]⟩
        rw [branches_cons_of_ne hf, branches_eq_map]
        exact List.mem_append_left _ (List.mem_map_of_mem hc)
    · obtain ⟨c, hc, hbc⟩ := h'.branches b hb
      exact ⟨c, List.mem_append_right _ hc, hbc⟩

/-- The first tree of a forest may go as a whole. -/
theorem drop (h : Shrinks g g') (a : α) (f : Forest α) : Shrinks (.cons a f g) g' where
  labels := h.labels.trans ((List.sublist_append_right _ _).trans (List.sublist_cons_self _ _))
  branches := by
    intro b hb
    obtain ⟨c, hc, hbc⟩ := h.branches b hb
    exact ⟨c, List.mem_append_right _ hc, hbc⟩

/-- What is below the first root may take its place. -/
theorem lift (h : Shrinks f f') (h' : Shrinks g g') (a : α) : Shrinks (.cons a f g) (f'.append g') where
  labels := by
    rw [labels_append]
    exact (h.labels.append h'.labels).trans (List.sublist_cons_self _ _)
  branches := by
    intro b hb
    rw [branches_append] at hb
    rcases List.mem_append.1 hb with hb | hb
    · obtain ⟨c, hc, hbc⟩ := h.branches b hb
      have hf : f ≠ nil := by
        rintro rfl
        cases hc
      refine ⟨c ++ [a], ?_, hbc.trans (List.sublist_append_left _ _)⟩
      rw [branches_cons_of_ne hf, branches_eq_map]
      exact List.mem_append_left _ (List.mem_map_of_mem hc)
    · obtain ⟨c, hc, hbc⟩ := h'.branches b hb
      exact ⟨c, List.mem_append_right _ hc, hbc⟩

theorem prune (p : α → Bool) (f : Forest α) : Shrinks f (f.prune p) := by
  induction f with
  | nil => exact refl nil
  | cons a below beside ihb ihs =>
      rw [Forest.prune]
      split
      · exact ihs.drop a below
      · exact ihb.cons ihs a

theorem splice (p : α → Bool) (f : Forest α) : Shrinks f (f.splice p) := by
  induction f with
  | nil => exact refl nil
  | cons a below beside ihb ihs =>
      rw [Forest.splice]
      split
      · exact ihb.lift ihs a
      · exact ihb.cons ihs a

theorem exciseWithin (generations id : Nat) (f : Forest Node) : Shrinks f (f.exciseWithin generations id) := by
  induction generations generalizing id f with
  | zero => exact refl f
  | succ generations ih =>
      have hfold : ∀ (ids : List Nat) (f : Forest Node),
          Shrinks f (ids.foldl (fun rest id => rest.exciseWithin generations id) f) := by
        intro ids
        induction ids with
        | nil => exact refl
        | cons id ids ihids => exact fun f => (ih id f).trans (ihids _)
      rw [Forest.exciseWithin]
      split
      · exact refl f
      · refine Shrinks.trans ?_ (splice _ _)
        split
        · exact refl f
        · exact (prune _ f).trans (hfold _ _)

end Forest.Shrinks

namespace Tableau

variable {t : Tableau}

theorem mem_rebuildWorklist (hi : Indexed t) {before : List Nat} {id : Nat} :
    id ∈ rebuildWorklist t.tree t.slots before ↔ ∃ n ∈ t.tree.labels, n.id = id ∧ n.ticked = false := by
  have heligible : id ∈ (t.tree.labels.filter fun n => !n.ticked).map Node.id ↔
      ∃ n ∈ t.tree.labels, n.id = id ∧ n.ticked = false := @mem_pending t.tree.toForest id
  rw [← heligible, rebuildWorklist]
  simp only [List.mem_append, List.mem_filter, List.mem_range, Bool.and_eq_true, List.contains_iff_mem,
    Bool.not_eq_true', ← Bool.not_eq_true]
  constructor
  · rintro (⟨_, hid⟩ | ⟨_, hid, _⟩) <;> exact hid
  · intro hid
    by_cases hbefore : id ∈ before
    · exact Or.inl ⟨hbefore, hid⟩
    · obtain ⟨n, hn, rfl, _⟩ := heligible.1 hid
      exact Or.inr ⟨hi.id_lt n hn, hid, fun h => hbefore h.1⟩

theorem nodup_rebuildWorklist {before : List Nat} (h : before.Nodup) (tree : Tree Node) (slots : Nat) :
    (rebuildWorklist tree slots before).Nodup := by
  refine List.nodup_append.2 ⟨h.filter _, List.nodup_range.filter _, ?_⟩
  intro i hi j hj heq
  subst heq
  simp only [List.mem_filter, Bool.and_eq_true, Bool.not_eq_true', ← Bool.not_eq_true, List.contains_iff_mem] at hi hj
  exact hj.2.2 hi

/-- The tableau after a removal, before its branches are checked. -/
def cleared (t : Tableau) : Tableau :=
  { t with
    tree := t.tree.map clearMarks
    openBranches := t.tree.leaves.length
    worklist := rebuildWorklist t.tree t.slots t.worklist }

theorem branchClosed_cleared {n : Node} (hn : n ∈ t.cleared.tree.labels) : n.branchClosed = false := by
  rw [cleared, Tree.labels_map, List.mem_map] at hn
  obtain ⟨m, _, rfl⟩ := hn
  rfl

theorem compared_cleared {n : Node} (hn : n ∈ t.cleared.tree.labels) : n.compared = false := by
  rw [cleared, Tree.labels_map, List.mem_map] at hn
  obtain ⟨m, _, rfl⟩ := hn
  rfl

theorem indexed_cleared (h : Indexed t) : Indexed t.cleared := by
  refine h.of_rel (R := fun n m => m = clearMarks n) ?_ ?_ rfl rfl
  · rw [cleared, Tree.toForest_map]
    exact Forest.Rel.of_map (R := fun n m => m = clearMarks n) (fun n => rfl) _
  · rintro n _ rfl
    rfl

/-- Without marks, and with all nodes waiting that are not ticked, the bookkeeping is right. -/
theorem valid_cleared (hi : Indexed t) (hnodup : t.worklist.Nodup)
    (hs : ∀ n ∈ t.tree.labels, n.Settled t.terms t.names) : Valid t.cleared where
  toIndexed := indexed_cleared hi
  agree := Forest.marksAgree_of_forall_open fun n hn => branchClosed_cleared hn
  nodup := nodup_rebuildWorklist hnodup t.tree t.slots
  waiting := by
    intro id
    have hworklist : id ∈ t.cleared.worklist ↔ _ := mem_rebuildWorklist hi
    rw [hworklist, cleared, Tree.labels_map]
    constructor
    · rintro ⟨n, hn, hid, hticked⟩
      exact ⟨clearMarks n, List.mem_map_of_mem hn, hid, hticked, rfl⟩
    · rintro ⟨m, hm, hid, hticked, _⟩
      obtain ⟨n, hn, rfl⟩ := List.mem_map.1 hm
      exact ⟨n, hn, hid, hticked⟩
  compared := by
    intro b hb
    refine List.pairwise_of_forall_mem_list ?_
    intro n hn m _ hcompared
    rw [compared_cleared (Tree.mem_labels_of_mem_branch hb hn)] at hcompared
    cases hcompared
  refuted := by
    intro leaf up hb hclosed
    rw [branchClosed_cleared (Tree.mem_labels_of_mem_branch hb List.mem_cons_self)] at hclosed
    cases hclosed
  openBranches_eq := by
    have hall : t.cleared.tree.leaves.filter (fun n => !n.branchClosed) = t.cleared.tree.leaves := by
      rw [List.filter_eq_self]
      intro n hn
      rw [branchClosed_cleared ((Forest.leaves_sublist_labels _).mem hn)]
      rfl
    have hleaves : t.cleared.tree.leaves = t.tree.leaves.map clearMarks :=
      Forest.leaves_map clearMarks t.tree.toForest
    rw [Tree.openCount, hall, hleaves, List.length_map]
    rfl
  settled := by
    intro m hm
    rw [cleared, Tree.labels_map, List.mem_map] at hm
    obtain ⟨n, hn, rfl⟩ := hm
    obtain ⟨hfolded, hliteral, hreusable, hnamed, hentered⟩ := hs n hn
    exact ⟨hfolded, hliteral, hreusable, hnamed, hentered⟩

/-- The tableau with a node and everything developed from it cut out of its tree. -/
def excised (t : Tableau) (id : Nat) : Tableau :=
  { t with
    tree := ⟨t.tree.root, t.tree.below.excise id⟩
    nodeCount := t.nodeCount - (t.tree.below.size - (t.tree.below.excise id).size) }

theorem shrinks_excised (t : Tableau) (id : Nat) : t.tree.toForest.Shrinks (t.excised id).tree.toForest :=
  (Forest.Shrinks.exciseWithin _ id t.tree.below).cons (.refl .nil) t.tree.root

theorem indexed_excised (h : Indexed t) (id : Nat) : Indexed (t.excised id) where
  numbered := ((shrinks_excised t id).labels.map Node.id).nodup h.numbered
  id_lt n hn := h.id_lt n ((shrinks_excised t id).labels.mem hn)
  ordered := by
    intro b hb
    obtain ⟨c, hc, hbc⟩ := (shrinks_excised t id).branches b hb
    exact (h.ordered c hc).sublist hbc
  count := by
    have hle : (t.tree.below.excise id).size ≤ t.tree.below.size := by
      have hlen := (Forest.Shrinks.exciseWithin t.tree.below.size id t.tree.below).labels.length_le
      rwa [Forest.length_labels, Forest.length_labels] at hlen
    have hsize : t.tree.size = 1 + t.tree.below.size := rfl
    have hsize' : (t.excised id).tree.size = 1 + (t.tree.below.excise id).size := rfl
    have hcount := h.count
    change t.nodeCount - (t.tree.below.size - (t.tree.below.excise id).size) = _
    omega

theorem valid_cleared_excised (h : Valid t) (id : Nat) : Valid (t.excised id).cleared :=
  valid_cleared (indexed_excised h.toIndexed id) h.nodup
    fun n hn => h.settled n ((shrinks_excised t id).labels.mem hn)

/-- The three ways a removal can go. -/
theorem remove_cases (t : Tableau) (id : Nat) :
    (∃ refusal, t.node id = .error refusal ∧ t.remove id = (.error refusal, t)) ∨
    (id = t.tree.root.id ∧ t.remove id = (.ok false, t)) ∨
    ∃ n, t.node id = .ok n ∧ id ≠ t.tree.root.id ∧
      t.remove id = (.ok true, ((t.excised id).cleared.closeBranches t.tree.root.id).1) := by
  rw [remove]
  cases hnode : t.node id with
  | error refusal => exact Or.inl ⟨refusal, rfl, rfl⟩
  | ok n =>
      by_cases hid : id = t.tree.root.id
      · exact Or.inr (Or.inl ⟨hid, by simp [hid]⟩)
      · refine Or.inr (Or.inr ⟨n, rfl, hid, ?_⟩)
        simp only [hid, if_false]
        rfl

/-- What the removal of a node besides the root comes to. -/
theorem remove_eq {id : Nat} {n : Node} (hnode : t.node id = .ok n) (hroot : id ≠ t.tree.root.id) :
    t.remove id = (.ok true, ((t.excised id).cleared.closeBranches t.tree.root.id).1) := by
  rcases remove_cases t id with ⟨_, herror, _⟩ | ⟨hid, _⟩ | ⟨_, _, _, heq⟩
  · cases hnode.symm.trans herror
  · exact absurd hid hroot
  · exact heq

/-- A removal leaves the numbers of the nodes where it leaves the nodes. -/
theorem ids_remove {id : Nat} {n : Node} (hnode : t.node id = .ok n) (hroot : id ≠ t.tree.root.id) :
    (t.remove id).2.tree.map Node.id = (t.excised id).tree.map Node.id := by
  rw [remove_eq hnode hroot]
  refine (Tree.map_eq_of_rel (closesTo_closeBranches _ _).tree fun _ _ hnm => hnm.id).trans ?_
  rw [cleared, Tree.map, Tree.map, Tree.map, Forest.map_map]
  rfl

theorem valid_remove (h : Valid t) (id : Nat) : Valid (t.remove id).2 := by
  rcases remove_cases t id with ⟨_, _, heq⟩ | ⟨_, heq⟩ | ⟨_, _, _, heq⟩
  · rw [heq]
    exact h
  · rw [heq]
    exact h
  · rw [heq]
    have hcleared := valid_cleared_excised h id
    exact hcleared.closesTo (closesTo_closeBranches _ _) (coherent_closeBranches hcleared.toCoherent _)

end Tableau

end Tableaux
