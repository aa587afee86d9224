import Mathlib
import Tableaux.Proofs.Arena.Collecting
import Tableaux.Proofs.Arena.Splicing

/-!
Removal from an arena. What the climbs collect is what a removal looks for below the node, deleting the second siblings
one by one prunes them all, and removing the dependents in turn goes down to at most as many generations as there are
younger nodes. So the slots show at the end the forest that the removal leaves.
-/

namespace Tableaux

namespace Forest

variable {f g : Forest Node} {id generations generations' : Nat}

/-- The numbers are different, and they decrease from the leaves upward. -/
structure Descending (f : Forest Node) : Prop where
  nodup : (f.labels.map Node.id).Nodup
  ordered : ∀ b ∈ f.branches [], b.Pairwise fun n m => m.id < n.id

namespace Descending

theorem shrinks (h : f.Descending) (hshrinks : f.Shrinks g) : g.Descending where
  nodup := (hshrinks.labels.map Node.id).nodup h.nodup
  ordered b hb := by
    obtain ⟨c, hc, hbc⟩ := hshrinks.branches b hb
    exact (h.ordered c hc).sublist hbc

theorem lt_of_mem_below (h : f.Descending) {s : Site Node} (hs : s ∈ f.sites []) {n : Node}
    (hn : n ∈ s.tree.below.labels) : s.tree.root.id < n.id := by
  obtain ⟨b, hb, hsub⟩ := (above_iff h.nodup hs).2 hn
  exact List.pairwise_iff_forall_sublist.1 (h.ordered b hb) hsub

end Descending

theorem exciseWithin_of_not_mem (h : ∀ n ∈ f.labels, n.id ≠ id) (generations : Nat) :
    f.exciseWithin generations id = f := by
  cases generations with
  | zero => rfl
  | succ generations => rw [exciseWithin, find?_eq_none_iff.2 h]

theorem not_mem_of_youngerCount_eq_zero (h : f.youngerCount id = 0) : ∀ n ∈ f.labels, n.id ≠ id := by
  rintro n hn rfl
  exact Nat.ne_of_gt (youngerCount_pos hn) h

/-- With at least as many generations as there are younger nodes, more of them make no difference. -/
theorem exciseWithin_stable (h : f.Descending) (hg : f.youngerCount id ≤ generations)
    (hg' : f.youngerCount id ≤ generations') : f.exciseWithin generations id = f.exciseWithin generations' id := by
  induction generations generalizing f id generations' with
  | zero =>
      have hnone := not_mem_of_youngerCount_eq_zero (Nat.le_zero.1 hg)
      rw [exciseWithin_of_not_mem hnone, exciseWithin_of_not_mem hnone]
  | succ generations ih =>
      cases generations' with
      | zero =>
          have hnone := not_mem_of_youngerCount_eq_zero (Nat.le_zero.1 hg')
          rw [exciseWithin_of_not_mem hnone, exciseWithin_of_not_mem hnone]
      | succ generations' =>
          rw [exciseWithin_succ, exciseWithin_succ, strip, strip]
          cases hfind : f.find? (·.id == id) with
          | none => rfl
          | some found =>
              obtain ⟨s, hs, rfl, rfl⟩ := exists_site_of_find? hfind
              -- each dependent is younger, whatever has been removed before it
              have hfold : ∀ (deps : List Nat) (rest : Forest Node), f.Shrinks rest → (∀ d ∈ deps, s.tree.root.id < d) →
                  deps.foldl (fun rest d => rest.exciseWithin generations d) rest =
                    deps.foldl (fun rest d => rest.exciseWithin generations' d) rest := by
                intro deps
                induction deps with
                | nil => exact fun _ _ _ => rfl
                | cons d deps ihd =>
                    intro rest hshrinks hlt
                    have hcount := youngerCount_lt hshrinks (mem_labels_of_mem_sites hs) (hlt d List.mem_cons_self)
                    rw [List.foldl_cons, List.foldl_cons, ih (h.shrinks hshrinks)
                      (Nat.le_of_lt_succ (hcount.trans_le hg)) (Nat.le_of_lt_succ (hcount.trans_le hg'))]
                    exact ihd _ (hshrinks.trans (.exciseWithin _ d rest)) fun d hd => hlt d (List.mem_cons_of_mem _ hd)
              change (if _ then f else List.foldl _ _ _).splice _ = (if _ then f else List.foldl _ _ _).splice _
              rw [hfold _ _ (.prune _ f) fun d hd => ?_]
              obtain ⟨n, hn, rfl, _⟩ := mem_dependents.1 hd
              exact h.lt_of_mem_below hs hn

end Forest

namespace Indexed

variable {t : Tableau} (h : Indexed t) {r : Site Node} {n : Node}

include h

theorem descending : t.tree.below.Descending where
  nodup := by
    have hids := h.numbered
    rw [Tree.Numbered, Tree.labels, Tree.toForest, Forest.labels, List.map_cons, List.nodup_cons, Forest.labels,
      List.append_nil] at hids
    exact hids.2
  ordered b hb := by
    have hb' : b ++ [t.tree.root] ∈ t.tree.branches := Forest.mem_branches_cons.2 (Or.inr (Or.inl ⟨b, hb, rfl⟩))
    exact (h.ordered _ hb').sublist (List.sublist_append_left _ _)

theorem root_lt (hn : n ∈ t.tree.below.labels) : t.tree.root.id < n.id := by
  have hroot : (⟨t.tree, []⟩ : Site Node) ∈ t.tree.sites := List.mem_cons_self
  exact h.lt_of_mem_below hroot hn

theorem root_le (hn : n ∈ t.tree.labels) : t.tree.root.id ≤ n.id := by
  by_cases heq : n.id = t.tree.root.id
  · exact heq.ge
  · exact (h.root_lt (Tree.mem_below_of_ne_root hn heq)).le

/-- The place of a node besides the root is found in the forest below the root. -/
theorem find?_below (hr : r ∈ t.tree.sites) (hne : r.tree.root.id ≠ t.tree.root.id) :
    t.tree.below.find? (·.id == r.tree.root.id) = some (r.tree.root, r.tree.below) := by
  have hfind := h.numbered.find?_eq_tree hr
  rw [Tree.find?, Tree.toForest, Forest.find?, if_neg (by simpa using hne.symm)] at hfind
  cases hbelow : t.tree.below.find? (·.id == r.tree.root.id) with
  | none =>
      rw [hbelow] at hfind
      cases hfind
  | some found =>
      rw [hbelow] at hfind
      have htree : (⟨found.1, found.2⟩ : Tree Node) = r.tree := Option.some.inj hfind
      rw [← htree]

end Indexed

namespace Arena

variable {a : Arena} {t : Tableau} {id generations : Nat}

/-- If each dependent can be removed, then so can all of them, one after the other. -/
theorem each_sim {f : Forest Node} {deps : List Nat} (hremove : ∀ (a : Arena) (f : Forest Node) (d : Nat), d ∈ deps →
      t.tree.below.Shrinks f → a.Represents (t.cutTo f) →
      ∃ a', removeNode generations d a = some a' ∧ a'.Represents (t.cutTo (f.exciseWithin generations d)))
    (hshrinks : t.tree.below.Shrinks f) (h : a.Represents (t.cutTo f)) :
    ∃ a', each (removeNode generations) deps a = some a' ∧
      a'.Represents (t.cutTo (deps.foldl (fun rest d => rest.exciseWithin generations d) f)) := by
  induction deps generalizing a f with
  | nil => exact ⟨a, rfl, h⟩
  | cons d deps ih =>
      obtain ⟨a₁, hfirst, h₁⟩ := hremove a f d List.mem_cons_self hshrinks h
      obtain ⟨a₂, hrest, h₂⟩ := ih (fun a f d hd => hremove a f d (List.mem_cons_of_mem _ hd))
        (hshrinks.trans (.exciseWithin generations d f)) h₁
      refine ⟨a₂, ?_, h₂⟩
      change (removeNode generations d a).bind _ = _
      rw [hfirst]
      exact hrest

/-- What goes with a node is deleted and removed, if each of its dependents can be removed. -/
theorem strip_sim {r : Site Node} (h : a.Represents t) (ht : Tidy t) (hr : r ∈ t.tree.sites)
    (hne : r.tree.root.id ≠ t.tree.root.id)
    (hremove : ∀ (a : Arena) (f : Forest Node) (d : Nat), r.tree.root.id < d → d < t.slots → t.tree.below.Shrinks f →
      a.Represents (t.cutTo f) →
      ∃ a', removeNode generations d a = some a' ∧ a'.Represents (t.cutTo (f.exciseWithin generations d))) :
    ∃ haul a₁ a₂, a.haul r.tree.root.id = some haul ∧ a.deleteBranches haul.doomed = some a₁ ∧
      each (removeNode generations) haul.dependents a₁ = some a₂ ∧
      a₂.Represents (t.cutTo (t.tree.below.strip generations r.tree.root.id)) := by
  obtain ⟨haul, hhaul, hliteral, hcompound⟩ := h.haul_spec ht.toIndexed hr
  rw [Forest.strip, ht.find?_below hr hne]
  cases hkind : r.tree.root.kind.isLiteral with
  | true =>
      obtain rfl := hliteral hkind
      refine ⟨{}, a, a, hhaul, rfl, rfl, ?_⟩
      simp only [hkind, if_true, ht.cutTo_below]
      exact h
  | false =>
      obtain ⟨hdeps, hdoomed⟩ := hcompound hkind
      have hyounger : ∀ n ∈ r.tree.below.labels, r.tree.root.id < n.id ∧ n.id < t.slots := fun n hn =>
        ⟨ht.lt_of_mem_below hr hn, ht.id_lt n ((Forest.labels_below_sublist_of_mem_sites hr).mem hn)⟩
      obtain ⟨a₁, hdelete, h₁⟩ := deleteBranches_sim h ht fun k hk => by
        obtain ⟨n, hn, rfl⟩ := Forest.exists_of_mem_doomed ((hdoomed k).1 hk)
        obtain ⟨hlt, hbound⟩ := hyounger n hn
        exact ⟨hbound, Nat.ne_of_gt ((ht.root_le (Forest.mem_labels_of_mem_sites hr)).trans_lt hlt)⟩
      have hdependents : ∀ d ∈ haul.dependents, r.tree.root.id < d ∧ d < t.slots := by
        intro d hd
        rw [hdeps] at hd
        obtain ⟨n, hn, rfl, _⟩ := Forest.mem_dependents.1 hd
        exact hyounger n hn
      obtain ⟨a₂, heach, h₂⟩ := each_sim
        (fun a f d hd => hremove a f d (hdependents d hd).1 (hdependents d hd).2) (.prune _ _) h₁
      refine ⟨haul, a₁, a₂, hhaul, hdelete, heach, ?_⟩
      have hsame : (t.tree.below.prune fun n => haul.doomed.contains n.id) = t.tree.below.prune fun n =>
          (r.tree.below.doomed r.tree.root.id r.tree.below.secondOfTwo).contains n.id :=
        Forest.prune_congr fun n _ => Bool.eq_iff_iff.2 (by
          rw [List.contains_iff_mem, List.contains_iff_mem, hdoomed])
      rw [hsame, hdeps] at h₂
      simp only [hkind, Bool.false_eq_true, if_false]
      exact h₂

/-- Removing a node with everything developed from it, if there are generations enough. -/
theorem removeNode_sim (h : a.Represents t) (ht : Tidy t) (hlt : id < t.slots) (hroot : id ≠ t.tree.root.id)
    (hg : t.tree.below.youngerCount id < generations) :
    ∃ a', removeNode generations id a = some a' ∧
      a'.Represents (t.cutTo (t.tree.below.exciseWithin generations id)) := by
  induction generations generalizing a t id with
  | zero => cases hg
  | succ generations ih =>
      rcases h.site_or_buried hlt with ⟨r, hr, rfl⟩ | ⟨hfree, s, hslot, hburied⟩
      · have hn := Forest.mem_labels_of_mem_sites hr
        have hroots := ht.root_le hn
        have hbelow := Tree.mem_below_of_ne_root hn hroot
        -- the dependents are younger, and so have fewer generations below them
        have hremove : ∀ (a : Arena) (f : Forest Node) (d : Nat), r.tree.root.id < d → d < t.slots →
            t.tree.below.Shrinks f → a.Represents (t.cutTo f) →
            ∃ a', removeNode generations d a = some a' ∧ a'.Represents (t.cutTo (f.exciseWithin generations d)) := by
          intro a f d hd hbound hshrinks h
          have hcount := Forest.youngerCount_lt hshrinks hbelow hd
          obtain ⟨a', hremove, h'⟩ := ih h (ht.cutTo hshrinks) hbound (Nat.ne_of_gt (hroots.trans_lt hd))
            (hcount.trans_le (Nat.le_of_lt_succ hg))
          rw [Tableau.below_cutTo, Tidy.cutTo_cutTo (.exciseWithin _ _ _)] at h'
          exact ⟨a', hremove, h'⟩
        obtain ⟨haul, a₁, a₂, hhaul, hdelete, heach, h₂⟩ := strip_sim h ht hr hroot hremove
        have hshrinks := Forest.Shrinks.strip generations r.tree.root.id t.tree.below
        obtain ⟨a₃, hsplice, h₃⟩ := splice_sim h₂ (ht.cutTo hshrinks) hlt hroot
        rw [Tableau.below_cutTo, Tidy.cutTo_cutTo (.splice _ _), ← Forest.exciseWithin_succ] at h₃
        refine ⟨a₃, ?_, h₃⟩
        rw [removeNode, h.slot_site hr]
        simp only [Option.bind_eq_bind, Option.bind_some, Bool.false_eq_true, if_false, hhaul, hdelete, heach]
        exact hsplice
      · refine ⟨a, ?_, ?_⟩
        · rw [removeNode, hslot]
          simp only [Option.bind_eq_bind, Option.bind_some, hburied.removed, if_true]
          rfl
        · rw [Forest.exciseWithin_of_not_mem fun n hn => hfree n (List.mem_cons_of_mem _ (List.mem_append_left _ hn)),
            ht.cutTo_below]
          exact h

namespace Represents

variable (h : a.Represents t) (hi : Indexed t)

include h

/-- The marks are dropped at every node of the tree. -/
theorem clearMarks : a.clearMarks.Represents { t with tree := t.tree.map Tableau.clearMarks } where
  options := h.options
  root := h.root
  length := (List.length_map _).trans h.length
  nodeCount := h.nodeCount
  openBranches := h.openBranches
  terms := h.terms
  names := h.names
  worklist := h.worklist
  holds := by
    rw [Tree.toForest_map]
    refine h.holds.map (fun n => rfl) fun n hn s hslot hnode => ?_
    obtain ⟨s', hslot', _, hremoved⟩ := h.exists_slot hn
    obtain rfl := Option.some.inj (hslot.symm.trans hslot')
    rw [slot, Arena.clearMarks, List.getElem?_map, ← slot, hslot, Option.map_some, if_neg (by simp [hremoved]), hnode]
  buried := by
    intro j hj hfree
    have hfree' : ∀ n ∈ t.tree.labels, n.id ≠ j := by
      intro n hn
      refine hfree (Tableau.clearMarks n) ?_
      rw [Tree.labels_map]
      exact List.mem_map_of_mem hn
    obtain ⟨s, hslot, hburied⟩ := h.buried j hj hfree'
    refine ⟨s, ?_, hburied⟩
    rw [slot, Arena.clearMarks, List.getElem?_map, ← slot, hslot, Option.map_some, if_pos hburied.removed]

include hi

theorem eligible_eq (hlt : id < t.slots) :
    a.eligible id = some (((t.tree.labels.filter fun n => !n.ticked).map Node.id).contains id) := by
  have hiff : ((t.tree.labels.filter fun n => !n.ticked).map Node.id).contains id = true ↔
      ∃ n ∈ t.tree.labels, n.id = id ∧ n.ticked = false :=
    List.contains_iff_mem.trans Tableau.mem_pending
  rcases h.site_or_buried hlt with ⟨r, hr, rfl⟩ | ⟨hfree, s, hslot, hburied⟩
  · have hn := Forest.mem_labels_of_mem_sites hr
    rw [eligible, h.slot_site hr]
    refine congrArg some (Bool.eq_iff_iff.2 ?_)
    rw [hiff, Bool.not_false, Bool.true_and, Bool.not_eq_true']
    constructor
    · exact fun hticked => ⟨r.tree.root, hn, rfl, hticked⟩
    · rintro ⟨m, hm, hid, hticked⟩
      rwa [← hi.numbered.eq_of_id_eq hm hn hid]
  · rw [eligible, hslot]
    refine congrArg some (Bool.eq_iff_iff.2 ?_)
    rw [hiff, hburied.removed, Bool.not_true, Bool.false_and]
    exact iff_of_false Bool.false_ne_true fun ⟨n, hn, hid, _⟩ => hfree n hn hid

theorem keepEligible_eq {ids : List Nat} (hids : ∀ i ∈ ids, i < t.slots) :
    a.keepEligible ids = some (ids.filter ((t.tree.labels.filter fun n => !n.ticked).map Node.id).contains) := by
  induction ids with
  | nil => rfl
  | cons i ids ih =>
      rw [keepEligible, h.eligible_eq hi (hids i List.mem_cons_self), ih fun j hj => hids j (List.mem_cons_of_mem _ hj),
        List.filter_cons]
      rfl

/-- What is added to a worklist does not wait there yet. -/
theorem addEligible_eq {ids : List Nat} (hids : ∀ i ∈ ids, i < t.slots) (hnodup : ids.Nodup) (worklist : List Nat) :
    a.addEligible ids worklist = some (worklist ++ ids.filter fun i =>
      ((t.tree.labels.filter fun n => !n.ticked).map Node.id).contains i && !worklist.contains i) := by
  induction ids generalizing worklist with
  | nil => rw [addEligible, List.filter_nil, List.append_nil]
  | cons i ids ih =>
      obtain ⟨hnotin, hnodup⟩ := List.nodup_cons.1 hnodup
      have hrest : ∀ j ∈ ids, j < t.slots := fun j hj => hids j (List.mem_cons_of_mem _ hj)
      rw [addEligible, h.eligible_eq hi (hids i List.mem_cons_self), Option.bind_eq_bind, Option.bind_some,
        List.filter_cons, ih hrest hnodup, ih hrest hnodup]
      split
      · -- the node just added is not among those still to come
        have hsame : ∀ j ∈ ids, (worklist ++ [i]).contains j = worklist.contains j := by
          intro j hj
          have hne : j ≠ i := fun heq => hnotin (heq ▸ hj)
          rw [Bool.eq_iff_iff, List.contains_iff_mem, List.contains_iff_mem, List.mem_append, List.mem_singleton]
          exact or_iff_left hne
        rw [List.append_assoc, List.singleton_append, List.filter_congr fun j hj => by rw [hsame j hj]]
      · rfl

end Represents

end Arena

namespace Tableau

variable {t : Tableau}

/-- Whether nodes that are gone still wait makes no difference to the worklist worked out anew. -/
theorem rebuildWorklist_filter (tree : Tree Node) (slots : Nat) (before : List Nat) :
    rebuildWorklist tree slots (before.filter (tree.labels.map Node.id).contains) =
      rebuildWorklist tree slots before := by
  have hkept : (before.filter (tree.labels.map Node.id).contains).filter
      ((tree.labels.filter fun n => !n.ticked).map Node.id).contains =
      before.filter ((tree.labels.filter fun n => !n.ticked).map Node.id).contains := by
    rw [List.filter_filter]
    refine List.filter_congr fun i _ => ?_
    rw [Bool.eq_iff_iff, Bool.and_eq_true, List.contains_iff_mem, List.contains_iff_mem]
    exact and_iff_left_of_imp fun hi => ((List.filter_sublist.map Node.id).mem hi)
  rw [rebuildWorklist, hkept]
  rfl

theorem refresh_eq (t : Tableau) : t.refresh = (t.cleared.closeBranches t.tree.root.id).1 := rfl

theorem cleared_cutTo (h : Indexed t) (id : Nat) :
    (t.cutTo (t.tree.below.excise id)).cleared = (t.excised id).cleared := by
  have hcount := (indexed_excised h id).count
  rw [cleared, cleared, hcount]
  have hworklist := rebuildWorklist_filter (t.excised id).tree t.slots t.worklist
  simp only [cutTo, excised] at hworklist ⊢
  rw [hworklist]

end Tableau

namespace Arena

variable {a : Arena} {t : Tableau} {id : Nat}

/-- Marks, open branches and worklist are worked out anew. -/
theorem refresh_sim (h : a.Represents t) (hi : Indexed t) (hc : Coherent t.cleared)
    (hworklist : ∀ i ∈ t.worklist, i < t.slots) : ∃ a', a.refresh = some a' ∧ a'.Represents t.refresh := by
  have hnumbers := Tableau.indexed_cleared hi
  have hindexed : Indexed { t with tree := t.tree.map Tableau.clearMarks } :=
    ⟨hnumbers.numbered, hnumbers.id_lt, hnumbers.ordered, hnumbers.count⟩
  have hindexed' : Indexed { t with tree := t.tree.map Tableau.clearMarks, openBranches := t.tree.leaves.length } :=
    ⟨hnumbers.numbered, hnumbers.id_lt, hnumbers.ordered, hnumbers.count⟩
  have h₁ := h.clearMarks
  have hleaves : a.clearMarks.leavesBelow a.clearMarks.root false =
      some ((t.tree.map Tableau.clearMarks).leaves.map Node.id) := h₁.leaves_eq hindexed
  have hcount : ((t.tree.map Tableau.clearMarks).leaves.map Node.id).length = t.tree.leaves.length := by
    rw [List.length_map, Tree.leaves, Tree.toForest_map, Forest.leaves_map, List.length_map]
    rfl
  have h₂ := h₁.recount t.tree.leaves.length
  have helig : ((t.tree.map Tableau.clearMarks).labels.filter fun n => !n.ticked).map Node.id =
      (t.tree.labels.filter fun n => !n.ticked).map Node.id := by
    rw [Tree.labels_map, List.filter_map, List.map_map]
    rfl
  have hwaiting : ∀ i ∈ a.clearMarks.worklist, i < t.slots := fun i hi => hworklist i (h₁.worklist ▸ hi)
  have hkept := h₂.keepEligible_eq hindexed' hwaiting
  have hadded := h₂.addEligible_eq hindexed' (fun i hi => List.mem_range.1 hi) List.nodup_range
    (a.clearMarks.worklist.filter ((t.tree.labels.filter fun n => !n.ticked).map Node.id).contains)
  simp only [helig] at hkept hadded
  have h₃ : Represents { a.clearMarks with
      openBranches := t.tree.leaves.length
      worklist := Tableau.rebuildWorklist t.tree t.slots a.clearMarks.worklist } t.cleared := by
    rw [show a.clearMarks.worklist = t.worklist from h₁.worklist]
    exact h₂.requeue _
  obtain ⟨a', hclose, h'⟩ := closeBranches_sim h₃ hc (Tree.root_mem_labels _)
  refine ⟨a', ?_, h'⟩
  have hslots : a.clearMarks.slots.length = t.slots := h₁.length
  rw [show t.cleared.tree.root.id = a.clearMarks.root from h₁.root.symm] at hclose
  simp only [refresh, hleaves, Option.bind_eq_bind, Option.bind_some, hcount, hslots, hkept, hadded]
  exact congrArg (fun r : Option (Arena × Nat) => r.bind fun r => some r.1) hclose

/-- A removal in the arena does what it does in the tree. -/
theorem remove_sim (h : a.Represents t) (hv : Valid t) (id : Nat) : Simulates (a.remove id) (t.remove id) := by
  rcases h.live_eq hv.toIndexed id with ⟨n, s, hnode, hlive, rfl, _, _⟩ | ⟨refusal, hnode, hlive⟩
  · obtain ⟨hmem, rfl⟩ := Tableau.node_eq_ok hnode
    by_cases hroot : s.node.id = t.tree.root.id
    · refine ⟨a, ?_, ?_⟩
      · rw [remove, hlive]
        simp only [h.root, hroot, if_true, Tableau.remove, Tableau.node_of_mem hv.numbered t.tree.root_mem_labels]
      · rw [Tableau.remove, hnode]
        simp only [hroot, if_true]
        exact h
    · have htidy := Tidy.of_valid hv
      have hsize : t.tree.below.size + 1 ≤ t.slots := (Nat.add_comm _ 1).trans_le hv.toIndexed.size_le
      have hyounger : t.tree.below.youngerCount s.node.id ≤ t.tree.below.size :=
        List.countP_le_length.trans_eq (Forest.length_labels _)
      have hlt : t.tree.below.youngerCount s.node.id < t.slots := Nat.lt_of_le_of_lt hyounger hsize
      obtain ⟨b, hremove, hb⟩ := removeNode_sim h htidy (hv.id_lt _ hmem) hroot hlt
      rw [Forest.exciseWithin_stable hv.toIndexed.descending (hyounger.trans (Nat.le_of_succ_le hsize)) hyounger] at hb
      change b.Represents (t.cutTo (t.tree.below.excise s.node.id)) at hb
      have hcut := htidy.cutTo (Forest.Shrinks.exciseWithin t.tree.below.size s.node.id t.tree.below)
      have hcleared := Tableau.cleared_cutTo hv.toIndexed s.node.id
      obtain ⟨a', hrefresh, h'⟩ := refresh_sim hb hcut.toIndexed
        (by rw [hcleared]; exact (Tableau.valid_cleared_excised hv _).toCoherent) fun i hi => by
          obtain ⟨m, hm, rfl⟩ := hcut.waits i hi
          exact hcut.id_lt m hm
      rw [Tableau.refresh_eq, hcleared] at h'
      rw [Tableau.remove_eq hnode hroot]
      refine ⟨a', ?_, h'⟩
      rw [remove, hlive]
      simp only [h.root, hroot, if_false, h.length, hremove, Option.bind_eq_bind, Option.bind_some, hrefresh]
      rfl
  · refine ⟨a, ?_, ?_⟩
    · rw [remove, hlive, Tableau.remove, hnode]
    · rw [Tableau.remove, hnode]
      exact h

end Arena

end Tableaux
