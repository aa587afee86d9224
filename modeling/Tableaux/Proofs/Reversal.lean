import Mathlib
import Tableaux.Proofs.Persistence
import Tableaux.Proofs.Siblings

/-!
Removal undoes development. When a node has been developed for the first time, what came of it stands at the ends of
branches: nothing is below it but more of the same, beside it is nothing else, and nothing was developed from it. Then
the removal of the node, which prunes the second siblings and takes the other nodes out one by one, comes to pruning all
that was developed, and this leaves the tree from before. Everything else about a tableau that has been tidied up,
marks and counts and what waits for development, is a function of its tree.
-/

namespace Tableaux

namespace Forest

variable {f : Forest Node} {p : Node → Bool} {source : Nat → Option Nat} {id generations : Nat}

/-- Where everything below a node that goes is to go as well, nothing is left to take its place. -/
theorem splice_eq_prune (h : ∀ a n, f.Above a n → p a = true → p n = true) : f.splice p = f.prune p := by
  induction f with
  | nil => rfl
  | cons a below beside ihb ihs =>
      have hbelow : ∀ x n, below.Above x n → p x = true → p n = true :=
        fun x n hxn => h x n (above_cons.2 (Or.inr (Or.inl hxn)))
      have hbeside : ∀ x n, beside.Above x n → p x = true → p n = true :=
        fun x n hxn => h x n (above_cons.2 (Or.inr (Or.inr hxn)))
      rw [splice, prune, ihs hbeside]
      split
      · rename_i hp
        rw [splice_eq_nil fun n hn => h a n (above_cons.2 (Or.inl ⟨rfl, hn⟩)) hp, append]
      · rw [ihb hbelow]

/-- The removal of a node that nothing was developed from. -/
theorem exciseWithin_of_barren (h : ∀ n ∈ f.labels, n.origin ≠ some id) :
    f.exciseWithin (generations + 1) id = f.splice (·.id == id) := by
  rw [exciseWithin_succ]
  rcases strip_cases generations id f with ⟨hstrip, _⟩ | ⟨s, hs, rfl, hstrip⟩
  · rw [hstrip]
  · have hbelow : ∀ n ∈ s.tree.below.labels, n.origin ≠ some s.tree.root.id :=
      fun n hn => h n ((labels_below_sublist_of_mem_sites hs).mem hn)
    have hnone : s.tree.below.dependents s.tree.root.id = [] := by
      rw [List.eq_nil_iff_forall_not_mem]
      intro k hk
      obtain ⟨n, hn, _, horigin⟩ := mem_dependents.1 hk
      exact hbelow n hn horigin
    have hkept : ∀ n ∈ f.labels,
        (s.tree.below.doomed s.tree.root.id s.tree.below.secondOfTwo).contains n.id = false := by
      intro n _
      rw [← Bool.not_eq_true, List.contains_iff_mem]
      intro hdoomed
      obtain ⟨r, _, hroots, _, x, hx, horigin⟩ := exists_family_of_mem_doomed hs hdoomed
      exact hbelow x (hroots x hx) horigin
    rw [hstrip, hnone, List.foldl_nil, pruneDoomed, prune_of_forall_not hkept]

/-- The removal of nodes one by one, when nothing was developed from any. -/
theorem foldl_exciseWithin_of_barren {ids : List Nat} (h : ∀ n ∈ f.labels, ∀ k ∈ ids, n.origin ≠ some k) :
    ids.foldl (fun rest k => rest.exciseWithin (generations + 1) k) f = f.splice fun n => ids.contains n.id := by
  induction ids generalizing f with
  | nil => exact (splice_of_forall_not fun _ _ => rfl).symm
  | cons k ids ih =>
      have hrest : ∀ n ∈ (f.splice (·.id == k)).labels, ∀ j ∈ ids, n.origin ≠ some j := by
        intro n hn j hj
        rw [labels_splice] at hn
        exact h n (List.mem_of_mem_filter hn) j (List.mem_cons_of_mem k hj)
      rw [List.foldl_cons, exciseWithin_of_barren fun n hn => h n hn k List.mem_cons_self, ih hrest, splice_splice]
      exact splice_congr fun n _ => by rw [List.contains_cons]

/-- Whether a node was developed from the given one. -/
def developedFrom (id : Nat) (n : Node) : Bool :=
  n.origin == some id

theorem developedFrom_iff {n : Node} : developedFrom id n = true ↔ n.origin = some id :=
  beq_iff_eq

/-- Siblings of which one was developed from the given node all were. -/
def Together (id : Nat) (l : List Node) : Prop :=
  ∀ x ∈ l, x.origin = some id → ∀ y ∈ l, y.origin = some id

theorem Together.of_rel {l l' : List Node} (hl : List.Forall₂ (fun n m : Node => m.origin = n.origin) l l')
    (h : Together id l) : Together id l' := by
  intro x' hx' horigin y' hy'
  obtain ⟨x, hx, hxx'⟩ := exists_of_forall₂_right hl hx'
  obtain ⟨y, hy, hyy'⟩ := exists_of_forall₂_right hl hy'
  rw [hyy']
  exact h x hx (hxx'.symm.trans horigin) y hy

/-- What was developed from a node came last: nothing was developed from it in turn, nothing else is below it, and no
sibling came about in another way. -/
structure Latest (id : Nat) (f : Forest Node) : Prop where
  barren : ∀ n ∈ f.labels, n.origin = some id → ∀ m ∈ f.labels, m.origin ≠ some n.id
  below : ∀ a n, f.Above a n → a.origin = some id → n.origin = some id
  beside : f.Families (Together id)

namespace Latest

/-- Whatever goes as the second of two siblings was developed like the other. -/
theorem origin_of_mem_doomed (h : f.Latest id) (hlinked : f.Linked source) {s : Site Node} (hs : s ∈ f.sites [])
    {n : Node} (hn : n ∈ f.labels) (hdoomed : n.id ∈ s.tree.below.doomed id s.tree.below.secondOfTwo) :
    n.origin = some id := by
  obtain ⟨r, hr, hbelow, hsecond, x, hx, horigin⟩ := exists_family_of_mem_doomed hs hdoomed
  obtain ⟨m, hm, hid⟩ := exists_root_of_secondOfTwo hsecond
  obtain rfl := List.inj_on_of_nodup_map hlinked.nodup ((labels_below_sublist_of_mem_sites hs).mem (hbelow m hm)) hn hid
  exact (families_iff_sites []).1 h.beside r hr x hx horigin m hm

/-- The removal of a node first prunes what was developed from it, if this came last. -/
theorem strip (h : f.Latest id) (hlinked : f.Linked source) :
    f.strip (generations + 1) id = f.prune (developedFrom id) := by
  rcases strip_cases (generations + 1) id f with ⟨hstrip, hnone⟩ | ⟨s, hs, rfl, hstrip⟩
  · rw [hstrip, prune_of_forall_not]
    intro n hn
    rw [← Bool.not_eq_true, developedFrom_iff, hlinked.origin n hn]
    intro hsource
    obtain ⟨a, ha, hid, hliteral, _⟩ := hlinked.exists_source hn hsource
    rcases hnone with hnone | ⟨m, hm, hmid, hmliteral⟩
    · exact hnone a ha hid
    · exact hlinked.source_ne_of_literal hm hmliteral n hn (hmid ▸ hsource)
  · have hdependent : ∀ n ∈ f.labels, (s.tree.below.dependents s.tree.root.id).contains n.id =
        developedFrom s.tree.root.id n := by
      intro n hn
      rw [Bool.eq_iff_iff, List.contains_iff_mem, developedFrom_iff, hlinked.mem_dependents hs, hlinked.origin n hn]
      exact ⟨fun hk => hk.2, fun hsource => ⟨⟨n, hn, rfl⟩, hsource⟩⟩
    have hpruned : ∀ n ∈ (f.pruneDoomed s).labels, n ∈ f.labels := fun n hn => (mem_labels_prune hn).1
    have hbarren : ∀ n ∈ (f.pruneDoomed s).labels, ∀ k ∈ s.tree.below.dependents s.tree.root.id,
        n.origin ≠ some k := by
      intro n hn k hk
      obtain ⟨m, hm, rfl, horigin⟩ := mem_dependents.1 hk
      exact h.barren m ((labels_below_sublist_of_mem_sites hs).mem hm) horigin n (hpruned n hn)
    rw [hstrip, foldl_exciseWithin_of_barren hbarren, splice_congr fun n hn => hdependent n (hpruned n hn),
      splice_eq_prune, pruneDoomed, prune_prune]
    · refine prune_congr fun n hn => ?_
      rw [Bool.eq_iff_iff, Bool.or_eq_true, List.contains_iff_mem, developedFrom_iff, or_iff_right_iff_imp]
      exact h.origin_of_mem_doomed hlinked hs hn
    · intro a n habove ha
      rw [developedFrom_iff] at ha ⊢
      exact h.below a n ((Shrinks.prune _ f).above habove) ha

/-- The removal of a node when what was developed from it came last: this is pruned, and the node is spliced out. -/
theorem exciseWithin (h : f.Latest id) (hlinked : f.Linked source) {n : Node} (hn : n ∈ f.labels) (hid : n.id = id)
    (hg : f.youngerCount id ≤ generations) :
    f.exciseWithin generations id = (f.prune (developedFrom id)).splice (·.id == id) := by
  subst hid
  by_cases hnone : ∀ m ∈ f.labels, m.origin ≠ some n.id
  · obtain ⟨g, rfl⟩ := Nat.exists_eq_add_one.2 ((youngerCount_pos hn).trans_le hg)
    rw [exciseWithin_of_barren hnone, prune_of_forall_not]
    intro m hm
    rw [← Bool.not_eq_true, developedFrom_iff]
    exact hnone m hm
  · -- a node and another one that was developed from it make two generations
    push Not at hnone
    obtain ⟨m, hm, horigin⟩ := hnone
    obtain ⟨_, _, _, _, hlt⟩ := hlinked.exists_source hm ((hlinked.origin m hm).symm.trans horigin)
    have hyounger := youngerCount_lt (Shrinks.refl f) hn hlt
    have hpos := youngerCount_pos hm
    obtain ⟨g, rfl⟩ := Nat.exists_eq_add_of_le' (show 2 ≤ generations by omega)
    rw [exciseWithin_succ, h.strip hlinked]

end Latest

end Forest

theorem Expansion.origin_of_mem_toForest {origin id : Nat} {e : Expansion} {n : Node}
    (hn : n ∈ (e.toForest origin id).labels) : n.origin = some origin := by
  rw [labels_toForest, List.mem_flatMap] at hn
  obtain ⟨p, _, hn⟩ := hn
  obtain ⟨s, _, heq⟩ := Node.exists_of_mem_ofChain hn
  rw [heq]
  rfl

theorem Node.MarkedTo.clearMarks_eq {n m : Node} (h : n.MarkedTo m) : Tableau.clearMarks m = Tableau.clearMarks n := by
  obtain ⟨hid, hsigned, horigin, hticked, hinstances, _⟩ := h
  cases n
  cases m
  simp_all [Tableau.clearMarks]

namespace Tableau

variable {t u : Tableau} {n : Node} {x : Option Term} {e : Expansion}

/-! What is developed first from a node. -/

/-- Without what was developed from a node, the tree is as before. -/
theorem prune_developedFrom (hbarren : ∀ m ∈ t.tree.labels, m.origin ≠ some n.id) (leaves : List Nat) :
    (t.applied n x e leaves).tree.toForest.prune (Forest.developedFrom n.id) =
      t.tree.toForest.map (touch n.id x !n.kind.isReusable) := by
  refine prune_applied leaves (fun _ m _ hm => ?_) (fun m hm => ?_) fun y done m => ?_
  · exact Forest.developedFrom_iff.2 (Expansion.origin_of_mem_toForest hm)
  · rw [← Bool.not_eq_true, Forest.developedFrom_iff]
    exact hbarren m hm
  · rw [Forest.developedFrom, (Node.continues_touch n.id y done m).origin, Forest.developedFrom]

/-- What a rule does to its node is of no account once the node is taken out. -/
theorem splice_map_touch (id : Nat) (x : Option Term) (done : Bool) (f : Forest Node) :
    (f.map (touch id x done)).splice (·.id == id) = f.splice (·.id == id) := by
  simp only [Forest.splice_map, (sameJudgement_touch id x done).id]
  refine (Forest.map_congr fun m hm => ?_).trans (Forest.map_id _)
  rw [Forest.labels_splice, List.mem_filter] at hm
  exact touch_of_ne (by simpa using hm.2) x done

theorem root_applied (t : Tableau) (n : Node) (x : Option Term) (e : Expansion) (leaves : List Nat) :
    (t.applied n x e leaves).tree.root.id = t.tree.root.id := by
  have hgrow : ∀ t : Tableau, (t.grow n.id e leaves).tree.root = t.tree.root := by
    intro t
    induction leaves generalizing t with
    | nil => rfl
    | cons leaf leaves ih => exact ih _
  rw [tree_applied, Tree.map, hgrow, tree_enterTerm, Tree.map, (sameJudgement_touch _ _ _).id,
    (sameJudgement_touch _ _ _).id]

section Developed

variable (hvalid : Valid t) (hbarren : ∀ m ∈ t.tree.labels, m.origin ≠ some n.id)
include hvalid hbarren

/-- The nodes that were developed from the node are those that are new. -/
theorem origin_iff_slots_le
    (happlied : Applied n x e (t.openLeavesBelow n.id) t (t.applied n x e (t.openLeavesBelow n.id)))
    (hcloses : (t.applied n x e (t.openLeavesBelow n.id)).ClosesTo u) {m : Node} (hm : m ∈ u.tree.labels) :
    (m.origin = some n.id ↔ t.slots ≤ m.id) ∧ (m.origin = some n.id ∨ ∃ k ∈ t.tree.labels, m.origin = k.origin) := by
  obtain ⟨m', hm', hmarked⟩ := hcloses.exists_label hm
  rw [hmarked.id, hmarked.origin]
  rcases happlied.label_cases hm' with ⟨k, hk, rfl⟩ | ⟨_, _, s, _, hslots, heq⟩
  · rw [(sameJudgement_touch _ _ _).id, (Node.continues_touch _ _ _ k).origin]
    have hold := Nat.not_le.2 (hvalid.id_lt k hk)
    exact ⟨iff_of_false (hbarren k hk) hold, Or.inr ⟨k, hk, rfl⟩⟩
  · have horigin : m'.origin = some n.id := by
      rw [heq]
      rfl
    exact ⟨iff_of_true horigin hslots, Or.inl horigin⟩

theorem together_applied (he : n.signed.expansion x = some e) :
    (t.applied n x e (t.openLeavesBelow n.id)).tree.toForest.Families (Forest.Together n.id) := by
  refine families_applied hvalid he (fun _ _ => Forest.Together.of_rel) (fun id => ?_) ?_
  · have htogether : ∀ l : List Node, (∀ m ∈ l, m ∈ (e.toForest n.id id).labels) → Forest.Together n.id l :=
      fun l hl _ _ _ y hy => Expansion.origin_of_mem_toForest (hl y hy)
    refine ⟨htogether _ fun m hm => (Forest.roots_sublist_labels _).mem hm, ?_⟩
    exact (Forest.families_iff_sites []).2 fun s hs => htogether _ fun m hm =>
      (Forest.labels_below_sublist_of_mem_sites hs).mem ((Forest.roots_sublist_labels _).mem hm)
  · refine (Forest.families_iff_sites []).2 fun s hs m hm horigin => absurd horigin (hbarren m ?_)
    exact (Forest.labels_below_sublist_of_mem_sites hs).mem ((Forest.roots_sublist_labels _).mem hm)

/-- What is developed from a node for the first time comes last. -/
theorem latest_applied (hcaused : Caused t) (hn : n ∈ t.tree.labels) (he : n.signed.expansion x = some e)
    (happlied : Applied n x e (t.openLeavesBelow n.id) t (t.applied n x e (t.openLeavesBelow n.id)))
    (hcloses : (t.applied n x e (t.openLeavesBelow n.id)).ClosesTo u) (hindexed : Indexed u) :
    u.tree.toForest.Latest n.id where
  barren a ha horigin m hm hdeveloped := by
    have hslots := (origin_iff_slots_le hvalid hbarren happlied hcloses ha).1.1 horigin
    rcases (origin_iff_slots_le hvalid hbarren happlied hcloses hm).2 with hmorigin | ⟨k, hk, hkorigin⟩
    · have hid := Option.some.inj (hmorigin.symm.trans hdeveloped)
      have hlt := hvalid.id_lt n hn
      omega
    · -- what an old node was developed from is old
      obtain ⟨c, hc, hid, _⟩ := hcaused.exists_cause hvalid hk (hkorigin.symm.trans hdeveloped)
      have hlt := hvalid.id_lt c hc
      omega
  below a m habove horigin := by
    have hslots := (origin_iff_slots_le hvalid hbarren happlied hcloses habove.mem_labels).1.1 horigin
    apply (origin_iff_slots_le hvalid hbarren happlied hcloses habove.below_mem_labels).1.2
    obtain ⟨b, hb, hsub⟩ := habove
    have hyounger := List.rel_of_pairwise_cons ((hindexed.ordered b hb).sublist hsub) List.mem_cons_self
    omega
  beside := (together_applied hvalid hbarren he).of_rel hcloses.tree fun _ _ hl =>
    .of_rel (hl.imp fun _ _ hmarked => hmarked.origin)

end Developed

/-! What is left by the removal. -/

/-- After the development of a node from which nothing was developed, its removal leaves the tree that it would have
left before. -/
theorem tree_cleared_excised (hvalid : Valid t) (hcaused : Caused t) (hn : n ∈ t.tree.labels)
    (hroot : n.id ≠ t.tree.root.id) (hbarren : ∀ m ∈ t.tree.labels, m.origin ≠ some n.id)
    (he : n.signed.expansion x = some e)
    (happlied : Applied n x e (t.openLeavesBelow n.id) t (t.applied n x e (t.openLeavesBelow n.id)))
    (hcloses : (t.applied n x e (t.openLeavesBelow n.id)).ClosesTo u) (hvalid' : Valid u) (hcaused' : Caused u)
    {m : Node} (hm : m ∈ u.tree.labels) (hid : m.id = n.id) (hroot' : n.id ≠ u.tree.root.id) :
    (u.excised n.id).cleared.tree = (t.excised n.id).cleared.tree := by
  have hlatest := latest_applied hvalid hbarren hcaused hn he happlied hcloses hvalid'.toIndexed
  have hsize : u.tree.toForest.youngerCount n.id ≤ u.tree.below.size :=
    hid ▸ youngerCount_le_size hvalid'.toIndexed hm (hid ▸ hroot')
  obtain ⟨generations, hgenerations⟩ := exists_size_eq hvalid.toIndexed hn hroot
  apply Tree.eq_of_toForest
  calc (u.excised n.id).cleared.tree.toForest
      = ((u.tree.toForest.prune (Forest.developedFrom n.id)).splice (·.id == n.id)).map clearMarks := by
        rw [cleared, Tree.toForest_map, toForest_excised hvalid'.numbered hroot',
          hlatest.exciseWithin (hcaused'.linked hvalid') hm hid hsize]
    _ = (((u.tree.toForest.map clearMarks).prune (Forest.developedFrom n.id)).splice (·.id == n.id)) := by
        rw [Forest.prune_map, Forest.splice_map]
        rfl
    _ = ((t.tree.toForest.map (touch n.id x !n.kind.isReusable)).splice (·.id == n.id)).map clearMarks := by
        rw [hcloses.tree.map_eq (fun _ _ hmarked => hmarked.clearMarks_eq), Forest.prune_map,
          ← prune_developedFrom hbarren (t.openLeavesBelow n.id), Forest.splice_map]
        rfl
    _ = (t.tree.toForest.splice (·.id == n.id)).map clearMarks := by
        rw [splice_map_touch]
    _ = (t.excised n.id).cleared.tree.toForest := by
        rw [cleared, Tree.toForest_map, toForest_excised hvalid.numbered hroot, hgenerations,
          Forest.exciseWithin_of_barren hbarren]

theorem tree_checkLeaf (h : t.tree = u.tree) (leaf : Nat) : (t.checkLeaf leaf).1.tree = (u.checkLeaf leaf).1.tree := by
  simp only [checkLeaf, closeLeaf, recordScan, h]
  split <;> rfl

/-- How branches are closed depends on the tree alone. -/
theorem tree_closeBranches (h : t.tree = u.tree) (id : Nat) :
    (t.closeBranches id).1.tree = (u.closeBranches id).1.tree := by
  have hleaves : t.openLeavesBelow id = u.openLeavesBelow id := by
    rw [openLeavesBelow, openLeavesBelow, subtree, subtree, h]
  rw [fst_closeBranches, fst_closeBranches, hleaves]
  clear hleaves
  generalize u.openLeavesBelow id = leaves
  induction leaves generalizing t u with
  | nil => exact h
  | cons leaf leaves ih => exact ih (tree_checkLeaf h leaf)

/-- The tableaux have the same nodes at the same places with the same marks, the same counts, and the same nodes that
wait for development, if not in the same order. -/
structure Alike (t u : Tableau) : Prop where
  tree : t.tree = u.tree
  nodeCount : t.nodeCount = u.nodeCount
  openBranches : t.openBranches = u.openBranches
  worklist : ∀ id, id ∈ t.worklist ↔ id ∈ u.worklist

theorem Alike.of_tree (ht : Valid t) (hu : Valid u) (htree : t.tree = u.tree) : t.Alike u where
  tree := htree
  nodeCount := by rw [ht.count, hu.count, htree]
  openBranches := by rw [ht.openBranches_eq, hu.openBranches_eq, htree]
  worklist id := by rw [ht.waiting, hu.waiting, htree]

/-- The removal of a node from which nothing was developed leaves the same with and without a development before. -/
theorem tree_remove_develop (hvalid : Valid t) (hcaused : Caused t) (hn : n ∈ t.tree.labels)
    (hroot : n.id ≠ t.tree.root.id) (hbarren : ∀ m ∈ t.tree.labels, m.origin ≠ some n.id) (term : Option Term) :
    ((t.develop n.id term).2.remove n.id).1 = .ok true ∧
      ((t.develop n.id term).2.remove n.id).2.tree = (t.remove n.id).2.tree := by
  have hnode := node_of_mem hvalid.numbered hn
  rcases develop_cases hvalid n.id term with ⟨_, herror, _⟩ | ⟨_, _, _, heq⟩ | ⟨_, _, _, hok, hticked, hclosed, _⟩
  · cases hnode.symm.trans herror
  · rw [heq, remove_eq hnode hroot]
    exact ⟨rfl, rfl⟩
  · cases hnode.symm.trans hok
    obtain ⟨e, he, happlied, hvalid'⟩ := applied_waiting hvalid hn hticked hclosed term
    have hcloses := closesTo_closeBranches (t.applied n (t.given n term) e (t.openLeavesBelow n.id)) n.id
    obtain ⟨m, hm, hmarked⟩ := hcloses.exists_marked (happlied.mem_labels hn)
    have hid : m.id = n.id := hmarked.id.trans ((sameJudgement_touch _ _ _).id n)
    have hroots := hcloses.root_id.trans (root_applied t n _ e _)
    have hvalid' := valid_closeBranches hvalid' n.id
    rw [develop_eq hvalid hnode hticked hclosed he, remove_eq hnode hroot,
      remove_eq (hid ▸ node_of_mem hvalid'.numbered hm) (hroots ▸ hroot), hroots]
    refine ⟨rfl, tree_closeBranches (tree_cleared_excised hvalid hcaused hn hroot hbarren he happlied hcloses hvalid' ?_
      hm hid (hroots ▸ hroot)) _⟩
    exact (hcaused.applied hvalid hn he happlied).closesTo hcloses

/-- Removal undoes development: from any tableau reached, the development of a node from which nothing was developed,
followed by the removal of the node, comes to the removal alone. -/
theorem run_removal_undoes_development (o : Options) (s : Signed) (steps : List Step) (id : Nat)
    (hid : ((start o s).run steps).isLive id = true) (hroot : id ≠ ((start o s).run steps).tree.root.id)
    (hbarren : ∀ n ∈ ((start o s).run steps).nodes, n.origin ≠ some id) (term : Option Term) :
    ((((start o s).run steps).develop id term).2.remove id).1 = .ok true ∧
    (((start o s).run steps).remove id).1 = .ok true ∧
    ((((start o s).run steps).develop id term).2.remove id).2.Alike (((start o s).run steps).remove id).2 := by
  have hvalid := valid_run o s steps
  obtain ⟨n, hn, rfl⟩ := (isLive_iff hvalid.numbered).1 hid
  have hbarren : ∀ m ∈ ((start o s).run steps).tree.labels, m.origin ≠ some n.id :=
    fun m hm => hbarren m (List.mem_mergeSort.2 hm)
  obtain ⟨hok, htree⟩ := tree_remove_develop hvalid (Caused.run o s steps) hn hroot hbarren term
  refine ⟨hok, by rw [remove_eq (node_of_mem hvalid.numbered hn) hroot], ?_⟩
  exact .of_tree (valid_remove (valid_develop hvalid _ _) _) (valid_remove hvalid _) htree

/-- Besides `A` or `B`, the premises `C` or `D` and not `C`, of which the first is developed alone. -/
def postponement : List Step :=
  [.assume ⟨.binary .disjunction (letter "C") (letter "D"), true⟩, .assume ⟨letter "C", false⟩, .develop 0 none]

/-- The development of the second premise splits both branches and closes one half of each, and its removal takes all
this back. -/
theorem run_removal_undoes_development_witness :
    ((start {} eitherLetter).run postponement).isLive 1 = true ∧
    1 ≠ ((start {} eitherLetter).run postponement).tree.root.id ∧
    (∀ n ∈ ((start {} eitherLetter).run postponement).nodes, n.origin ≠ some 1) ∧
    (((start {} eitherLetter).run postponement).develop 1 none).2.nodeCount = 9 ∧
    (((start {} eitherLetter).run postponement).develop 1 none).2.worklist = [] ∧
    ((((start {} eitherLetter).run postponement).develop 1 none).2.remove 1).2.nodeCount = 4 ∧
    ((((start {} eitherLetter).run postponement).develop 1 none).2.remove 1).2.Alike
      (((start {} eitherLetter).run postponement).remove 1).2 := by
  have hlive : ((start {} eitherLetter).run postponement).isLive 1 = true := by decide +kernel
  have hroot : 1 ≠ ((start {} eitherLetter).run postponement).tree.root.id := by decide +kernel
  have hbarren : ∀ n ∈ ((start {} eitherLetter).run postponement).nodes, n.origin ≠ some 1 := by
    have hlabels : ∀ n ∈ ((start {} eitherLetter).run postponement).tree.labels, n.origin ≠ some 1 := by decide +kernel
    exact fun n hn => hlabels n (List.mem_mergeSort.1 hn)
  have hundone := run_removal_undoes_development {} eitherLetter postponement 1 hlive hroot hbarren none
  exact ⟨hlive, hroot, hbarren, by decide +kernel, by decide +kernel, by decide +kernel, hundone.2.2⟩

end Tableau

end Tableaux
