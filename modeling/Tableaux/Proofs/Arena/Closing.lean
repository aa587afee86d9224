import Mathlib
import Tableaux.Arena.Closure
import Tableaux.Proofs.Arena.Walks
import Tableaux.Proofs.Placement

/-!
Closing of branches in the arena. The climb from a closed leaf stops at the first node that still has an open child. In
a tree whose marks agree this closes the same nodes as a pass over the whole tree does, since the marks of the inner
nodes are determined by those of the leaves. The nodes it closes are taken off the worklist one by one.
-/

namespace Tableaux

/-- The site in the tree with changed nodes. -/
def Site.map {α β : Type} (g : α → β) (s : Site α) : Site β :=
  ⟨s.tree.map g, s.above.map g⟩

/-- The root of the site, if it is an inner node, is closed exactly if everything directly below it is. -/
def Site.Agrees (s : Site Node) : Prop :=
  s.tree.below ≠ .nil → s.tree.root.branchClosed = s.tree.below.roots.all Node.branchClosed

namespace Forest

variable {α β γ : Type}

theorem sites_map (g : α → β) (above : List α) (f : Forest α) :
    (f.map g).sites (above.map g) = (f.sites above).map (Site.map g) := by
  induction f generalizing above with
  | nil => rfl
  | cons a below beside ihb ihs =>
      have hbelow := ihb (a :: above)
      rw [List.map_cons] at hbelow
      rw [map, sites, sites, hbelow, ihs, List.map_cons, List.map_append]
      rfl

theorem Rel.of_maps {R : β → γ → Prop} {g : α → β} {k : α → γ} (hR : ∀ a, R (g a) (k a)) (f : Forest α) :
    Rel R (f.map g) (f.map k) := by
  induction f with
  | nil => exact .nil
  | cons a below beside ihb ihs => exact .cons (hR a) ihb ihs

theorem marksAgree_iff_sites {f : Forest Node} (above : List Node) :
    f.MarksAgree ↔ ∀ s ∈ f.sites above, s.Agrees := by
  induction f generalizing above with
  | nil => simp [MarksAgree, sites]
  | cons n below beside ihb ihs =>
      rw [MarksAgree, ihb (n :: above), ihs above, sites]
      simp only [List.mem_cons, List.mem_append, or_imp, forall_and, forall_eq]
      rfl

/-- Where marks agree, those of the inner nodes are determined by those of the leaves. -/
theorem eq_of_marksAgree {f g : Forest Node}
    (hrel : Rel (fun n m => m = { n with branchClosed := m.branchClosed }) f g) (hf : f.MarksAgree)
    (hg : g.MarksAgree) (hleaves : f.leaves = g.leaves) : f = g := by
  induction hrel with
  | nil => rfl
  | @cons n m below beside below' beside' hnm hb hs ihb ihs =>
      rw [leaves, leaves, hb.isEmpty_eq] at hleaves
      have hlength : (if below.isEmpty = true then [n] else below.leaves).length =
          (if below.isEmpty = true then [m] else below'.leaves).length := by
        split
        · rfl
        · exact hb.leaves.length_eq
      obtain ⟨hbelow, hbeside⟩ := List.append_inj hleaves hlength
      obtain rfl := ihs hf.2.2 hg.2.2 hbeside
      by_cases hne : below = nil
      · subst hne
        cases hb
        rw [isEmpty_nil, if_pos rfl, if_pos rfl] at hbelow
        rw [List.singleton_inj.1 hbelow]
      · rw [if_neg (fun he => hne (isEmpty_iff.1 he)), if_neg (fun he => hne (isEmpty_iff.1 he))] at hbelow
        obtain rfl := ihb hf.2.1 hg.2.1 hbelow
        have hsame : m.branchClosed = n.branchClosed := (hg.1 hne).trans (hf.1 hne).symm
        rw [hsame] at hnm
        rw [hnm]

end Forest

/-- The node is closed if its number is among the given ones. -/
def Node.shut (ids : List Nat) (n : Node) : Node :=
  if ids.contains n.id then { n with branchClosed := true } else n

namespace Node

variable {ids : List Nat} {n : Node}

@[simp]
theorem shut_id : (n.shut ids).id = n.id := by
  rw [shut]
  split <;> rfl

@[simp]
theorem shut_ticked : (n.shut ids).ticked = n.ticked := by
  rw [shut]
  split <;> rfl

theorem shut_branchClosed : (n.shut ids).branchClosed = (ids.contains n.id || n.branchClosed) := by
  rw [shut]
  split
  · rename_i h
    rw [h, Bool.true_or]
  · rename_i h
    rw [Bool.not_eq_true] at h
    rw [h, Bool.false_or]

theorem shut_of_not_mem (h : n.id ∉ ids) : n.shut ids = n := by
  rw [shut, if_neg (by rwa [List.contains_iff_mem])]

theorem shut_shut (ids' : List Nat) : (n.shut ids).shut ids' = n.shut (ids ++ ids') := by
  rw [shut, shut_id, shut, shut]
  by_cases h : n.id ∈ ids <;> by_cases h' : n.id ∈ ids' <;> simp [h, h']

end Node

namespace Tableau

/-- The tableau with the given nodes closed and off the worklist. -/
def shutAt (t : Tableau) (ids : List Nat) : Tableau :=
  { t with tree := t.tree.map (Node.shut ids), worklist := t.worklist.filter fun i => !ids.contains i }

variable {t : Tableau} {r q : Site Node}

theorem shutAt_shutAt (t : Tableau) (ids ids' : List Nat) : (t.shutAt ids).shutAt ids' = t.shutAt (ids ++ ids') := by
  have hroot : (t.tree.root.shut ids).shut ids' = t.tree.root.shut (ids ++ ids') := Node.shut_shut ids'
  simp only [shutAt, Tree.map, Forest.map_map, Node.shut_shut, List.filter_filter, hroot]
  congr 1
  apply List.filter_congr
  intro i _
  rw [List.contains_append, Bool.not_or, Bool.and_comm]

theorem indexed_shutAt (h : Indexed t) (ids : List Nat) : Indexed (t.shutAt ids) :=
  h.of_rel (Forest.Rel.of_map (R := fun n m : Node => m.id = n.id) (fun _ => Node.shut_id) _) (fun _ _ h => h) rfl rfl

theorem sites_shutAt (t : Tableau) (ids : List Nat) :
    (t.shutAt ids).tree.sites = t.tree.sites.map (Site.map (Node.shut ids)) :=
  Forest.sites_map (Node.shut ids) [] t.tree.toForest

theorem mem_sites_shutAt (hr : r ∈ t.tree.sites) (ids : List Nat) :
    r.map (Node.shut ids) ∈ (t.shutAt ids).tree.sites := by
  rw [sites_shutAt]
  exact List.mem_map_of_mem hr

/-- The climb has come to the root of the site: everything below it is closed, everything from there upward is open,
and elsewhere the marks agree. -/
structure Closable (t : Tableau) (r : Site Node) : Prop where
  mem : r ∈ t.tree.sites
  opened : OpenBranch (r.tree.root :: r.above)
  complete : r.tree.below.roots.all Node.branchClosed = true
  agrees : ∀ q ∈ t.tree.sites, q.tree.root.id ≠ r.tree.root.id → q.Agrees
  nodup : t.worklist.Nodup
  waiting : ∀ n ∈ t.tree.labels, n.ticked = true → n.id ∉ t.worklist

namespace Closable

variable (h : Closable t r) (hi : Indexed t)

include h hi

/-- Once the root of the site is closed, the marks agree at every site except that of its parent. -/
theorem agrees_shutAt (hq : q ∈ t.tree.sites) (hparent : r.tree.root ∉ q.tree.below.roots) :
    (q.map (Node.shut [r.tree.root.id])).Agrees := by
  intro hne
  have hne : q.tree.below ≠ .nil := fun hnil => hne (by rw [Site.map, Tree.map, hnil]; rfl)
  change (q.tree.root.shut _).branchClosed = (q.tree.below.map (Node.shut _)).roots.all Node.branchClosed
  rw [Forest.roots_map, List.all_map, Node.shut_branchClosed]
  by_cases hid : q.tree.root.id = r.tree.root.id
  · obtain rfl := hi.numbered.site_eq_of_id_eq hq h.mem hid
    rw [List.contains_cons, beq_self_eq_true, Bool.true_or, Bool.true_or, eq_comm, List.all_eq_true]
    intro m hm
    rw [Function.comp_apply, Node.shut_branchClosed, List.all_eq_true.1 h.complete m hm, Bool.or_true]
  · have hnot : [r.tree.root.id].contains q.tree.root.id = false := by simpa using hid
    rw [hnot, Bool.false_or, h.agrees q hq hid hne, Bool.eq_iff_iff, List.all_eq_true, List.all_eq_true]
    refine forall₂_congr fun m hm => ?_
    have hmr : m.id ≠ r.tree.root.id := by
      intro heq
      have hlabels : m ∈ t.tree.labels := (Forest.labels_below_sublist_of_mem_sites hq).mem
        ((Forest.roots_sublist_labels _).mem hm)
      rw [hi.numbered.eq_of_id_eq hlabels (Forest.mem_labels_of_mem_sites h.mem) heq] at hm
      exact hparent hm
    rw [Function.comp_apply, Node.shut_of_not_mem (by simpa using hmr)]

theorem shut_above {n : Node} (hn : n ∈ r.above) : n.shut [r.tree.root.id] = n := by
  have hlt := (List.pairwise_cons.1 (hi.ordered_site h.mem)).1 n hn
  exact Node.shut_of_not_mem fun hmem => Nat.ne_of_lt hlt (List.mem_singleton.1 hmem)

/-- At the root of the tree, or where the parent has another open child, the climb has closed all that it should. -/
theorem marksAgree_shutAt (hstop : ∀ q ∈ t.tree.sites, r.tree.root ∈ q.tree.below.roots →
      (q.tree.below.map (Node.shut [r.tree.root.id])).roots.all Node.branchClosed = false ∧
        (q.tree.root.shut [r.tree.root.id]).branchClosed = false) :
    (t.shutAt [r.tree.root.id]).tree.toForest.MarksAgree := by
  rw [Forest.marksAgree_iff_sites []]
  intro q' hq'
  rw [← Tree.sites, sites_shutAt, List.mem_map] at hq'
  obtain ⟨q, hq, rfl⟩ := hq'
  by_cases hparent : r.tree.root ∈ q.tree.below.roots
  · intro _
    obtain ⟨hall, hroot⟩ := hstop q hq hparent
    exact hroot.trans hall.symm
  · exact h.agrees_shutAt hi hq hparent

/-- The climb goes on at the parent if all children of the parent are closed now. -/
theorem next {p : Site Node} (hp : p ∈ t.tree.sites) (habove : r.above = p.tree.root :: p.above)
    (hall : (p.tree.below.map (Node.shut [r.tree.root.id])).roots.all Node.branchClosed = true) :
    Closable (t.shutAt [r.tree.root.id]) (p.map (Node.shut [r.tree.root.id])) where
  mem := by
    rw [sites_shutAt]
    exact List.mem_map_of_mem hp
  opened := by
    intro m hm
    have hm : m ∈ (p.tree.root :: p.above).map (Node.shut [r.tree.root.id]) := hm
    rw [← habove] at hm
    obtain ⟨n, hn, rfl⟩ := List.mem_map.1 hm
    rw [h.shut_above hi hn]
    exact h.opened n (List.mem_cons_of_mem _ hn)
  complete := hall
  agrees := by
    intro q' hq' hne
    rw [sites_shutAt, List.mem_map] at hq'
    obtain ⟨q, hq, rfl⟩ := hq'
    refine h.agrees_shutAt hi hq fun hmem => hne ?_
    rw [hi.numbered.eq_of_mem_roots h.mem hq hp habove hmem]
  nodup := h.nodup.filter _
  waiting := by
    intro n' hn' hticked hmem
    rw [shutAt, Tree.labels_map, List.mem_map] at hn'
    obtain ⟨n, hn, rfl⟩ := hn'
    rw [Node.shut_ticked] at hticked
    rw [Node.shut_id] at hmem
    exact h.waiting n hn hticked (List.mem_of_mem_filter hmem)

end Closable

end Tableau

namespace Tableau

/-- The node with the given number ends a closed branch. -/
def endNode (leaf : Nat) (n : Node) : Node :=
  if n.id = leaf then { n with closed := true } else n

/-- The tableau with the mark on a leaf that its branch is closed, before anything else is done about it. -/
def ended (t : Tableau) (leaf : Nat) : Tableau :=
  { t with tree := t.tree.map (endNode leaf), openBranches := t.openBranches - 1 }

theorem endNode_eq (leaf : Nat) (n : Node) :
    (endNode leaf n).id = n.id ∧ (endNode leaf n).ticked = n.ticked ∧
      (endNode leaf n).branchClosed = n.branchClosed := by
  rw [endNode]
  split <;> exact ⟨rfl, rfl, rfl⟩

section Ended

variable {leaf : Node} {up : List Node} {ids : List Nat}

/-- The climb from the leaf and the pass over the tree differ only in which inner nodes they close. -/
theorem closeNode_eq_of_shut (ids : List Nat) (leaf : Nat) (n : Node) :
    closeNode leaf n =
      { (endNode leaf n).shut (leaf :: ids) with branchClosed := (closeNode leaf n).branchClosed } := by
  rw [closeNode, endNode, Node.shut]
  by_cases hid : n.id = leaf
  · simp [hid]
  · rw [if_neg hid, if_neg hid]
    split <;> rfl

theorem shut_endNode_of_not_mem {ids : List Nat} {leaf : Nat} {n : Node} (h : n.id ∉ ids) :
    (endNode leaf n).shut (leaf :: ids) = closeNode leaf n := by
  rw [closeNode, endNode, Node.shut]
  by_cases hid : n.id = leaf
  · simp [hid]
  · simp [hid, h]

theorem indexed_ended (h : Indexed t) (leaf : Nat) : Indexed (t.ended leaf) :=
  h.of_rel (Forest.Rel.of_map (R := fun n m : Node => m.id = n.id) (fun n => (endNode_eq leaf n).1) _) (fun _ _ h => h)
    rfl rfl

theorem marked_ended (h : Marked t) (leaf : Nat) : Marked (t.ended leaf) :=
  marked_of_map (g := endNode leaf) h rfl rfl (endNode_eq leaf)

/-- The climb may start at an open leaf. -/
theorem closable_of_leaf (hi : Indexed t) (h : Marked t) (hr : r ∈ t.tree.sites) (hleaf : r.tree.below = .nil)
    (hopen : OpenBranch (r.tree.root :: r.above)) : Closable t r where
  mem := hr
  opened := hopen
  complete := by
    rw [hleaf]
    rfl
  agrees := fun q hq _ => (Forest.marksAgree_iff_sites []).1 h.agree q hq
  nodup := h.nodup
  waiting := by
    intro n hn hticked hmem
    obtain ⟨m, hm, hid, hunticked, _⟩ := (h.waiting n.id).1 hmem
    rw [hi.numbered.eq_of_id_eq hm hn hid, hticked] at hunticked
    cases hunticked

theorem toForest_shutAt_ended (t : Tableau) (leaf : Nat) (ids : List Nat) : ((t.ended leaf).shutAt ids).tree.toForest =
    t.tree.toForest.map fun n => (endNode leaf n).shut ids :=
  Forest.map_map (endNode leaf) (Node.shut ids) t.tree.toForest

theorem closedAt_shutAt (h : Indexed t) {n : Node} (hn : n ∈ t.tree.labels) (ids : List Nat) :
    closedAt (t.shutAt ids).tree n.id = (ids.contains n.id || n.branchClosed) := by
  rw [← Node.shut_branchClosed, Bool.eq_iff_iff, closedAt, List.any_eq_true, shutAt, Tree.labels_map]
  constructor
  · rintro ⟨m, hm, hclosed⟩
    obtain ⟨m', hm', rfl⟩ := List.mem_map.1 hm
    rw [Bool.and_eq_true, beq_iff_eq, Node.shut_id] at hclosed
    rw [← h.numbered.eq_of_id_eq hm' hn hclosed.1]
    exact hclosed.2
  · intro hclosed
    refine ⟨_, List.mem_map_of_mem hn, ?_⟩
    rw [Node.shut_id, beq_self_eq_true, Bool.true_and]
    exact hclosed

/-- If the nodes the climb has closed are the leaf and some above it, and the marks agree, then the climb has closed
what a pass over the whole tree closes. -/
theorem closeLeaf_eq_shutAt (hi : Indexed t) (h : Marked t) (hleaf : leaf :: up ∈ t.tree.branches) {ids : List Nat}
    (hagree : ((t.ended leaf.id).shutAt (leaf.id :: ids)).tree.toForest.MarksAgree)
    (hids : ∀ i ∈ ids, ∃ m ∈ up, m.id = i) :
    (t.ended leaf.id).shutAt (leaf.id :: ids) = t.closeLeaf leaf.id := by
  have hforest : ((t.ended leaf.id).shutAt (leaf.id :: ids)).tree.toForest = (t.closeLeaf leaf.id).tree.toForest := by
    refine Forest.eq_of_marksAgree ?_ hagree (agree_closeLeaf hi h hleaf) ?_
    · have hrel : Forest.Rel (fun n m : Node => m = { n with branchClosed := m.branchClosed })
          ((t.ended leaf.id).shutAt (leaf.id :: ids)).tree.toForest (t.tree.toForest.map (closeNode leaf.id)) := by
        rw [toForest_shutAt_ended]
        exact Forest.Rel.of_maps (R := fun n m : Node => m = { n with branchClosed := m.branchClosed })
          (fun n => closeNode_eq_of_shut ids leaf.id n) _
      refine hrel.trans (Forest.rel_closeInner _) ?_
      rintro n m k hnm ⟨hmk, _⟩
      rw [hmk, hnm]
    · rw [tree_closeLeaf, Forest.leaves_closeInner, Forest.leaves_map, toForest_shutAt_ended, Forest.leaves_map]
      refine List.map_congr_left fun n hn => shut_endNode_of_not_mem fun hmem => ?_
      -- the nodes above the leaf are inner nodes
      obtain ⟨m, hm, hid⟩ := hids _ hmem
      obtain ⟨above, hb⟩ := Tree.mem_leaves_iff.1 hn
      obtain ⟨pre, post, rfl⟩ := List.append_of_mem hm
      have hinner : (leaf :: pre) ++ m :: post ∈ t.tree.branches := hleaf
      exact List.cons_ne_nil _ _ (hi.numbered.eq_nil_of_leaf hinner hb hid)
  have htree : ((t.ended leaf.id).shutAt (leaf.id :: ids)).tree = (t.closeLeaf leaf.id).tree :=
    Tree.eq_of_toForest hforest
  have hworklist : ((t.ended leaf.id).shutAt (leaf.id :: ids)).worklist = (t.closeLeaf leaf.id).worklist := by
    refine List.filter_congr fun i hwaits => ?_
    obtain ⟨n, hn, rfl, _, hopen⟩ := (h.waiting i).1 hwaits
    have hended : endNode leaf.id n ∈ (t.ended leaf.id).tree.labels := by
      rw [ended, Tree.labels_map]
      exact List.mem_map_of_mem hn
    obtain ⟨hid, _, hclosed⟩ := endNode_eq leaf.id n
    have hclosedAt := closedAt_shutAt (indexed_ended hi leaf.id) hended (leaf.id :: ids)
    rw [hid, hclosed, hopen, Bool.or_false, htree] at hclosedAt
    exact congrArg (!·) hclosedAt.symm
  exact congrArg₂ (fun tree worklist => { t.closeLeaf leaf.id with tree, worklist }) htree hworklist

end Ended

end Tableau

namespace Arena

open Tableau (Closable mem_sites_shutAt)

variable {a : Arena} {t : Tableau}

/-- Closing one node, and taking it off the worklist unless it is ticked and does not wait. -/
theorem Represents.shut (h : a.Represents t) (hi : Indexed t) {r : Site Node} (hr : Closable t r) :
    ∃ a', (a.mark r.tree.root.id fun n => { n with branchClosed := true }) = some a' ∧
      (if r.tree.root.ticked then a' else a'.dequeue r.tree.root.id).Represents (t.shutAt [r.tree.root.id]) := by
  have hn : r.tree.root ∈ t.tree.labels := Forest.mem_labels_of_mem_sites hr.mem
  obtain ⟨a', hmark, ha'⟩ := h.mark hi hn (G := fun n => { n with branchClosed := true }) fun _ => rfl
  refine ⟨a', hmark, ?_⟩
  have htree : (t.tree.map fun m => if m.id = r.tree.root.id then { m with branchClosed := true } else m) =
      (t.shutAt [r.tree.root.id]).tree := by
    refine congrArg t.tree.map (funext fun m => ?_)
    by_cases hid : m.id = r.tree.root.id
    · simp [Node.shut, hid]
    · simp [Node.shut, hid]
  have hworklist : (t.shutAt [r.tree.root.id]).worklist = t.worklist.erase r.tree.root.id := by
    rw [hr.nodup.erase_eq_filter]
    refine List.filter_congr fun i _ => ?_
    rw [List.contains_cons, List.contains_nil, Bool.or_false]
    rfl
  rw [htree] at ha'
  cases hticked : r.tree.root.ticked with
  | false =>
      rw [if_neg Bool.false_ne_true]
      have hdequeued := ha'.dequeue r.tree.root.id
      rw [← hworklist] at hdequeued
      exact hdequeued
  | true =>
      rw [if_pos rfl]
      have hsame : t.worklist.erase r.tree.root.id = t.worklist :=
        List.erase_of_not_mem (hr.waiting _ hn hticked)
      rw [hsame] at hworklist
      rw [← hworklist] at ha'
      exact ha'

theorem Represents.slot_shutAt {ids : List Nat} {r : Site Node} (h : a.Represents (t.shutAt ids))
    (hr : r ∈ t.tree.sites) :
    a.slot r.tree.root.id = some ⟨r.tree.root.shut ids, r.above.head?.map Node.id, r.tree.below.roots.map Node.id,
      false⟩ := by
  have hslot := h.slot_site (mem_sites_shutAt hr ids)
  have habove : (r.above.map (Node.shut ids)).head?.map Node.id = r.above.head?.map Node.id := by
    cases r.above with
    | nil => rfl
    | cons n _ => exact congrArg some Node.shut_id
  rw [Site.map, Tree.map, Forest.ids_roots_map fun _ => Node.shut_id, habove, Node.shut_id] at hslot
  exact hslot

theorem allClosed_eq {l : List Node} (h : ∀ n ∈ l, ∃ s, a.slot n.id = some s ∧ s.node = n) :
    a.allClosed (l.map Node.id) = some (l.all Node.branchClosed) := by
  induction l with
  | nil => rfl
  | cons n l ih =>
      obtain ⟨s, hslot, rfl⟩ := h n List.mem_cons_self
      rw [List.map_cons, allClosed, hslot, List.all_cons]
      change (if s.node.branchClosed = true then _ else _) = _
      cases hclosed : s.node.branchClosed with
      | true =>
          rw [if_pos rfl, Bool.true_and]
          exact ih fun m hm => h m (List.mem_cons_of_mem _ hm)
      | false => rfl

/-- The children of the node at a site are all closed exactly if the roots below it are. -/
theorem Represents.allClosed_site (h : a.Represents t) {p : Site Node} (hp : p ∈ t.tree.sites) :
    a.allClosed (p.tree.below.roots.map Node.id) = some (p.tree.below.roots.all Node.branchClosed) := by
  refine allClosed_eq fun n hn => ?_
  obtain ⟨s, hslot, hnode, _⟩ := h.exists_slot ((Forest.labels_below_sublist_of_mem_sites hp).mem
    ((Forest.roots_sublist_labels _).mem hn))
  exact ⟨s, hslot, hnode⟩

/-- The climb closes the node where it starts and a part of those above it, and then the marks agree. -/
theorem closeUpward_sim {rounds : Nat} {r : Site Node} (h : a.Represents t) (hi : Indexed t) (hr : Closable t r)
    (hrounds : (r.tree.root :: r.above).length ≤ rounds) :
    ∃ ids a', a.closeUpward rounds r.tree.root.id = some a' ∧ a'.Represents (t.shutAt (r.tree.root.id :: ids)) ∧
      (t.shutAt (r.tree.root.id :: ids)).tree.toForest.MarksAgree ∧ ∀ i ∈ ids, ∃ m ∈ r.above, m.id = i := by
  induction rounds generalizing a t r with
  | zero => exact absurd hrounds (Nat.not_succ_le_zero _)
  | succ rounds ih =>
      obtain ⟨a', hmark, hshut⟩ := h.shut hi hr
      have hslot : a'.slot r.tree.root.id = some ⟨r.tree.root.shut [r.tree.root.id], r.above.head?.map Node.id,
          r.tree.below.roots.map Node.id, false⟩ := by
        rw [← hshut.slot_shutAt hr.mem]
        split <;> rfl
      rw [closeUpward, hmark]
      simp only [Option.bind_eq_bind, Option.bind_some, hslot, Node.shut_ticked]
      generalize (if r.tree.root.ticked = true then a' else a'.dequeue r.tree.root.id) = b at hshut
      rcases Forest.root_or_below hr.mem with ⟨habove, _⟩ | ⟨p, hp, habove, _⟩
      · -- at the root of the tree
        rw [habove]
        refine ⟨[], b, rfl, hshut, hr.marksAgree_shutAt hi fun q hq hmem => ?_, fun i hi => by cases hi⟩
        rw [hi.numbered.above_of_mem_roots hr.mem hq hmem] at habove
        cases habove
      · have hchildren := hshut.allClosed_site (mem_sites_shutAt hp [r.tree.root.id])
        rw [Site.map, Tree.map, Forest.ids_roots_map fun _ => Node.shut_id] at hchildren
        rw [habove, List.head?_cons, Option.map_some]
        simp only [hshut.slot_shutAt hp, Option.bind_some, hchildren]
        cases hall : (p.tree.below.map (Node.shut [r.tree.root.id])).roots.all Node.branchClosed with
        | false =>
            refine ⟨[], b, rfl, hshut, hr.marksAgree_shutAt hi fun q hq hmem => ?_, fun i hi => by cases hi⟩
            obtain rfl := hi.numbered.eq_of_mem_roots hr.mem hq hp habove hmem
            have habove : q.tree.root ∈ r.above := habove ▸ List.mem_cons_self
            rw [hr.shut_above hi habove]
            exact ⟨hall, hr.opened _ (List.mem_cons_of_mem _ habove)⟩
        | true =>
            rw [if_pos rfl]
            have hlength : (p.tree.root :: p.above).length ≤ rounds := by
              rw [habove, List.length_cons] at hrounds
              exact Nat.le_of_succ_le_succ hrounds
            have hrounds' : ((p.map (Node.shut [r.tree.root.id])).tree.root ::
                (p.map (Node.shut [r.tree.root.id])).above).length ≤ rounds := by
              simpa [Site.map] using hlength
            obtain ⟨ids, a'', hclimb, hrep, hagree, hids⟩ :=
              ih hshut (Tableau.indexed_shutAt hi _) (hr.next hi hp habove hall) hrounds'
            rw [Tableau.shutAt_shutAt, Site.map, Tree.map, Node.shut_id, List.singleton_append] at hrep hagree
            rw [Site.map, Tree.map, Node.shut_id] at hclimb
            refine ⟨p.tree.root.id :: ids, a'', hclimb, hrep, hagree, ?_⟩
            intro i hi
            rcases List.mem_cons.1 hi with rfl | hi
            · exact ⟨_, List.mem_cons_self, rfl⟩
            · obtain ⟨m, hm, rfl⟩ := hids i hi
              obtain ⟨n, hn, rfl⟩ := List.mem_map.1 hm
              exact ⟨n, List.mem_cons_of_mem _ hn, Node.shut_id.symm⟩

/-- Closing the branch of an open leaf closes the same nodes as a pass over the tree, and takes the same nodes off the
worklist. -/
theorem markClosed_sim (h : a.Represents t) (hi : Indexed t) (hm : Marked t) {leaf : Node} {up : List Node}
    (hleaf : leaf :: up ∈ t.tree.branches) (hopen : leaf.branchClosed = false) :
    ∃ a', a.markClosed leaf.id = some a' ∧ a'.Represents (t.closeLeaf leaf.id) := by
  have hn : leaf ∈ t.tree.labels := Tree.mem_labels_of_mem_branch hleaf List.mem_cons_self
  obtain ⟨a₁, hmark, h₁⟩ := h.mark hi hn (G := fun n => { n with closed := true }) fun _ => rfl
  have hi₁ := Tableau.indexed_ended hi leaf.id
  have h₂ : Represents { a₁ with openBranches := a₁.openBranches - 1 } (t.ended leaf.id) := by
    rw [h₁.openBranches]
    exact h₁.recount (t.openBranches - 1)
  -- the site of the leaf once the leaf is marked
  have hleaf₁ : (Tableau.endNode leaf.id leaf) :: up.map (Tableau.endNode leaf.id) ∈
      (t.ended leaf.id).tree.branches := by
    rw [Tableau.ended, Tree.branches_map]
    exact List.mem_map_of_mem hleaf
  obtain ⟨r, hr, hroot, habove, _⟩ := Tree.exists_site_of_leaf hleaf₁
  have hclosable : Closable (t.ended leaf.id) r := by
    refine Tableau.closable_of_leaf hi₁ (Tableau.marked_ended hm leaf.id) hr ?_ ?_
    · exact hi₁.numbered.below_eq_nil_of_leaf hleaf₁ hr (congrArg Node.id hroot)
    · rw [hroot, habove]
      refine (Tableau.marked_ended hm leaf.id).agree.openBranch hleaf₁ ?_
      rw [(Tableau.endNode_eq leaf.id leaf).2.2]
      exact hopen
  obtain ⟨ids, a', hclimb, hrep, hagree, hids⟩ := closeUpward_sim h₂ hi₁ hclosable
    ((hi₁.length_site_le hr).trans h₂.length.ge)
  rw [hroot, (Tableau.endNode_eq leaf.id leaf).1] at hclimb hrep hagree
  refine ⟨a', ?_, ?_⟩
  · rw [markClosed, hmark]
    exact hclimb
  · rw [← Tableau.closeLeaf_eq_shutAt hi hm hleaf hagree ?_]
    · exact hrep
    · intro i hi
      obtain ⟨m, hm, rfl⟩ := hids i hi
      rw [habove] at hm
      obtain ⟨n, hn, rfl⟩ := List.mem_map.1 hm
      exact ⟨n, hn, (Tableau.endNode_eq leaf.id n).1.symm⟩

end Arena

end Tableaux
