import Mathlib
import Tableaux.Arena.Basic
import Tableaux.Proofs.Closing

/-!
When an arena stands for a tableau: every node of the tree is in the slot with its number, linked to the node above it
and to the nodes directly below it, and every other slot is that of a removed node. What the slots say of a node is
then what its place in the tree says.
-/

namespace Tableaux

/-- The slot is marked as removed and has no links. -/
structure Slot.Buried (s : Slot) : Prop where
  removed : s.removed = true
  parent : s.parent = none
  children : s.children = []

theorem Forest.ids_roots_map {G : Node → Node} (hG : ∀ n, (G n).id = n.id) (f : Forest Node) :
    (f.map G).roots.map Node.id = f.roots.map Node.id := by
  rw [Forest.roots_map, List.map_map]
  exact List.map_congr_left fun n _ => hG n

namespace Arena

variable {a a' : Arena} {s : Slot} {id j : Nat} {up : Option Nat} {f g : Forest Node} {n : Node}

/-! Reading and writing of slots. -/

@[simp]
theorem slot_put_ne (h : j ≠ id) : (a.put id s).slot j = a.slot j := by
  rw [slot, put, List.getElem?_set_ne h.symm]
  rfl

theorem lt_of_slot (h : a.slot id = some s) : id < a.slots.length :=
  (List.getElem?_eq_some_iff.1 h).1

theorem slot_put_self {s' : Slot} (h : a.slot id = some s) : (a.put id s').slot id = some s' := by
  rw [slot, put]
  exact List.getElem?_set_self (lt_of_slot h)

@[simp]
theorem length_put : (a.put id s).slots.length = a.slots.length :=
  List.length_set

theorem alter_eq (h : a.slot id = some s) (F : Slot → Slot) : a.alter id F = some (a.put id (F s)) := by
  rw [alter, h]
  rfl

theorem mark_eq (h : a.slot id = some s) (F : Node → Node) :
    a.mark id F = some (a.put id { s with node := F s.node }) :=
  alter_eq h _

/-! Forests in slots. -/

/-- Each node of the forest is in its slot, and its links are those of the forest; `up` is the parent of the roots. -/
def Holds (a : Arena) : (up : Option Nat) → Forest Node → Prop
  | _, .nil => True
  | up, .cons n below beside =>
      a.slot n.id = some ⟨n, up, below.roots.map Node.id, false⟩ ∧ a.Holds (some n.id) below ∧ a.Holds up beside

namespace Holds

theorem congr (h : a.Holds up f) (heq : ∀ n ∈ f.labels, a'.slot n.id = a.slot n.id) : a'.Holds up f := by
  induction f generalizing up with
  | nil => trivial
  | cons n below beside ihb ihs =>
      simp only [Forest.labels, List.mem_cons, List.mem_append] at heq
      refine ⟨?_, ihb h.2.1 fun m hm => heq m (Or.inr (Or.inl hm)), ihs h.2.2 fun m hm => heq m (Or.inr (Or.inr hm))⟩
      rw [heq n (Or.inl rfl)]
      exact h.1

theorem append (hf : a.Holds up f) (hg : a.Holds up g) : a.Holds up (f.append g) := by
  induction f with
  | nil => exact hg
  | cons n below beside _ ih => exact ⟨hf.1, hf.2.1, ih hf.2.2⟩

/-- A change of the nodes that keeps their numbers keeps the links. -/
theorem map {G : Node → Node} (hG : ∀ n, (G n).id = n.id) (h : a.Holds up f)
    (heq : ∀ n ∈ f.labels, ∀ s, a.slot n.id = some s → s.node = n →
      a'.slot n.id = some { s with node := G n }) : a'.Holds up (f.map G) := by
  induction f generalizing up with
  | nil => trivial
  | cons n below beside ihb ihs =>
      simp only [Forest.labels, List.mem_cons, List.mem_append] at heq
      have hroots := Forest.ids_roots_map hG below
      refine ⟨?_, ?_, ihs h.2.2 fun m hm => heq m (Or.inr (Or.inr hm))⟩
      · rw [hG, heq n (Or.inl rfl) _ h.1 rfl, hroots]
      · rw [hG]
        exact ihb h.2.1 fun m hm => heq m (Or.inr (Or.inl hm))

/-- A site of the forest can be read off the slots. -/
theorem site {above : List Node} (h : a.Holds up f) (hup : above.head?.map Node.id = up) {r : Site Node}
    (hr : r ∈ f.sites above) :
    a.slot r.tree.root.id =
        some ⟨r.tree.root, r.above.head?.map Node.id, r.tree.below.roots.map Node.id, false⟩ ∧
      a.Holds (some r.tree.root.id) r.tree.below := by
  induction f generalizing up above with
  | nil => cases hr
  | cons n below beside ihb ihs =>
      rcases List.mem_cons.1 hr with rfl | hr
      · rw [hup]
        exact ⟨h.1, h.2.1⟩
      · rcases List.mem_append.1 hr with hr | hr
        · exact ihb h.2.1 rfl hr
        · exact ihs h.2.2 hup hr

theorem exists_slot (h : a.Holds up f) (hn : n ∈ f.labels) :
    ∃ s, a.slot n.id = some s ∧ s.node = n ∧ s.removed = false := by
  induction f generalizing up with
  | nil => cases hn
  | cons m below beside ihb ihs =>
      rcases List.mem_cons.1 hn with rfl | hn
      · exact ⟨_, h.1, rfl, rfl⟩
      · rcases List.mem_append.1 hn with hn | hn
        · exact ihb h.2.1 hn
        · exact ihs h.2.2 hn

end Holds

/-! Branches in slots. -/

/-- The nodes are in their slots, each with the next one for its parent. -/
def Chained (a : Arena) : List Node → Prop
  | [] => True
  | n :: up => (∃ children, a.slot n.id = some ⟨n, up.head?.map Node.id, children, false⟩) ∧ a.Chained up

theorem Chained.congr {b : List Node} (h : a.Chained b) (heq : ∀ n ∈ b, a'.slot n.id = a.slot n.id) :
    a'.Chained b := by
  induction b with
  | nil => trivial
  | cons n up ih =>
      obtain ⟨⟨children, hslot⟩, hup⟩ := h
      refine ⟨⟨children, ?_⟩, ih hup fun m hm => heq m (List.mem_cons_of_mem _ hm)⟩
      rw [heq n List.mem_cons_self]
      exact hslot

theorem Holds.chained {above : List Node} (h : a.Holds up f) (hup : above.head?.map Node.id = up)
    (habove : a.Chained above) {r : Site Node} (hr : r ∈ f.sites above) : a.Chained (r.tree.root :: r.above) := by
  induction f generalizing up above with
  | nil => cases hr
  | cons n below beside ihb ihs =>
      have hn : a.Chained (n :: above) := ⟨⟨_, hup ▸ h.1⟩, habove⟩
      rcases List.mem_cons.1 hr with rfl | hr
      · exact hn
      · rcases List.mem_append.1 hr with hr | hr
        · exact ihb h.2.1 rfl hn hr
        · exact ihs h.2.2 hup habove hr

/-! The arena of a tableau. -/

/-- The arena stands for the tableau. -/
structure Represents (a : Arena) (t : Tableau) : Prop where
  options : a.options = t.options
  root : a.root = t.tree.root.id
  length : a.slots.length = t.slots
  nodeCount : a.nodeCount = t.nodeCount
  openBranches : a.openBranches = t.openBranches
  terms : a.terms = t.terms
  names : a.names = t.names
  worklist : a.worklist = t.worklist
  holds : a.Holds none t.tree.toForest
  buried : ∀ id, id < t.slots → (∀ n ∈ t.tree.labels, n.id ≠ id) → ∃ s, a.slot id = some s ∧ s.Buried

/-- The operation succeeds with the answer given and with an arena that stands for the tableau given. -/
def Simulates {α : Type} (r : Option (α × Arena)) (x : α × Tableau) : Prop :=
  ∃ a, r = some (x.1, a) ∧ a.Represents x.2

namespace Represents

variable {t : Tableau} (h : a.Represents t)

include h

theorem recount (branches : Nat) : Represents { a with openBranches := branches } { t with openBranches := branches } :=
  ⟨h.options, h.root, h.length, h.nodeCount, rfl, h.terms, h.names, h.worklist, h.holds.congr fun _ _ => rfl, h.buried⟩

theorem requeue (ids : List Nat) : Represents { a with worklist := ids } { t with worklist := ids } :=
  ⟨h.options, h.root, h.length, h.nodeCount, h.openBranches, h.terms, h.names, rfl, h.holds.congr fun _ _ => rfl,
    h.buried⟩

theorem dequeue (id : Nat) : (a.dequeue id).Represents { t with worklist := t.worklist.erase id } := by
  rw [Arena.dequeue, h.worklist]
  exact h.requeue _

theorem slot_site {r : Site Node} (hr : r ∈ t.tree.sites) : a.slot r.tree.root.id =
    some ⟨r.tree.root, r.above.head?.map Node.id, r.tree.below.roots.map Node.id, false⟩ :=
  (h.holds.site rfl hr).1

theorem chained_site {r : Site Node} (hr : r ∈ t.tree.sites) : a.Chained (r.tree.root :: r.above) :=
  h.holds.chained (rfl : ([] : List Node).head?.map Node.id = none) trivial hr

theorem exists_slot (hn : n ∈ t.tree.labels) : ∃ s, a.slot n.id = some s ∧ s.node = n ∧ s.removed = false :=
  h.holds.exists_slot hn

/-- A slot is that of a node of the tree, or it is buried. -/
theorem site_or_buried (hlt : id < t.slots) : (∃ r ∈ t.tree.sites, r.tree.root.id = id) ∨
    (∀ n ∈ t.tree.labels, n.id ≠ id) ∧ ∃ s, a.slot id = some s ∧ s.Buried := by
  by_cases hid : ∃ n ∈ t.tree.labels, n.id = id
  · obtain ⟨n, hn, rfl⟩ := hid
    obtain ⟨r, hr, rfl⟩ := Forest.exists_site_of_mem_labels hn []
    exact Or.inl ⟨r, hr, rfl⟩
  · have hfree : ∀ n ∈ t.tree.labels, n.id ≠ id := fun n hn heq => hid ⟨n, hn, heq⟩
    exact Or.inr ⟨hfree, h.buried id hlt hfree⟩

/-- The look-up of a node in the arena answers as the look-up in the tableau. -/
theorem live_eq (hi : Indexed t) (id : Nat) :
    (∃ n s, t.node id = .ok n ∧ a.live id = .ok s ∧ s.node = n ∧ s.removed = false ∧ a.slot id = some s) ∨
      ∃ refusal, t.node id = .error refusal ∧ a.live id = .error refusal := by
  by_cases hid : ∃ n ∈ t.tree.labels, n.id = id
  · obtain ⟨n, hn, rfl⟩ := hid
    obtain ⟨s, hslot, hnode, hremoved⟩ := h.exists_slot hn
    refine Or.inl ⟨n, s, Tableau.node_of_mem hi.numbered hn, ?_, hnode, hremoved, hslot⟩
    rw [live, hslot]
    simp only [hremoved, Bool.false_eq_true, if_false]
  · have hnode : t.subtree id = none := by
      cases hsub : t.subtree id with
      | none => rfl
      | some tree => exact absurd ⟨_, Tableau.subtree_root_mem hsub⟩ hid
    rw [Tableau.node, hnode]
    refine Or.inr ⟨_, rfl, ?_⟩
    by_cases hlt : id < t.slots
    · obtain ⟨s, hslot, hburied⟩ := h.buried id hlt fun n hn heq => hid ⟨n, hn, heq⟩
      rw [live, hslot]
      simp only [hburied.removed, if_true, if_pos hlt]
    · have hnone : a.slot id = none := List.getElem?_eq_none (h.length.le.trans (Nat.not_lt.1 hlt))
      rw [live, hnone, if_neg hlt, h.length]

/-- A mark on a node changes the node in the tree. -/
theorem mark (hi : Indexed t) (hn : n ∈ t.tree.labels) {G : Node → Node} (hG : ∀ m, (G m).id = m.id) :
    ∃ a', a.mark n.id G = some a' ∧
      a'.Represents { t with tree := t.tree.map fun m => if m.id = n.id then G m else m } := by
  obtain ⟨s, hslot, hnode, _⟩ := h.exists_slot hn
  have hid : ∀ m, (if m.id = n.id then G m else m).id = m.id := by
    intro m
    split
    · exact hG m
    · rfl
  refine ⟨_, mark_eq hslot G, h.options, ?_, ?_, h.nodeCount, h.openBranches, h.terms, h.names, h.worklist, ?_, ?_⟩
  · exact h.root.trans (hid _).symm
  · exact length_put.trans h.length
  · refine h.holds.map hid fun m hm s' hslot' hnode' => ?_
    by_cases hmn : m.id = n.id
    · obtain rfl := hi.numbered.eq_of_id_eq hm hn hmn
      obtain rfl := Option.some.inj (hslot.symm.trans hslot')
      rw [slot_put_self hslot, if_pos rfl, hnode]
    · rw [slot_put_ne hmn, if_neg hmn, hslot', ← hnode']
  · intro j hj hfree
    have hfree : ∀ m ∈ t.tree.labels, m.id ≠ j := by
      intro m hm heq
      refine hfree (if m.id = n.id then G m else m) ?_ ((hid m).trans heq)
      rw [Tree.labels_map]
      exact List.mem_map_of_mem hm
    rw [slot_put_ne (hfree n hn).symm]
    exact h.buried j hj hfree

end Represents

end Arena

end Tableaux
