import Mathlib
import Tableaux.Proofs.Arena.Session
import Tableaux.Proofs.Integrity

/-!
The slots of an arena fit together after every run. Whatever the removals have unlinked, linked anew and buried on the
way, the links that are left are those of the tree that the arena stands for, so that no link leads astray and the
nodes counted are the nodes that are there.
-/

namespace Tableaux

namespace Arena

/-- Whether there is a node with the given number. -/
def isLive (a : Arena) (id : Nat) : Bool :=
  (a.slot id).any fun s => !s.removed

def parent (a : Arena) (id : Nat) : Option Nat :=
  (a.slot id).bind Slot.parent

def children (a : Arena) (id : Nat) : List Nat :=
  ((a.slot id).map Slot.children).getD []

/-- The links of the arena are in order, and its nodes are counted. -/
structure Intact (a : Arena) : Prop where
  root_live : a.isLive a.root = true
  root_parent : a.parent a.root = none
  /-- A node besides the root stands once among the children of its parent, which is older, and nowhere else. -/
  parent : ∀ id, a.isLive id = true → id ≠ a.root → ∃ p, a.parent id = some p ∧ a.isLive p = true ∧ p < id ∧
    (a.children p).count id = 1 ∧ ∀ q, id ∈ a.children q → q = p
  child_live : ∀ p id, id ∈ a.children p → a.isLive id = true
  reachable : ∀ id, a.isLive id = true → Relation.ReflTransGen (fun p c => c ∈ a.children p) a.root id
  removed : ∀ id, a.isLive id = false → a.parent id = none ∧ a.children id = []
  worklist_live : ∀ id ∈ a.worklist, a.isLive id = true
  count_live : a.nodeCount = (a.slots.filter fun s => !s.removed).length
  /-- The snapshot can be taken, and shows as many nodes as are counted. -/
  count_snapshot : ∃ snapshot, a.snapshot = some snapshot ∧ a.nodeCount = snapshot.size

namespace Represents

variable {a : Arena} {t : Tableau} (h : a.Represents t) (hi : Indexed t) (id : Nat)

include h hi

/-- What the slot of a node tells of it is what the tree tells. -/
theorem links_eq : a.isLive id = t.isLive id ∧ a.parent id = t.parent id ∧ a.children id = t.children id := by
  rw [isLive, parent, children]
  cases hlive : t.isLive id with
  | true =>
      obtain ⟨r, hr, rfl⟩ := Tableau.exists_site_of_isLive hi.numbered hlive
      rw [h.slot_site hr, Tableau.parent_site hi.numbered hr, Tableau.children_site hi.numbered hr]
      exact ⟨rfl, rfl, rfl⟩
  | false =>
      obtain ⟨hparent, hchildren⟩ := Tableau.forgotten hi.numbered hlive
      rw [hparent, hchildren]
      by_cases hlt : id < t.slots
      · obtain ⟨s, hslot, hburied⟩ := h.buried id hlt fun n hn hid => by
          rw [(Tableau.isLive_iff hi.numbered).2 ⟨n, hn, hid⟩] at hlive
          cases hlive
        rw [hslot, Option.any_some, Option.bind_some, Option.map_some, hburied.removed, hburied.parent,
          hburied.children]
        exact ⟨rfl, rfl, rfl⟩
      · have hnone : a.slot id = none := List.getElem?_eq_none (h.length.le.trans (Nat.not_lt.1 hlt))
        rw [hnone]
        exact ⟨rfl, rfl, rfl⟩

theorem isLive_eq : a.isLive id = t.isLive id :=
  (h.links_eq hi id).1

theorem parent_eq : a.parent id = t.parent id :=
  (h.links_eq hi id).2.1

theorem children_eq : a.children id = t.children id :=
  (h.links_eq hi id).2.2

end Represents

/-- The slots that are not removed, counted by their numbers. -/
theorem length_filter_removed (a : Arena) :
    (a.slots.filter fun s => !s.removed).length = ((List.range a.slots.length).filter a.isLive).length := by
  have hslots : (List.range a.slots.length).map a.slot = a.slots.map some := by
    refine List.ext_getElem? fun i => ?_
    rw [List.getElem?_map, List.getElem?_map]
    by_cases hi : i < a.slots.length
    · rw [List.getElem?_range hi, List.getElem?_eq_getElem hi, Option.map_some, Option.map_some, slot,
        List.getElem?_eq_getElem hi]
    · rw [List.getElem?_eq_none (List.length_range.le.trans (Nat.not_lt.1 hi)),
        List.getElem?_eq_none (Nat.not_lt.1 hi)]
      rfl
  have hfilter := congrArg (fun l => (List.filter (fun s : Option Slot => s.any fun s => !s.removed) l).length) hslots
  simp only [List.filter_map, List.length_map] at hfilter
  exact hfilter.symm

theorem Represents.intact {a : Arena} {t : Tableau} (h : a.Represents t) (hv : Valid t) : a.Intact := by
  have hlive := h.isLive_eq hv.toIndexed
  have hparent := h.parent_eq hv.toIndexed
  have hchildren := h.children_eq hv.toIndexed
  have hlinks : (fun p c => c ∈ a.children p) = fun p c => c ∈ t.children p := by
    funext p c
    rw [hchildren]
  constructor
  case root_live =>
    rw [hlive, h.root]
    exact (Tableau.isLive_iff hv.numbered).2 ⟨_, t.tree.root_mem_labels, rfl⟩
  case root_parent =>
    rw [hparent, h.root]
    exact Tableau.parent_root hv.numbered
  case parent =>
    intro id hid hroot
    rw [hlive] at hid
    rw [h.root] at hroot
    obtain ⟨p, hp, hplive, hlt, hmem⟩ := Tableau.exists_parent hv.toIndexed hid hroot
    refine ⟨p, (hparent id).trans hp, (hlive p).trans hplive, hlt, ?_, fun q hq => ?_⟩
    · rw [hchildren]
      exact List.count_eq_one_of_mem (Tableau.nodup_children hv.numbered p) hmem
    · rw [hchildren] at hq
      exact Option.some.inj ((Tableau.parent_of_mem_children hv.numbered hq).1.symm.trans hp)
  case child_live =>
    intro p id hid
    rw [hchildren] at hid
    rw [hlive]
    exact (Tableau.parent_of_mem_children hv.numbered hid).2
  case reachable =>
    intro id hid
    rw [hlive] at hid
    rw [hlinks, h.root]
    exact Tableau.reachable_of_isLive hv.toIndexed hid
  case removed =>
    intro id hid
    rw [hlive] at hid
    rw [hparent, hchildren]
    exact Tableau.forgotten hv.numbered hid
  case worklist_live =>
    intro id hid
    rw [h.worklist] at hid
    obtain ⟨n, hn, hnid, _⟩ := (hv.waiting id).1 hid
    rw [hlive]
    exact (Tableau.isLive_iff hv.numbered).2 ⟨n, hn, hnid⟩
  case count_live =>
    have hsame : a.isLive = t.isLive := funext hlive
    rw [length_filter_removed, h.length, h.nodeCount, hsame, Tableau.length_live hv.toIndexed]
  case count_snapshot =>
    refine ⟨t.snapshot, h.snapshot_eq hv.toIndexed, ?_⟩
    rw [h.nodeCount, Tableau.snapshot, Tree.size_map]
    exact hv.count

/-- No step of a run breaks off, whatever steps are taken or refused, and after each of them all links are in order. -/
theorem run_intact (o : Options) (s : Signed) (steps : List Step) :
    ∃ a, (start o s).run steps = some a ∧ a.Intact := by
  obtain ⟨a, hrun, h⟩ := run_sim (start_sim o s) (Tableau.valid_start o s) steps
  exact ⟨a, hrun, h.intact (Tableau.valid_run o s steps)⟩

end Arena

end Tableaux
