import Mathlib
import Tableaux.Proofs.Arena.Burial

/-!
Splicing a node out of an arena. Its children are linked to its parent, the parent gets them in the place of the node,
and the node is removed. The slots then show the forest in which the node is replaced by what is directly below it.
-/

namespace Tableaux

theorem Forest.splice_toForest {tree : Tree Node} {id : Nat} (h : tree.root.id ≠ id) :
    tree.toForest.splice (fun n => n.id == id) =
      (Tree.mk tree.root (tree.below.splice fun n => n.id == id)).toForest := by
  rw [Tree.toForest, Forest.splice, if_neg (by simpa using h)]
  rfl

/-- The slot after the node with the given number has been spliced out from under `p` and has left the children
`heirs`. -/
def Slot.spliced (id p : Nat) (heirs : List Nat) (s : Slot) : Slot :=
  { s with
    parent := if s.parent = some id then some p else s.parent
    children := if id ∈ s.children then replaceBy id heirs s.children else s.children }

namespace Arena

variable {a a' : Arena} {f : Forest Node} {up : Option Nat} {id p : Nat} {heirs : List Nat}

/-- The given nodes are linked to another parent, and nothing else is changed. -/
theorem adopt_eq {ids : List Nat} (h : ∀ i ∈ ids, ∃ s, a.slot i = some s) :
    ∃ a', a.adopt p ids = some a' ∧ a.Relinks a' ∧ (∀ i ∉ ids, a'.slot i = a.slot i) ∧
      ∀ i ∈ ids, ∀ s, a.slot i = some s → a'.slot i = some { s with parent := some p } := by
  induction ids generalizing a with
  | nil => exact ⟨a, rfl, .refl a, fun _ _ => rfl, fun _ hi => by cases hi⟩
  | cons i ids ih =>
      obtain ⟨s, hslot⟩ := h i List.mem_cons_self
      have hput := alter_eq hslot fun s => { s with parent := some p }
      have hslots : ∀ j, ∀ s', a.slot j = some s' →
          (a.put i { s with parent := some p }).slot j = some (if j = i then { s' with parent := some p } else s') := by
        intro j s' hs'
        by_cases hj : j = i
        · subst hj
          obtain rfl := Option.some.inj (hslot.symm.trans hs')
          rw [slot_put_self hslot, if_pos rfl]
        · rw [slot_put_ne hj, hs', if_neg hj]
      obtain ⟨a', hadopt, hlinks, hkept, hset⟩ := ih fun j hj => by
        obtain ⟨s', hs'⟩ := h j (List.mem_cons_of_mem _ hj)
        exact ⟨_, hslots j s' hs'⟩
      refine ⟨a', ?_, (Relinks.put a i _).trans hlinks, fun j hj => ?_, fun j hj s' hs' => ?_⟩
      · change (a.alter i _).bind _ = _
        rw [hput]
        exact hadopt
      · rw [List.mem_cons, not_or] at hj
        rw [hkept j hj.2, slot_put_ne hj.1]
      · by_cases hmem : j ∈ ids
        · rw [hset j hmem _ (hslots j s' hs')]
          split <;> rfl
        · rw [hkept j hmem, hslots j s' hs', if_pos ((List.mem_cons.1 hj).resolve_right hmem)]

/-- What is below the node hangs from its parent afterwards. -/
theorem Holds.reparent (h : a.Holds up f) (hfree : ∀ n ∈ f.labels, n.id ≠ id)
    (heq : ∀ n ∈ f.labels, ∀ s, a.slot n.id = some s → a'.slot n.id = some (s.spliced id p heirs)) :
    a'.Holds (if up = some id then some p else up) f := by
  induction f generalizing up with
  | nil => trivial
  | cons n below beside ihb ihs =>
      simp only [Forest.labels, List.mem_cons, List.mem_append] at hfree heq
      have hchildren : id ∉ below.roots.map Node.id := by
        intro hmem
        obtain ⟨m, hm, hid⟩ := List.mem_map.1 hmem
        exact hfree m (Or.inr (Or.inl ((Forest.roots_sublist_labels below).mem hm))) hid
      refine ⟨?_, ?_, ihs h.2.2 (fun m hm => hfree m (Or.inr (Or.inr hm))) fun m hm => heq m (Or.inr (Or.inr hm))⟩
      · rw [heq n (Or.inl rfl) _ h.1, Slot.spliced, if_neg hchildren]
      · have hbelow := ihb h.2.1 (fun m hm => hfree m (Or.inr (Or.inl hm))) fun m hm => heq m (Or.inr (Or.inl hm))
        rwa [if_neg fun hid => hfree n (Or.inl rfl) (Option.some.inj hid)] at hbelow

/-- The children of the node stand in its place among the roots. -/
theorem Holds.ids_roots_splice (h : a.Holds up f) (hids : (f.labels.map Node.id).Nodup)
    (hhere : ∀ s, a.slot id = some s → s.children = heirs) :
    (f.splice fun n => n.id == id).roots.map Node.id =
      if id ∈ f.roots.map Node.id then replaceBy id heirs (f.roots.map Node.id) else f.roots.map Node.id := by
  induction f with
  | nil => rfl
  | cons n below beside _ ih =>
      rw [Forest.labels, List.map_cons, List.map_append, List.nodup_cons, List.nodup_append, List.mem_append,
        not_or] at hids
      obtain ⟨⟨hbelow, hbeside⟩, _, hids, _⟩ := hids
      rw [Forest.splice, Forest.roots, List.map_cons, replaceBy]
      by_cases hid : n.id = id
      · subst hid
        have hfree : ∀ {g : Forest Node}, n.id ∉ g.labels.map Node.id → g.splice (fun m => m.id == n.id) = g := by
          intro g hg
          exact Forest.splice_of_forall_not fun m hm =>
            beq_eq_false_iff_ne.2 fun heq => hg (heq ▸ List.mem_map_of_mem hm)
        rw [if_pos (beq_self_eq_true n.id), if_pos List.mem_cons_self, if_pos rfl, hfree hbelow, hfree hbeside,
          Forest.roots_append, List.map_append, ← hhere _ h.1]
      · have hmem : id ∈ n.id :: beside.roots.map Node.id ↔ id ∈ beside.roots.map Node.id := by
          rw [List.mem_cons]
          exact or_iff_right (Ne.symm hid)
        rw [if_neg (by simpa using hid), if_neg hid, Forest.roots, List.map_cons, ih h.2.2 hids]
        simp only [hmem]
        split <;> rfl

/-- If each slot is changed as the splice demands, the slots show the spliced forest. -/
theorem Holds.splice (h : a.Holds up f) (hids : (f.labels.map Node.id).Nodup) (hup : up ≠ some id)
    (hhere : ∀ s, a.slot id = some s → s.parent = some p ∧ s.children = heirs)
    (heq : ∀ n ∈ f.labels, n.id ≠ id → ∀ s, a.slot n.id = some s → a'.slot n.id = some (s.spliced id p heirs)) :
    a'.Holds up (f.splice fun n => n.id == id) := by
  induction f generalizing up with
  | nil => trivial
  | cons n below beside ihb ihs =>
      rw [Forest.labels, List.map_cons, List.map_append, List.nodup_cons, List.nodup_append, List.mem_append,
        not_or] at hids
      obtain ⟨⟨hbelow, hbeside⟩, hids, hids', _⟩ := hids
      simp only [Forest.labels, List.mem_cons, List.mem_append] at heq
      have hs := ihs h.2.2 hids' hup fun m hm => heq m (Or.inr (Or.inr hm))
      rw [Forest.splice]
      by_cases hid : n.id = id
      · subst hid
        have hne : ∀ m ∈ below.labels, m.id ≠ n.id := fun m hm hmn => hbelow (hmn ▸ List.mem_map_of_mem hm)
        obtain ⟨hparent, _⟩ := hhere _ h.1
        have hunder := h.2.1.reparent hne fun m hm => heq m (Or.inr (Or.inl hm)) (hne m hm)
        rw [if_pos rfl, ← hparent] at hunder
        rw [if_pos (beq_self_eq_true n.id), Forest.splice_of_forall_not fun m hm => beq_eq_false_iff_ne.2 (hne m hm)]
        exact hunder.append hs
      · have hup' : some n.id ≠ some id := fun heq => hid (Option.some.inj heq)
        rw [if_neg (by simpa using hid)]
        refine ⟨?_, ihb h.2.1 hids hup' fun m hm => heq m (Or.inr (Or.inl hm)), hs⟩
        have hchildren := h.2.1.ids_roots_splice hids fun s hslot => (hhere s hslot).2
        rw [heq n (Or.inl rfl) hid _ h.1, Slot.spliced, if_neg hup, hchildren]

/-- What a splice does to the slots before the node is removed: the children have the parent of the node for theirs, the
parent has them in the place of the node, and all other slots stay as they are. -/
theorem splice_eq {s q : Slot} (hslot : a.slot id = some s) (hparent : s.parent = some p) (hp : a.slot p = some q)
    (hne : p ≠ id) (hheirs : ∀ i ∈ s.children, i ≠ id ∧ i ≠ p ∧ ∃ s, a.slot i = some s) :
    ∃ a', a.splice id = a'.tombstone id ∧ a.Relinks a' ∧ (∃ s, a'.slot id = some s) ∧
      a'.slot p = some { q with children := replaceBy id s.children q.children } ∧
      (∀ i ∈ s.children, ∀ c, a.slot i = some c → a'.slot i = some { c with parent := some p }) ∧
      ∀ i ∉ s.children, i ≠ p → i ≠ id → a'.slot i = a.slot i := by
  have hfirst := alter_eq hslot fun s => { s with children := [] }
  have hadoptable : ∀ i ∈ s.children, ∃ c, (a.put id { s with children := [] }).slot i = some c := by
    intro i hi
    obtain ⟨hid, _, c, hc⟩ := hheirs i hi
    exact ⟨c, (slot_put_ne hid).trans hc⟩
  obtain ⟨a₂, hadopt, hlinks, hkept, hset⟩ := adopt_eq (p := p) hadoptable
  have hp₂ : a₂.slot p = some q := by
    rw [hkept p fun hmem => (hheirs p hmem).2.1 rfl, slot_put_ne hne, hp]
  have hlast := alter_eq hp₂ fun q => { q with children := replaceBy id s.children q.children }
  refine ⟨_, ?_, ((Relinks.put a _ _).trans hlinks).trans (.put a₂ p _), ?_, slot_put_self hp₂, ?_, ?_⟩
  · rw [splice, hslot]
    simp only [Option.bind_eq_bind, Option.bind_some, hparent]
    rw [hfirst, Option.bind_some, hadopt, Option.bind_some, hlast, Option.bind_some]
  · rw [slot_put_ne (Ne.symm hne), hkept id fun hmem => (hheirs id hmem).1 rfl, slot_put_self hslot]
    exact ⟨_, rfl⟩
  · intro i hi c hc
    obtain ⟨hid, hip, _⟩ := hheirs i hi
    rw [slot_put_ne hip, hset i hi c ((slot_put_ne hid).trans hc)]
  · intro i hi hip hid
    rw [slot_put_ne hip, hkept i hi, slot_put_ne hid]

section Sites

variable {t : Tableau} {r q : Site Node} (h : a.Represents t) (ht : Tidy t) (hr : r ∈ t.tree.sites)
  (hq : q ∈ t.tree.sites) (hparent : r.above.head?.map Node.id = some q.tree.root.id)

include h ht hr hq hparent

/-- The links after the children of a node have been linked to its parent and put in its place there. -/
theorem relink_site : ∃ a', a.splice r.tree.root.id = a'.tombstone r.tree.root.id ∧ a.Relinks a' ∧
    (∃ s, a'.slot r.tree.root.id = some s) ∧ (∀ i, (∀ n ∈ t.tree.labels, n.id ≠ i) → a'.slot i = a.slot i) ∧
    ∀ n ∈ t.tree.labels, n.id ≠ r.tree.root.id → ∀ s, a.slot n.id = some s → a'.slot n.id =
      some (s.spliced r.tree.root.id q.tree.root.id (r.tree.below.roots.map Node.id)) := by
  have hlt := ht.parent_lt hr hparent
  have hslot := h.slot_site hr
  -- the children are younger than the node, and so is the node than its parent
  have hyounger : ∀ i ∈ r.tree.below.roots.map Node.id, r.tree.root.id < i ∧ ∃ n ∈ t.tree.labels, n.id = i := by
    intro i hi
    obtain ⟨n, hn, rfl⟩ := List.mem_map.1 hi
    have hbelow := (Forest.roots_sublist_labels _).mem hn
    exact ⟨ht.lt_of_mem_below hr hbelow, n, (Forest.labels_below_sublist_of_mem_sites hr).mem hbelow, rfl⟩
  obtain ⟨a', hsplice, hlinks, hself, hplace, hset, hkept⟩ := splice_eq hslot hparent (h.slot_site hq) (Nat.ne_of_lt hlt)
    fun i hi => by
      obtain ⟨hri, n, hn, rfl⟩ := hyounger i hi
      obtain ⟨s, hs, _⟩ := h.exists_slot hn
      exact ⟨Nat.ne_of_gt hri, Nat.ne_of_gt (hlt.trans hri), s, hs⟩
  refine ⟨a', hsplice, hlinks, hself, fun i hi => ?_, fun n hn hne s hs => ?_⟩
  · refine hkept i (fun hmem => ?_) (hi _ (Forest.mem_labels_of_mem_sites hq)).symm
      (hi _ (Forest.mem_labels_of_mem_sites hr)).symm
    obtain ⟨_, n, hn, hid⟩ := hyounger i hmem
    exact hi n hn hid
  · obtain ⟨x, hx, rfl⟩ := Forest.exists_site_of_mem_labels hn []
    obtain rfl := Option.some.inj (hs.symm.trans (h.slot_site hx))
    have hplaced : r.tree.root.id ∈ x.tree.below.roots.map Node.id ↔ q.tree.root.id = x.tree.root.id := by
      rw [ht.numbered.mem_children_iff hr hx, hparent, Option.some_inj]
    rw [Slot.spliced]
    simp only [← ht.numbered.mem_children_iff hx hr, hplaced]
    by_cases hxq : x.tree.root.id = q.tree.root.id
    · obtain rfl := ht.numbered.site_eq_of_id_eq hx hq hxq
      rw [hplace, if_neg fun hmem => Nat.lt_asymm hlt (hyounger _ hmem).1, if_pos rfl]
    · rw [if_neg (Ne.symm hxq)]
      by_cases hmem : x.tree.root.id ∈ r.tree.below.roots.map Node.id
      · rw [if_pos hmem, hset _ hmem _ hs]
      · rw [if_neg hmem, hkept _ hmem hxq hne, hs]

/-- Splicing a node out. -/
theorem splice_site : ∃ a', a.splice r.tree.root.id = some a' ∧
    a'.Represents (t.cutTo (t.tree.below.splice fun n => n.id == r.tree.root.id)) := by
  obtain ⟨a₁, hsplice, hlinks, ⟨s, hslot⟩, hkept, hset⟩ := relink_site h ht hr hq hparent
  have hcount : 0 < a₁.nodeCount := by
    rw [hlinks.nodeCount, h.nodeCount, ht.count, ← Tree.length_labels]
    exact List.length_pos_of_mem t.tree.root_mem_labels
  obtain ⟨a₂, htomb, hburies⟩ := tombstone_buries hslot hcount (hlinks.worklist.symm ▸ h.worklist ▸ ht.nodup)
  have hforest : t.tree.toForest.splice (fun n => n.id == r.tree.root.id) =
      (Tree.mk t.tree.root (t.tree.below.splice fun n => n.id == r.tree.root.id)).toForest := by
    refine Forest.splice_toForest (ht.numbered.root_ne hr fun hnil => ?_)
    rw [hnil] at hparent
    cases hparent
  have hids : (t.tree.labels.map Node.id).Perm
      ((Tree.mk t.tree.root (t.tree.below.splice fun n => n.id == r.tree.root.id)).labels.map Node.id ++
        [r.tree.root.id]) := by
    have hmem := List.mem_map_of_mem (f := Node.id) (Forest.mem_labels_of_mem_sites hr)
    have hleft : (Tree.mk t.tree.root (t.tree.below.splice fun n => n.id == r.tree.root.id)).labels.map Node.id =
        (t.tree.labels.map Node.id).erase r.tree.root.id := by
      rw [Tree.labels, ← hforest, Forest.labels_splice, List.Nodup.erase_eq_filter ht.numbered, List.filter_map]
      rfl
    rw [hleft]
    exact (List.perm_cons_erase hmem).trans (List.perm_append_singleton _ _).symm
  refine ⟨a₂, hsplice.trans htomb, h.cut ht hlinks hburies hids ?_ hkept⟩
  have hslots : ∀ n ∈ t.tree.labels, n.id ≠ r.tree.root.id → ∀ s, a.slot n.id = some s → a₂.slot n.id =
      some (s.spliced r.tree.root.id q.tree.root.id (r.tree.below.roots.map Node.id)) := by
    intro n hn hne s hs
    rw [hburies.kept n.id fun hmem => hne (List.mem_singleton.1 hmem)]
    exact hset n hn hne s hs
  rw [← hforest]
  refine h.holds.splice ht.numbered (Option.some_ne_none _).symm (fun s hs => ?_) hslots
  obtain rfl := Option.some.inj ((h.slot_site hr).symm.trans hs)
  exact ⟨hparent, rfl⟩

end Sites

/-- Splicing a node out, or nothing if it is gone already. -/
theorem splice_sim {t : Tableau} (h : a.Represents t) (ht : Tidy t) (hlt : id < t.slots) (hroot : id ≠ t.tree.root.id) :
    ∃ a', a.splice id = some a' ∧ a'.Represents (t.cutTo (t.tree.below.splice fun n => n.id == id)) := by
  rcases h.site_or_buried hlt with ⟨r, hr, rfl⟩ | ⟨hfree, s, hslot, hburied⟩
  · rcases Forest.root_or_below hr with ⟨_, hmem⟩ | ⟨q, hq, habove, _⟩
    · exact absurd (congrArg Node.id (List.mem_singleton.1 hmem)) hroot
    · exact splice_site h ht hr hq (by rw [habove, List.head?_cons, Option.map_some])
  · have hsame : (t.tree.below.splice fun n => n.id == id) = t.tree.below :=
      Forest.splice_of_forall_not fun n hn => beq_eq_false_iff_ne.2
        (hfree n (List.mem_cons_of_mem _ (List.mem_append_left _ hn)))
    refine ⟨a, ?_, ?_⟩
    · rw [splice, hslot]
      simp only [Option.bind_eq_bind, Option.bind_some, hburied.parent]
      rfl
    · rw [hsame, ht.cutTo_below]
      exact h

end Arena

end Tableaux
