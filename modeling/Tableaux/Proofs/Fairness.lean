import Mathlib
import Tableaux.Proofs.Models
import Tableaux.Proofs.Strategy

/-!
Fairness of the strategy. Nodes that are developed once come first; each development replaces such a node by smaller
ones, so their turn ends. A reusable node that lacks an instance for a term gets it: between two of its turns it moves
up in the worklist, and at each turn it takes the oldest term that it lacks.
-/

namespace Tableaux

namespace Tableau

variable {t : Tableau}

/-- What a waiting node contributes to the work before the reusable nodes have their turn: its size, unless it is
reusable itself. -/
def load (t : Tableau) (id : Nat) : Option Nat :=
  match t.node id with
  | .ok n => if n.kind.isReusable then none else some n.signed.formula.size
  | .error _ => none

theorem load_of_mem (h : t.tree.Numbered) {n : Node} (hn : n ∈ t.tree.labels) :
    t.load n.id = if n.kind.isReusable then none else some n.signed.formula.size := by
  rw [load, node_of_mem h hn]

/-- The sizes of the waiting nodes that are developed once. -/
def burden (t : Tableau) : Multiset Nat :=
  (t.worklist.filterMap t.load : List Nat)

end Tableau

namespace Advanced

variable {n m : Node} {e : Expansion} {t t' : Tableau}

theorem load_eq (hvalid : Valid t) (hvalid' : Valid t') (h : Advanced n e t t') (hm : m ∈ t.tree.labels) :
    t'.load m.id = t.load m.id := by
  obtain ⟨m', hm', hmm'⟩ := h.exists_later hm
  have hid : m'.id = m.id := hmm'.id.trans (id_touched n t m)
  have hsigned : m'.signed = m.signed := hmm'.signed.trans (signed_touched n t m)
  rw [← hid, Tableau.load_of_mem hvalid'.numbered hm', hid, Tableau.load_of_mem hvalid.numbered hm, Node.kind,
    Node.kind, hsigned]

/-- A new node weighs less than the developed one. -/
theorem lt_of_load (hvalid : Valid t) (hvalid' : Valid t') (h : Advanced n e t t') (hm : m ∈ t'.tree.labels)
    (hslots : t.slots ≤ m.id) {size : Nat} (hload : t'.load m.id = some size) : size < n.signed.formula.size := by
  rcases h.exists_earlier hm with ⟨k, hk, hkm⟩ | ⟨_, hlt⟩
  · have hsmall := hvalid.id_lt k hk
    rw [hkm.id, id_touched] at hslots
    omega
  · rw [Tableau.load_of_mem hvalid'.numbered hm] at hload
    split at hload
    · cases hload
    · rw [← Option.some.inj hload]
      exact hlt

/-- The development of a node that is not reusable replaces it by smaller ones. -/
theorem burden_lt (hvalid : Valid t) (hvalid' : Valid t') (h : Advanced n e t t') (hkind : n.kind.isReusable = false) :
    Multiset.IsDershowitzMannaLT t'.burden t.burden := by
  obtain ⟨front, back, new, hlist, hsub, hslots, hback⟩ := h.worklist
  have hnil : back = [] := by
    rw [List.eq_nil_iff_forall_not_mem]
    intro id hid
    rw [hkind] at hback
    cases (hback id hid).2
  rw [hnil, List.append_nil] at hlist
  obtain ⟨old, fresh, rfl, hold, hfresh⟩ := List.sublist_append_iff.1 hsub
  -- the nodes that waited before weigh what they weighed
  have hsame : old.filterMap t'.load = old.filterMap t.load := by
    apply List.filterMap_congr
    intro id hid
    obtain ⟨m, hm, rfl, _⟩ := (hvalid.waiting id).1 (List.mem_of_mem_erase (hold.mem hid))
    exact h.load_eq hvalid hvalid' hm
  have hburden : t.burden = (old.filterMap t.load : List Nat) + (n.signed.formula.size ::ₘ
      (((t.worklist.erase n.id).filterMap t.load : List Nat) - (old.filterMap t.load : List Nat))) := by
    have hperm := (List.perm_cons_erase h.waits).filterMap t.load
    have hload : t.load n.id = some n.signed.formula.size := by
      rw [Tableau.load_of_mem hvalid.numbered h.mem, hkind, if_neg Bool.false_ne_true]
    rw [List.filterMap_cons, hload] at hperm
    have hle : ((old.filterMap t.load : List Nat) : Multiset Nat) ≤
        ((t.worklist.erase n.id).filterMap t.load : List Nat) := Multiset.coe_le.2 (hold.filterMap t.load).subperm
    rw [Tableau.burden, Multiset.coe_eq_coe.2 hperm, ← Multiset.cons_coe, Multiset.add_cons, add_tsub_cancel_of_le hle]
  refine ⟨(old.filterMap t.load : List Nat), (fresh.filterMap t'.load : List Nat), _, ?_, ?_, hburden, ?_⟩
  · exact Multiset.cons_ne_zero
  · rw [Tableau.burden, hlist, List.filterMap_append, hsame, ← Multiset.coe_add]
  · intro size hsize
    obtain ⟨id, hid, hload⟩ := List.mem_filterMap.1 (Multiset.mem_coe.1 hsize)
    refine ⟨n.signed.formula.size, Multiset.mem_cons_self _ _, ?_⟩
    have hwaits : id ∈ t'.worklist := by
      rw [hlist]
      exact List.mem_append_right _ hid
    obtain ⟨m, hm, rfl, _⟩ := (hvalid'.waiting id).1 hwaits
    exact h.lt_of_load hvalid hvalid' hm (hslots m.id (hfresh.mem hid)) hload

end Advanced

theorem idxOf_le_of_sublist {l l' : List Nat} (h : l.Sublist l') (hnodup : l'.Nodup) {id : Nat} (hid : id ∈ l) :
    l.idxOf id ≤ l'.idxOf id := by
  induction h with
  | slnil => exact Nat.le_refl _
  | cons i h ih =>
      obtain ⟨hnotin, hnodup⟩ := List.nodup_cons.1 hnodup
      have hne : i ≠ id := fun heq => hnotin (heq ▸ h.mem hid)
      rw [List.idxOf_cons_ne _ hne]
      exact (ih hnodup hid).trans (Nat.le_succ _)
  | cons_cons i h ih =>
      by_cases heq : i = id
      · rw [List.idxOf_cons_eq _ heq, List.idxOf_cons_eq _ heq]
      · rw [List.idxOf_cons_ne _ heq, List.idxOf_cons_ne _ heq]
        exact Nat.succ_le_succ (ih (List.nodup_cons.1 hnodup).2 ((List.mem_cons.1 hid).resolve_left (Ne.symm heq)))

/-- What has a well-founded measure that decreases until it happens does happen. -/
theorem exists_of_decreasing {α : Type} {r : α → α → Prop} (hr : WellFounded r) {goal : Nat → Prop} (measure : Nat → α)
    (k₀ : Nat) (h : ∀ k, k₀ ≤ k → ¬ goal k → ¬ goal (k + 1) → r (measure (k + 1)) (measure k)) :
    ∃ k, k₀ ≤ k ∧ goal k := by
  by_contra hnever
  have hnever : ∀ k, k₀ ≤ k → ¬ goal k := fun k hk hgoal => hnever ⟨k, hk, hgoal⟩
  obtain ⟨_, ⟨k, rfl⟩, hmin⟩ := hr.has_min (Set.range fun k => measure (k₀ + k)) ⟨_, 0, rfl⟩
  have hk : k₀ ≤ k₀ + k := Nat.le_add_right k₀ k
  exact hmin _ ⟨k + 1, rfl⟩ (h (k₀ + k) hk (hnever _ hk) (hnever _ (Nat.le_succ_of_le hk)))

namespace Tableau

variable {t : Tableau}

/-- Again and again only reusable nodes wait. -/
theorem exists_stage_reusable (h : Valid t) (k₀ : Nat) : ∃ k, k₀ ≤ k ∧
    ∀ id ∈ (t.stage k).worklist, ∀ n, (t.stage k).node id = .ok n → n.kind.isReusable = true := by
  refine exists_of_decreasing Multiset.wellFounded_isDershowitzMannaLT (fun k => (t.stage k).burden) k₀ ?_
  intro k _ hwaits _
  have hvalid := valid_stage h k
  rcases choice_cases hvalid with ⟨_, hsaturated⟩ | ⟨id, n, hchoice, _, hnode, hkind⟩ |
    ⟨_, _, _, _, _, _, _, _, hreusable, _⟩
  · refine absurd (fun id hid n hnode => ?_) hwaits
    obtain ⟨m, hm, hkind, _⟩ := hsaturated id hid
    obtain rfl := Except.ok.inj (hnode.symm.trans hm)
    exact hkind
  · obtain ⟨e, hadvanced⟩ := advanced_next hvalid hchoice hnode
    exact hadvanced.burden_lt hvalid (valid_next hvalid) hkind
  · exact absurd hreusable hwaits

/-- The number of terms of a list that a node has not been instantiated with. -/
def lacking (t : Tableau) (terms : List Term) (id : Nat) : Nat :=
  match t.node id with
  | .ok n => (terms.filter fun x => !n.instances.contains x).length
  | .error _ => 0

theorem lacking_of_mem (h : t.tree.Numbered) {n : Node} (hn : n ∈ t.tree.labels) (terms : List Term) :
    t.lacking terms n.id = (terms.filter fun x => !n.instances.contains x).length := by
  rw [lacking, node_of_mem h hn]

end Tableau

namespace Advanced

variable {n m : Node} {e : Expansion} {t t' : Tableau} {terms : List Term}

/-- Only the developed node gets instances. -/
theorem lacking_of_ne (hvalid : Valid t) (hvalid' : Valid t') (h : Advanced n e t t') (hm : m ∈ t.tree.labels)
    (hne : m.id ≠ n.id) (terms : List Term) : t'.lacking terms m.id = t.lacking terms m.id := by
  obtain ⟨m', hm', hmm'⟩ := h.exists_later hm
  have hid : m'.id = m.id := hmm'.id.trans (id_touched n t m)
  have hinstances : m'.instances = m.instances := by
    rw [hmm'.instances, touched, Tableau.touch_of_ne hne]
  rw [← hid, Tableau.lacking_of_mem hvalid'.numbered hm', hid, Tableau.lacking_of_mem hvalid.numbered hm, hinstances]

/-- A reusable node that lacks an instance takes the oldest term that it lacks. -/
theorem lacking_lt (hvalid : Valid t) (hvalid' : Valid t') (h : Advanced n e t t') (hkind : n.kind.isReusable = true)
    (hterms : terms <+: t.terms) {x : Term} (hx : x ∈ terms) (hlacks : x ∉ n.instances) :
    t'.lacking terms n.id < t.lacking terms n.id := by
  obtain ⟨y, hy⟩ : ∃ y, terms.find? (fun x => !n.instances.contains x) = some y := by
    rw [← Option.isSome_iff_exists, List.find?_isSome]
    exact ⟨x, hx, by simpa using hlacks⟩
  have hgiven : t.given n none = some y := by
    obtain ⟨rest, hrest⟩ := hterms
    rw [Tableau.given, Kind.isQuantified_of_reusable hkind, if_pos rfl, Tableau.termFor, if_pos hkind, ← hrest,
      List.find?_append, hy]
    rfl
  have hlacksy : y ∉ n.instances := by simpa using List.find?_some hy
  obtain ⟨n', hn', hnn'⟩ := h.exists_later h.mem
  have hid : n'.id = n.id := hnn'.id.trans (id_touched n t n)
  have hinstances : n'.instances = n.instances ++ [y] := by
    rw [hnn'.instances, touched, Tableau.touch, if_pos rfl, hgiven, Option.elim,
      Term.enter_of_not_mem hlacksy]
  have hlacking : t'.lacking terms n.id =
      ((terms.filter fun x => !n.instances.contains x).filter fun x => x ≠ y).length := by
    rw [← hid, Tableau.lacking_of_mem hvalid'.numbered hn', hinstances, List.filter_filter]
    congr 2
    funext z
    by_cases hz : z = y <;> simp [hz]
  rw [hlacking, Tableau.lacking_of_mem hvalid.numbered h.mem]
  refine List.length_filter_lt_length_iff_exists.2 ⟨y, ?_, by simp⟩
  exact List.mem_filter.2 ⟨List.mem_of_find?_eq_some hy, by simpa using hlacksy⟩

/-- A waiting node does not fall behind as long as it is not its turn. -/
theorem idxOf_le (hvalid : Valid t) (h : Advanced n e t t') {id : Nat} (hwaits : id ∈ t.worklist)
    (hwaits' : id ∈ t'.worklist) (hne : id ≠ n.id) : t'.worklist.idxOf id ≤ (t.worklist.erase n.id).idxOf id := by
  obtain ⟨front, back, new, hlist, hsub, hslots, hback⟩ := h.worklist
  obtain ⟨old, fresh, rfl, hold, hfresh⟩ := List.sublist_append_iff.1 hsub
  have hmem : id ∈ old := by
    rw [hlist] at hwaits'
    rcases List.mem_append.1 hwaits' with hid | hid
    · rcases List.mem_append.1 hid with hid | hid
      · exact hid
      · obtain ⟨m, hm, rfl, _⟩ := (hvalid.waiting id).1 hwaits
        have hlarge := hslots m.id (hfresh.mem hid)
        have hsmall := hvalid.id_lt m hm
        omega
    · exact absurd (hback id hid).1 hne
  rw [hlist, List.idxOf_append_of_mem (List.mem_append_left _ hmem), List.idxOf_append_of_mem hmem]
  exact idxOf_le_of_sublist hold (hvalid.nodup.erase n.id) hmem

end Advanced

namespace Tableau

variable {t : Tableau}

/-- What decreases until a waiting node has an instance for each of the terms: the terms it lacks, then its position
in the worklist, then the sizes of the nodes that are developed once. -/
def delay (t : Tableau) (terms : List Term) (id : Nat) : Nat × Nat × Multiset Nat :=
  (t.lacking terms id, t.worklist.idxOf id, t.burden)

/-- Delays are compared lexicographically. -/
def Sooner : Nat × Nat × Multiset Nat → Nat × Nat × Multiset Nat → Prop :=
  Prod.Lex (· < ·) (Prod.Lex (· < ·) Multiset.IsDershowitzMannaLT)

theorem wellFounded_sooner : WellFounded Sooner :=
  wellFounded_lt.prod_lex (wellFounded_lt.prod_lex Multiset.wellFounded_isDershowitzMannaLT)

/-- A development brings a waiting reusable node nearer to the instance that it lacks. -/
theorem sooner_next (h : Valid t) {m : Node} (hm : m ∈ t.tree.labels) (hkind : m.kind.isReusable = true)
    (hwaits : m.id ∈ t.worklist) (hwaits' : m.id ∈ t.next.worklist) {terms : List Term} (hterms : terms <+: t.terms)
    {x : Term} (hx : x ∈ terms) (hlacks : x ∉ m.instances) : Sooner (t.next.delay terms m.id) (t.delay terms m.id) := by
  have hnode := node_of_mem h.numbered hm
  have hvalid' := valid_next h
  have hunsaturated : t.saturates m ≠ true := fun hsat => hlacks (mem_instances_of_saturates hsat (hterms.mem hx))
  rcases choice_cases h with ⟨_, hsaturated⟩ | ⟨id, n, hchoice, hid, hn, honce⟩ |
    ⟨before, id, after, n, hlist, hchoice, hn, _, hreusable, hbefore⟩
  · obtain ⟨k, hk, _, hsat⟩ := hsaturated m.id hwaits
    obtain rfl := Except.ok.inj (hnode.symm.trans hk)
    exact absurd hsat hunsaturated
  · -- a node that is developed once: it leaves the worklist, and smaller ones come behind
    obtain ⟨e, hadvanced⟩ := advanced_next h hchoice hn
    have hne : m.id ≠ n.id := by
      intro heq
      rw [h.numbered.eq_of_id_eq hm hadvanced.mem heq] at hkind
      cases hkind.symm.trans honce
    have hidx := (hadvanced.idxOf_le h hwaits hwaits' hne).trans
      (idxOf_le_of_sublist List.erase_sublist h.nodup ((List.mem_erase_of_ne hne).2 hwaits))
    rw [delay, delay, hadvanced.lacking_of_ne h hvalid' hm hne]
    apply Prod.Lex.right
    rcases hidx.lt_or_eq with hlt | heq
    · exact Prod.Lex.left _ _ hlt
    · rw [heq]
      exact Prod.Lex.right _ (hadvanced.burden_lt h hvalid' honce)
  · obtain ⟨e, hadvanced⟩ := advanced_next h hchoice hn
    obtain ⟨_, rfl⟩ := node_eq_ok hn
    by_cases hne : m.id = n.id
    · -- its turn
      obtain rfl := h.numbered.eq_of_id_eq hm hadvanced.mem hne
      exact Prod.Lex.left _ _ (hadvanced.lacking_lt h hvalid' hkind hterms hx hlacks)
    · -- the turn of another: those before it need nothing, so this one stands behind
      have hnotin : m.id ∉ before := fun hmem => hunsaturated (hbefore m.id hmem m hnode)
      have hnodup := h.nodup
      rw [hlist] at hnodup
      have herase : t.worklist.erase n.id = before ++ after := by
        have hnotin : n.id ∉ before := fun hmem =>
          (List.nodup_append.1 hnodup).2.2 n.id hmem n.id List.mem_cons_self rfl
        rw [hlist, List.erase_append_right _ hnotin, List.erase_cons_head]
      have hidx := hadvanced.idxOf_le h hwaits hwaits' hne
      have hlt : (t.worklist.erase n.id).idxOf m.id < t.worklist.idxOf m.id := by
        rw [herase, hlist, List.idxOf_append_of_notMem hnotin, List.idxOf_append_of_notMem hnotin,
          List.idxOf_cons_ne _ (Ne.symm hne)]
        omega
      rw [delay, delay, hadvanced.lacking_of_ne h hvalid' hm hne]
      exact Prod.Lex.right _ (Prod.Lex.left _ _ (hidx.trans_lt hlt))

/-- A reusable node gets an instance for every term, unless its branches are closed. -/
theorem exists_stage_instance (h : Valid t) {k₀ : Nat} {m : Node} (hm : m ∈ (t.stage k₀).tree.labels)
    (hkind : m.kind.isReusable = true) {x : Term} (hx : x ∈ (t.stage k₀).terms) : ∃ k, k₀ ≤ k ∧
    (m.id ∈ (t.stage k).worklist → ∃ n, (t.stage k).node m.id = .ok n ∧ x ∈ n.instances) := by
  refine exists_of_decreasing wellFounded_sooner (fun k => (t.stage k).delay (t.stage k₀).terms m.id) k₀ ?_
  intro k hk hnot hnot'
  obtain ⟨hwaits, hlacks⟩ := Classical.not_imp.1 hnot
  obtain ⟨hwaits', _⟩ := Classical.not_imp.1 hnot'
  have hvalid := valid_stage h k
  have hlater := Later.stage h hk
  obtain ⟨n, hn, hid, hsigned⟩ := hlater.node m hm
  have hlacks : x ∉ n.instances := fun hmem => hlacks ⟨n, hid ▸ node_of_mem hvalid.numbered hn, hmem⟩
  have hkind : n.kind.isReusable = true := by rwa [Node.kind, hsigned]
  rw [← hid] at hwaits hwaits' ⊢
  exact sooner_next hvalid hn hkind hwaits hwaits' hlater.terms hx hlacks

end Tableau

end Tableaux
