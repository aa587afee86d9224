import Mathlib
import Tableaux.Proofs.Saturation

/-!
The strategy of the search, without its limits. As long as a node can be chosen it is developed, and the tableau goes
from one stage to the next. A search whose limits are large enough for the stages before the first closed one runs
through these stages and finds it.
-/

namespace Tableaux

namespace Tableau

variable {t : Tableau}

/-- The waiting node that is developed next if there are no limits. -/
def choice (t : Tableau) : Except Refusal (Option Nat) :=
  match t.firstWhere (fun n => !n.kind.isReusable) t.worklist with
  | .ok none => t.firstWhere (fun n => !t.saturates n) t.worklist
  | found => found

/-- The tableau after the next development. -/
def next (t : Tableau) : Tableau :=
  match t.choice with
  | .ok (some id) => (t.advance id).2
  | _ => t

/-- The tableau after some number of developments. -/
def stage (t : Tableau) : Nat → Tableau
  | 0 => t
  | k + 1 => (t.stage k).next

theorem stage_next (t : Tableau) (k : Nat) : t.next.stage k = t.stage (k + 1) := by
  induction k with
  | zero => rfl
  | succ k ih => rw [stage, ih]; rfl

/-- A node is found among live ones exactly if one of them satisfies the condition; those before it do not. -/
theorem firstWhere_cases (h : Valid t) (p : Node → Bool) {ids : List Nat}
    (hids : ∀ id ∈ ids, id ∈ t.worklist) :
    (t.firstWhere p ids = .ok none ∧ ∀ id ∈ ids, ∀ n, t.node id = .ok n → p n = false) ∨
    ∃ before id after n, ids = before ++ id :: after ∧ t.firstWhere p ids = .ok (some id) ∧ t.node id = .ok n ∧
      p n = true ∧ ∀ i ∈ before, ∀ m, t.node i = .ok m → p m = false := by
  induction ids with
  | nil => exact Or.inl ⟨rfl, fun id hid => by cases hid⟩
  | cons id ids ih =>
      obtain ⟨n, hn, rfl, _⟩ := (h.waiting id).1 (hids id List.mem_cons_self)
      have hnode := node_of_mem h.numbered hn
      have hother : ∀ {i m}, i = n.id → t.node i = .ok m → m = n := by
        rintro i m rfl hm
        exact (Except.ok.inj (hnode.symm.trans hm)).symm
      rw [firstWhere, hnode]
      cases hp : p n with
      | true =>
          refine Or.inr ⟨[], n.id, ids, n, rfl, ?_, hnode, hp, fun i hi => by cases hi⟩
          simp [hp]
      | false =>
          simp only [hp, Bool.false_eq_true, if_false]
          rcases ih fun id hid => hids id (List.mem_cons_of_mem _ hid) with
            ⟨hnone, hall⟩ | ⟨before, id, after, m, rfl, hsome, hm, hpm, hbefore⟩
          · refine Or.inl ⟨hnone, fun i hi m hm => ?_⟩
            rcases List.mem_cons.1 hi with rfl | hi
            · rw [hother rfl hm, hp]
            · exact hall i hi m hm
          · refine Or.inr ⟨n.id :: before, id, after, m, rfl, hsome, hm, hpm, fun i hi k hk => ?_⟩
            rcases List.mem_cons.1 hi with rfl | hi
            · rw [hother rfl hk, hp]
            · exact hbefore i hi k hk

theorem firstWhere_congr {p q : Node → Bool} {ids : List Nat}
    (h : ∀ id ∈ ids, ∀ n, t.node id = .ok n → p n = q n) : t.firstWhere p ids = t.firstWhere q ids := by
  induction ids with
  | nil => rfl
  | cons id ids ih =>
      rw [firstWhere, firstWhere]
      cases hnode : t.node id with
      | error e => rfl
      | ok n =>
          simp only [h id List.mem_cons_self n hnode, ih fun i hi => h i (List.mem_cons_of_mem _ hi)]

/-- With room for more instances of every reusable node, the limits have no part in the choice. -/
theorem select_eq_choice {limits : Limits}
    (h : ∀ n ∈ t.tree.labels, n.kind.isReusable = true → n.instances.length < limits.instances) :
    t.select limits = t.choice := by
  rw [select, choice]
  cases hfirst : t.firstWhere (fun n => !n.kind.isReusable) t.worklist with
  | error e => rfl
  | ok found =>
      cases found with
      | some id => rfl
      | none =>
          -- only reusable nodes wait
          apply firstWhere_congr
          intro id hid n hnode
          obtain ⟨m, hm, hreusable⟩ := firstWhere_eq_none hfirst id hid
          obtain rfl := Except.ok.inj (hnode.symm.trans hm)
          have hroom := h n (node_eq_ok hnode).1 (by simpa using hreusable)
          rw [isInstantiable, decide_eq_true hroom, Bool.true_and]

/-- The three things a choice can be: none, since all is done; a node that is developed once; or, when only reusable
nodes wait, the first that lacks an instance. -/
theorem choice_cases (h : Valid t) :
    (t.choice = .ok none ∧ Saturated t) ∨
    (∃ id n, t.choice = .ok (some id) ∧ id ∈ t.worklist ∧ t.node id = .ok n ∧ n.kind.isReusable = false) ∨
    ∃ before id after n, t.worklist = before ++ id :: after ∧ t.choice = .ok (some id) ∧ t.node id = .ok n ∧
      t.saturates n = false ∧ (∀ i ∈ t.worklist, ∀ m, t.node i = .ok m → m.kind.isReusable = true) ∧
      ∀ i ∈ before, ∀ m, t.node i = .ok m → t.saturates m = true := by
  have hlive : ∀ id ∈ t.worklist, id ∈ t.worklist := fun id hid => hid
  rcases firstWhere_cases h (fun n => !n.kind.isReusable) hlive with
    ⟨hfirst, hreusable⟩ | ⟨before, id, after, n, heq, hfirst, hnode, hkind, _⟩
  · have hreusable : ∀ i ∈ t.worklist, ∀ m, t.node i = .ok m → m.kind.isReusable = true :=
      fun i hi m hm => by simpa using hreusable i hi m hm
    have hchoice : t.choice = t.firstWhere (fun n => !t.saturates n) t.worklist := by rw [choice, hfirst]
    rcases firstWhere_cases h (fun n => !t.saturates n) hlive with
      ⟨hsecond, hsaturated⟩ | ⟨before, id, after, n, heq, hsecond, hnode, hsat, hbefore⟩
    · refine Or.inl ⟨hchoice.trans hsecond, fun id hid => ?_⟩
      obtain ⟨n, hn, rfl, _⟩ := (h.waiting id).1 hid
      have hnode := node_of_mem h.numbered hn
      exact ⟨n, hnode, hreusable _ hid n hnode, by simpa using hsaturated _ hid n hnode⟩
    · refine Or.inr (Or.inr ⟨before, id, after, n, heq, hchoice.trans hsecond, hnode, by simpa using hsat, hreusable,
        fun i hi m hm => by simpa using hbefore i hi m hm⟩)
  · refine Or.inr (Or.inl ⟨id, n, by rw [choice, hfirst], ?_, hnode, by simpa using hkind⟩)
    rw [heq]
    exact List.mem_append_right _ List.mem_cons_self

end Tableau

/-- How a tableau comes out of the development of a waiting node in the search: the rule is applied, branches are
closed, and a reusable node goes to the back of the worklist. -/
structure Advanced (n : Node) (e : Expansion) (t t' : Tableau) : Prop where
  mem : n ∈ t.tree.labels
  waits : n.id ∈ t.worklist
  expansion : n.signed.expansion (t.given n none) = some e
  outcome : ∃ t₁ t₂, Applied n (t.given n none) e (t.openLeavesBelow n.id) t t₁ ∧ t₁.ClosesTo t₂ ∧ Valid t₁ ∧
    t' = if n.kind.isReusable then t₂.sendToBack n.id else t₂

namespace Advanced

variable {n : Node} {e : Expansion} {t t' : Tableau}

/-- The node as the development leaves it, but for marks of closing. -/
abbrev touched (n : Node) (t : Tableau) (m : Node) : Node :=
  Tableau.touch n.id (t.given n none) (!n.kind.isReusable) m

theorem signed_touched (n : Node) (t : Tableau) (m : Node) : (touched n t m).signed = m.signed :=
  (Tableau.sameJudgement_touch _ _ _).signed m

theorem id_touched (n : Node) (t : Tableau) (m : Node) : (touched n t m).id = m.id :=
  (Tableau.sameJudgement_touch _ _ _).id m

theorem labels_eq {t₂ : Tableau} (h : t' = if n.kind.isReusable then t₂.sendToBack n.id else t₂) :
    t'.tree = t₂.tree ∧ t'.slots = t₂.slots ∧ t'.terms = t₂.terms := by
  rw [h]
  split
  · rw [Tableau.sendToBack_eq]
    exact ⟨rfl, rfl, rfl⟩
  · exact ⟨rfl, rfl, rfl⟩

/-- Every node is still there. -/
theorem exists_later (h : Advanced n e t t') {m : Node} (hm : m ∈ t.tree.labels) :
    ∃ m' ∈ t'.tree.labels, (touched n t m).MarkedTo m' := by
  obtain ⟨t₁, t₂, happlied, hcloses, _, heq⟩ := h.outcome
  rw [(labels_eq heq).1]
  exact hcloses.exists_marked (happlied.mem_labels hm)

/-- Every node was there, or is new and smaller than the developed one. -/
theorem exists_earlier (h : Advanced n e t t') {m' : Node} (hm' : m' ∈ t'.tree.labels) :
    (∃ m ∈ t.tree.labels, (touched n t m).MarkedTo m') ∨
      (t.slots ≤ m'.id ∧ m'.signed.formula.size < n.signed.formula.size) := by
  obtain ⟨t₁, t₂, happlied, hcloses, _, heq⟩ := h.outcome
  rw [(labels_eq heq).1] at hm'
  obtain ⟨k, hk, hkm⟩ := hcloses.exists_label hm'
  rcases happlied.label_cases hk with ⟨m, hm, rfl⟩ | ⟨chain, hchain, s, hs, hle, heq⟩
  · exact Or.inl ⟨m, hm, hkm⟩
  · refine Or.inr ⟨by rwa [hkm.id], ?_⟩
    rw [hkm.signed, heq]
    exact Nat.lt_of_le_of_lt s.size_fold_le (Signed.size_lt_of_mem_chain h.expansion hchain hs)

/-- The developed node leaves its place in the worklist, the others keep their order, and new ones come behind. -/
theorem worklist (h : Advanced n e t t') : ∃ front back new, t'.worklist = front ++ back ∧
    front.Sublist (t.worklist.erase n.id ++ new) ∧ (∀ id ∈ new, t.slots ≤ id) ∧
    ∀ id ∈ back, id = n.id ∧ n.kind.isReusable = true := by
  obtain ⟨t₁, t₂, happlied, hcloses, _, heq⟩ := h.outcome
  obtain ⟨new, hnew, hslots⟩ := happlied.worklist
  have hsub := hcloses.worklist
  rw [hnew] at hsub
  cases hkind : n.kind.isReusable with
  | false =>
      rw [hkind, if_neg Bool.false_ne_true] at hsub heq
      exact ⟨t'.worklist, [], new, (List.append_nil _).symm, heq ▸ hsub, hslots, fun id hid => by cases hid⟩
  | true =>
      rw [hkind, if_pos rfl] at hsub heq
      have herase : (t₂.worklist.erase n.id).Sublist (t.worklist.erase n.id ++ new) := by
        rw [← List.erase_append_left new h.waits]
        exact hsub.erase n.id
      by_cases hmem : n.id ∈ t₂.worklist
      · refine ⟨t₂.worklist.erase n.id, [n.id], new, ?_, herase, hslots, fun id hid => ⟨List.mem_singleton.1 hid, rfl⟩⟩
        rw [heq, Tableau.sendToBack, if_pos (List.contains_iff_mem.2 hmem)]
      · refine ⟨t₂.worklist.erase n.id, [], new, ?_, herase, hslots, fun id hid => by cases hid⟩
        rw [heq, Tableau.sendToBack, if_neg (by rwa [List.contains_iff_mem]), List.erase_of_not_mem hmem,
          List.append_nil]

theorem terms (h : Advanced n e t t') : t'.terms = (t.given n none).elim t.terms (Term.enter t.terms) := by
  obtain ⟨t₁, t₂, happlied, hcloses, _, heq⟩ := h.outcome
  rw [(labels_eq heq).2.2, hcloses.terms, happlied.terms]

theorem slots_le (h : Advanced n e t t') : t.slots ≤ t'.slots := by
  obtain ⟨t₁, t₂, happlied, hcloses, _, heq⟩ := h.outcome
  rw [(labels_eq heq).2.1, hcloses.slots]
  exact happlied.slots_le

/-- An open branch prolongs one that was open, by new nodes. -/
theorem exists_branch (h : Advanced n e t t') {b' : List Node} (hb' : b' ∈ t'.tree.branches) (hopen : OpenBranch b') :
    ∃ b ∈ t.tree.branches, OpenBranch b ∧ ∃ new, b'.map Node.id = new ++ b.map Node.id ∧ ∀ id ∈ new, t.slots ≤ id := by
  obtain ⟨t₁, t₂, happlied, hcloses, _, heq⟩ := h.outcome
  rw [(labels_eq heq).1] at hb'
  obtain ⟨c, hc, hmarked⟩ := hcloses.exists_branch hb'
  have hopen := openBranch_of_marked hmarked hopen
  have htouched : ∀ b : List Node, (b.map (touched n t)).map Node.id = b.map Node.id := by
    intro b
    rw [List.map_map]
    exact List.map_congr_left fun m _ => id_touched n t m
  have hopen_touched : ∀ {b : List Node}, OpenBranch (b.map (touched n t)) → OpenBranch b := fun hb m hm =>
    ((Tableau.sameJudgement_touch n.id _ _).branchClosed m).symm.trans (hb _ (List.mem_map_of_mem hm))
  rw [map_eq_of_marked Node.MarkedTo.id hmarked]
  obtain ⟨b, hb, ⟨_, rfl⟩ | ⟨_, chain, _, id, hle, rfl⟩⟩ := happlied.source c hc
  · exact ⟨b, hb, hopen_touched hopen, [], htouched b, fun id hid => by cases hid⟩
  · refine ⟨b, hb, hopen_touched fun m hm => hopen m (List.mem_append_right _ hm),
      (Node.ofChain n.id id chain).reverse.map Node.id, ?_, ?_⟩
    · rw [List.map_append, htouched]
    · intro i hi
      obtain ⟨m, hm, rfl⟩ := List.mem_map.1 hi
      exact hle.trans (Node.id_bounds_of_mem_ofChain (List.mem_reverse.1 hm)).1

theorem terms_grow (h : Advanced n e t t') : t.terms <+: t'.terms := by
  rw [h.terms]
  exact Term.prefix_elim_enter _ _

end Advanced

namespace Tableau

variable {t : Tableau}

/-- A waiting node is developed. -/
theorem advance_waiting (h : Valid t) {n : Node} (hn : n ∈ t.tree.labels) (hwaits : n.id ∈ t.worklist) :
    ∃ e, t.advance n.id = (.ok true, (t.advance n.id).2) ∧ Advanced n e t (t.advance n.id).2 := by
  have hnode := node_of_mem h.numbered hn
  obtain ⟨m, hm, hid, hticked, hopen⟩ := (h.waiting n.id).1 hwaits
  obtain rfl := h.numbered.eq_of_id_eq hm hn hid
  rcases develop_cases h m.id none with
    ⟨_, herror, _⟩ | ⟨k, hk, hdone, _⟩ | ⟨k, e, t₁, hk, _, _, hexpansion, happlied, hvalid, hdevelop⟩
  · rw [hnode] at herror
    cases herror
  · obtain rfl := Except.ok.inj (hnode.symm.trans hk)
    rcases hdone with hdone | hdone
    · rw [hticked] at hdone
      cases hdone
    · rw [hopen] at hdone
      cases hdone
  · obtain rfl := Except.ok.inj (hnode.symm.trans hk)
    have hcloses := closesTo_closeBranches t₁ m.id
    -- the node is still there when it is sent to the back
    obtain ⟨j, hj, hmj⟩ := hcloses.exists_marked (happlied.mem_labels hn)
    have hnode' : (t₁.closeBranches m.id).1.node m.id = .ok j := by
      have hjid : j.id = m.id := hmj.id.trans ((sameJudgement_touch m.id _ _).id m)
      have hfound := node_of_mem (hcloses.indexed hvalid.toIndexed).numbered hj
      rwa [hjid] at hfound
    have hadvance : t.advance m.id = (.ok true,
        if m.kind.isReusable then (t₁.closeBranches m.id).1.sendToBack m.id else (t₁.closeBranches m.id).1) := by
      rw [advance, hnode]
      simp only [hdevelop]
      split
      · rw [defer, hnode']
      · rfl
    refine ⟨e, by rw [hadvance], hn, hwaits, hexpansion, t₁, _, happlied, hcloses, hvalid, by rw [hadvance]⟩

section Induction

variable {P : Tableau → Prop} (hdevelop : ∀ t id, P t → P (t.develop id none).2)
  (hdefer : ∀ t id, P t → P (t.defer id).2)
include hdevelop hdefer

theorem next_induction (h : P t) : P t.next := by
  rw [next]
  split
  · exact advance_induction hdevelop hdefer h _
  · exact h

/-- What developments and deferrals keep is kept from stage to stage. -/
theorem stage_induction (h : P t) (k : Nat) : P (t.stage k) := by
  induction k with
  | zero => exact h
  | succ k ih => exact next_induction hdevelop hdefer ih

end Induction

theorem valid_next (h : Valid t) : Valid t.next :=
  next_induction (P := Valid) (fun _ id h => valid_develop h id none) (fun _ id h => valid_defer h id) h

theorem valid_stage (h : Valid t) (k : Nat) : Valid (t.stage k) :=
  stage_induction (P := Valid) (fun _ id h => valid_develop h id none) (fun _ id h => valid_defer h id) h k

theorem next_of_choice_none (h : t.choice = .ok none) : t.next = t := by
  rw [next, h]

theorem stage_of_choice_none (h : t.choice = .ok none) (k : Nat) : t.stage k = t := by
  induction k with
  | zero => rfl
  | succ k ih => rw [stage, ih, next_of_choice_none h]

/-- A choice is carried out. -/
theorem next_of_choice_some (h : Valid t) {id : Nat} (hchoice : t.choice = .ok (some id)) :
    id ∈ t.worklist ∧ t.advance id = (.ok true, t.next) := by
  have hwaits : id ∈ t.worklist := by
    rcases choice_cases h with ⟨heq, _⟩ | ⟨i, _, heq, hmem, _⟩ | ⟨before, i, after, _, hlist, heq, _⟩
    · rw [hchoice] at heq
      cases heq
    · rw [hchoice] at heq
      cases heq
      exact hmem
    · rw [hchoice] at heq
      cases heq
      rw [hlist]
      exact List.mem_append_right _ List.mem_cons_self
  obtain ⟨n, hn, rfl, _⟩ := (h.waiting id).1 hwaits
  obtain ⟨e, heq, _⟩ := advance_waiting h hn hwaits
  refine ⟨hwaits, ?_⟩
  rw [heq, next, hchoice]

theorem advanced_next (h : Valid t) {id : Nat} {n : Node} (hchoice : t.choice = .ok (some id))
    (hnode : t.node id = .ok n) : ∃ e, Advanced n e t t.next := by
  obtain ⟨hn, rfl⟩ := node_eq_ok hnode
  obtain ⟨e, _, hadvanced⟩ := advance_waiting h hn (next_of_choice_some h hchoice).1
  have hnext : t.next = (t.advance n.id).2 := by rw [next, hchoice]
  exact ⟨e, hnext ▸ hadvanced⟩

end Tableau

/-- The second tableau comes out of the first by developments: terms and nodes stay, and an open branch prolongs one
that was open, by new nodes. -/
structure Later (t t' : Tableau) : Prop where
  slots_le : t.slots ≤ t'.slots
  terms : t.terms <+: t'.terms
  node : ∀ n ∈ t.tree.labels, ∃ n' ∈ t'.tree.labels, n'.id = n.id ∧ n'.signed = n.signed
  branch : ∀ b' ∈ t'.tree.branches, OpenBranch b' → ∃ b ∈ t.tree.branches, OpenBranch b ∧
    ∃ new, b'.map Node.id = new ++ b.map Node.id ∧ ∀ id ∈ new, t.slots ≤ id

namespace Later

variable {t t' t'' : Tableau}

theorem refl (t : Tableau) : Later t t where
  slots_le := Nat.le_refl _
  terms := List.prefix_refl _
  node n hn := ⟨n, hn, rfl, rfl⟩
  branch b hb hopen := ⟨b, hb, hopen, [], rfl, fun id hid => by cases hid⟩

theorem trans (h : Later t t') (h' : Later t' t'') : Later t t'' where
  slots_le := h.slots_le.trans h'.slots_le
  terms := h.terms.trans h'.terms
  node n hn := by
    obtain ⟨n', hn', hid, hsigned⟩ := h.node n hn
    obtain ⟨n'', hn'', hid', hsigned'⟩ := h'.node n' hn'
    exact ⟨n'', hn'', hid'.trans hid, hsigned'.trans hsigned⟩
  branch b'' hb'' hopen'' := by
    obtain ⟨b', hb', hopen', new', heq', hslots'⟩ := h'.branch b'' hb'' hopen''
    obtain ⟨b, hb, hopen, new, heq, hslots⟩ := h.branch b' hb' hopen'
    refine ⟨b, hb, hopen, new' ++ new, by rw [heq', heq, List.append_assoc], fun id hid => ?_⟩
    rcases List.mem_append.1 hid with hid | hid
    · exact h.slots_le.trans (hslots' id hid)
    · exact hslots id hid

theorem of_advanced {n : Node} {e : Expansion} (h : Advanced n e t t') : Later t t' where
  slots_le := h.slots_le
  terms := h.terms_grow
  node m hm := by
    obtain ⟨m', hm', hmm'⟩ := h.exists_later hm
    exact ⟨m', hm', hmm'.id.trans (Advanced.id_touched n t m), hmm'.signed.trans (Advanced.signed_touched n t m)⟩
  branch _ hb' hopen := h.exists_branch hb' hopen

theorem next (h : Valid t) : Later t t.next := by
  rcases Tableau.choice_cases h with ⟨hchoice, _⟩ | ⟨id, n, hchoice, _, hnode, _⟩ | ⟨_, id, _, n, _, hchoice, hnode, _⟩
  · rw [Tableau.next_of_choice_none hchoice]
    exact refl t
  all_goals
    obtain ⟨e, hadvanced⟩ := Tableau.advanced_next h hchoice hnode
    exact of_advanced hadvanced

theorem stage (h : Valid t) {i j : Nat} (hij : i ≤ j) : Later (t.stage i) (t.stage j) := by
  induction hij with
  | refl => exact refl _
  | step _ ih => exact ih.trans (next (Tableau.valid_stage h _))

end Later

namespace Tableau

variable {t : Tableau}

theorem stage_add (t : Tableau) (i j : Nat) : (t.stage i).stage j = t.stage (i + j) := by
  induction j with
  | zero => rfl
  | succ j ih => rw [stage, ih]; rfl

/-- Where a node waits there is an open branch. -/
theorem openBranches_ne_zero_of_waits (h : Valid t) {id : Nat} (hid : id ∈ t.worklist) : t.openBranches ≠ 0 := by
  obtain ⟨n, hn, _, _, hopen⟩ := (h.waiting id).1 hid
  obtain ⟨leaf, up, hb, _, hleaf⟩ := h.agree.exists_open_leaf hn hopen
  rw [Ne, h.openBranches_eq_zero]
  intro hclosed
  rw [hclosed leaf up hb] at hleaf
  cases hleaf

/-- The limits leave room for one more development. -/
structure Within (limits : Limits) (t : Tableau) : Prop where
  nodes : t.nodeCount < limits.nodes
  instances : ∀ n ∈ t.tree.labels, n.kind.isReusable = true → n.instances.length < limits.instances

/-- A search goes through the stages that it has room for, as long as there is something to choose. -/
theorem searchFrom_add {limits : Limits} {k : Nat} (left steps : Nat) (h : Valid t)
    (hchoice : ∀ j < k, (t.stage j).choice ≠ .ok none) (hroom : ∀ j < k, (t.stage j).Within limits) :
    searchFrom limits (left + k) steps t = searchFrom limits left (steps + k) (t.stage k) := by
  induction k generalizing t steps with
  | zero => rfl
  | succ k ih =>
      have hnow : t.Within limits := hroom 0 (Nat.succ_pos k)
      obtain ⟨id, hid⟩ : ∃ id, t.choice = .ok (some id) := by
        rcases choice_cases h with ⟨hnone, _⟩ | ⟨id, _, hid, _⟩ | ⟨_, id, _, _, _, hid, _⟩
        · exact absurd hnone (hchoice 0 (Nat.succ_pos k))
        · exact ⟨id, hid⟩
        · exact ⟨id, hid⟩
      obtain ⟨hwaits, hadvance⟩ := next_of_choice_some h hid
      have hrest := ih (steps + 1) (valid_next h)
        (fun j hj => by rw [stage_next]; exact hchoice (j + 1) (Nat.succ_lt_succ hj))
        (fun j hj => by rw [stage_next]; exact hroom (j + 1) (Nat.succ_lt_succ hj))
      rw [stage_next, Nat.add_assoc, Nat.add_comm 1 k] at hrest
      rw [← Nat.add_assoc, searchFrom, if_neg (openBranches_ne_zero_of_waits h hwaits),
        if_neg (Nat.not_le.2 hnow.nodes), select_eq_choice hnow.instances, hid]
      simp only [hadvance]
      exact hrest

/-- A search with room for the stages before the first closed one finds it. -/
theorem searchFrom_stage {limits : Limits} {k : Nat} (left steps : Nat) (h : Valid t)
    (hopen : ∀ j < k, (t.stage j).openBranches ≠ 0) (hclosed : (t.stage k).openBranches = 0) (hleft : k ≤ left)
    (hroom : ∀ j < k, (t.stage j).Within limits) :
    searchFrom limits left steps t = (.ok (.closed (steps + k) (t.stage k).nodeCount), t.stage k) := by
  have hchoice : ∀ j < k, (t.stage j).choice ≠ .ok none := by
    intro j hj hnone
    have hsame : t.stage k = t.stage j := by
      rw [← Nat.add_sub_cancel' (Nat.le_of_lt hj), ← stage_add, stage_of_choice_none hnone]
    exact hopen j hj (hsame ▸ hclosed)
  obtain ⟨left, rfl⟩ := Nat.exists_eq_add_of_le' hleft
  rw [searchFrom_add left steps h hchoice hroom]
  cases left <;> rw [searchFrom, if_pos hclosed]

end Tableau

/-- What lasts through every step lasts from stage to stage. -/
theorem Lasting.stage {p : Tableau → Step → Prop} {P : List Signed → Tableau → Prop} (hP : Lasting p P)
    {premises : List Signed} {t : Tableau} (hvalid : Valid t) (h : P premises t) (k : Nat) :
    P premises (t.stage k) := by
  refine (Tableau.stage_induction (P := fun t => Valid t ∧ P premises t) ?_ ?_ ⟨hvalid, h⟩ k).2
  · exact fun t id h => ⟨Tableau.valid_develop h.1 id none, hP.develop h.1 h.2 hP.unprompted⟩
  · exact fun t id h => ⟨Tableau.valid_defer h.1 id, hP.defer h.2 id⟩

/-- No contradiction is overlooked from stage to stage. -/
theorem Checked.stage {t : Tableau} (hvalid : Valid t) (h : Checked t) (k : Nat) : Checked (t.stage k) := by
  refine (Tableau.stage_induction (P := fun t => Valid t ∧ Checked t) ?_ ?_ ⟨hvalid, h⟩ k).2
  · exact fun t id h => ⟨Tableau.valid_develop h.1 id none, h.2.develop h.1 id none⟩
  · exact fun t id h => ⟨Tableau.valid_defer h.1 id, h.2.defer id⟩

end Tableaux
