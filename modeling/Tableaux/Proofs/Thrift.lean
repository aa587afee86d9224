import Mathlib
import Tableaux.Proofs.Allocation
import Tableaux.Proofs.Turns

/-!
What a search spends on instances. A reusable node is selected only while it lacks an instance and has room for one,
and then it gets the oldest term it has not had. A term is made up for it only if there are no terms at all; so this
happens once in a search at most, and every other new term is the witness of a node that is developed once.
-/

namespace Tableaux

/-- In round `k` of a search the term `x` is made up for the quantified node `n`, and becomes a term of the tableau. -/
structure MadeUp (t : Tableau) (ids : List Nat) (k : Nat) (n : Node) (x : Term) : Prop where
  developed : ids[k]? = some n.id
  node : (t.after (ids.take k)).node n.id = .ok n
  quantified : n.kind.isQuantified = true
  fresh : x = (t.after (ids.take k)).freshTerm
  entered : (t.after (ids.take (k + 1))).terms = (t.after (ids.take k)).terms ++ [x]
  instantiated : ∃ m, (t.after (ids.take (k + 1))).node n.id = .ok m ∧ m.instances = n.instances ++ [x]

/-- How a search that starts from `t` and develops the given nodes spends instances and terms. -/
structure Thrifty (limits : Limits) (t : Tableau) (ids : List Nat) : Prop where
  /-- Every development of a reusable node is an instance for one term that it has not had, and there was room. The term
  is one of the tableau, unless this has none. -/
  spent : ∀ k id n, ids[k]? = some id → (t.after (ids.take k)).node id = .ok n → n.kind.isReusable = true →
    ∃ x e leaves m, Unfolds (t.after (ids.take k)) ((t.after (ids.take k)).develop id none).2 n (some x) e leaves ∧
      x ∉ n.instances ∧ (x ∉ (t.after (ids.take k)).terms → (t.after (ids.take k)).terms = []) ∧
      (t.after (ids.take (k + 1))).node id = .ok m ∧ m.instances = n.instances ++ [x] ∧
      m.instances.length ≤ limits.instances
  /-- Other nodes get no instance. -/
  kept : ∀ k id i n, ids[k]? = some id → i ≠ id → (t.after (ids.take k)).node i = .ok n →
    ∃ m, (t.after (ids.take (k + 1))).node i = .ok m ∧ m.instances = n.instances
  /-- There is at most one round in which a term is made up for a reusable node. -/
  once : ∀ j k n m x y, MadeUp t ids j n x → n.kind.isReusable = true → MadeUp t ids k m y →
    m.kind.isReusable = true → j = k
  /-- Every new term is made up in one of the rounds. -/
  source : ∀ x ∈ (t.after ids).terms, x ∉ t.terms → ∃ k n, MadeUp t ids k n x

namespace Tableau

variable {t u : Tableau} {limits : Limits} {ids : List Nat}

/-- Going to the back of the worklist changes no term and no node. -/
theorem frame_defer (t : Tableau) (id : Nat) :
    (t.defer id).2.terms = t.terms ∧ ∀ i, (t.defer id).2.node i = t.node i := by
  rcases defer_cases t id with heq | heq
  · rw [heq]
    exact ⟨rfl, fun _ => rfl⟩
  · rw [heq, sendToBack_eq]
    exact ⟨rfl, fun _ => rfl⟩

/-- What a search does to terms and nodes in a round is what the development of the selected node does. -/
theorem frame_advance {id : Nat} {n : Node} (hn : t.node id = .ok n) (h : (t.advance id).1 = .ok true) :
    (t.advance id).2.terms = (t.develop id none).2.terms ∧
      ∀ i, (t.advance id).2.node i = (t.develop id none).2.node i := by
  obtain ⟨_, heq⟩ := advance_of_ok hn h
  rw [heq]
  split
  · exact frame_defer _ id
  · exact ⟨rfl, fun _ => rfl⟩

/-- A reusable node that may and can have another instance has room for it, and gets a term of the tableau unless
there is none. -/
theorem termFor_of_isInstantiable {n : Node} (h : t.isInstantiable limits n = true) (hkind : n.kind.isReusable = true) :
    n.instances.length < limits.instances ∧ (t.termFor n none ∈ t.terms ∨ t.terms = []) := by
  rw [isInstantiable, Bool.and_eq_true, decide_eq_true_iff, Bool.not_eq_true', saturates, Bool.and_eq_false_iff] at h
  obtain ⟨hroom, hlacks⟩ := h
  refine ⟨hroom, ?_⟩
  have hunused : (∃ y ∈ t.terms, y ∉ n.instances) ∨ t.terms = [] := by
    rcases hlacks with hempty | hlacks
    · rw [Bool.not_eq_false', List.isEmpty_iff] at hempty
      cases hterms : t.terms with
      | nil => exact Or.inr rfl
      | cons y terms => exact Or.inl ⟨y, List.mem_cons_self, by rw [hempty]; exact List.not_mem_nil⟩
    · obtain ⟨y, hy, hnew⟩ := List.all_eq_false.1 hlacks
      exact Or.inl ⟨y, hy, by simpa using hnew⟩
  refine hunused.imp_left fun hunused => ?_
  obtain ⟨_, older, newer, hterms, _⟩ := termFor_of_unused hkind hunused
  rw [hterms]
  exact List.mem_append_right _ List.mem_cons_self

/-- A node is instantiated with a term of the tableau, which a reusable node has not had, or with one that is made
up. -/
theorem termFor_cases (t : Tableau) (n : Node) :
    (n.kind.isReusable = true ∧ t.termFor n none ∈ t.terms) ∨
      (t.termFor n none = t.freshTerm ∧ t.termFor n none ∉ t.terms) := by
  by_cases hcase : n.kind.isReusable = true ∧ ∃ y ∈ t.terms, y ∉ n.instances
  · obtain ⟨_, older, newer, hterms, _⟩ := termFor_of_unused hcase.1 hcase.2
    refine Or.inl ⟨hcase.1, ?_⟩
    rw [hterms]
    exact List.mem_append_right _ List.mem_cons_self
  · rw [termFor_of_all_used hcase]
    exact Or.inr ⟨rfl, freshTerm_not_mem_terms t⟩

section Rounds

variable (hvalid : Valid t) (hrecorded : Recorded t) (hrounds : Rounds limits t ids u)
include hvalid hrecorded hrounds

/-- The effect of a round: the selected node is developed. -/
theorem Rounds.unfolds {k id : Nat} (hk : ids[k]? = some id) :
    ∃ n e leaves, (t.after (ids.take k)).node id = .ok n ∧ Valid (t.after (ids.take k)) ∧
      (t.after (ids.take k)).select limits = .ok (some id) ∧
      Unfolds (t.after (ids.take k)) ((t.after (ids.take k)).develop id none).2 n
        ((t.after (ids.take k)).given n none) e leaves ∧
      (t.after (ids.take (k + 1))).terms = ((t.after (ids.take k)).develop id none).2.terms ∧
      ∀ i, (t.after (ids.take (k + 1))).node i = ((t.after (ids.take k)).develop id none).2.node i := by
  obtain ⟨hvalid', hrecorded'⟩ := after_induction (P := fun t => Valid t ∧ Recorded t)
    (fun t id h => ⟨valid_develop h.1 id none, recorded_develop h.1 h.2 id none⟩)
    (fun t id h => ⟨valid_defer h.1 id, recorded_defer h.2 id⟩) ⟨hvalid, hrecorded⟩ (ids.take k)
  have hselect := (hrounds.selects hvalid).2 k id hk
  obtain ⟨n, _, hnode, _, hadvance, _⟩ := advanced_of_select hvalid' hselect
  obtain ⟨m, e, leaves, hm, hunfolds⟩ := unfolds_develop hvalid' hrecorded' (advance_of_ok hnode hadvance).1
  obtain ⟨hterms, hnodes⟩ := frame_advance hnode hadvance
  rw [after_take_succ hk]
  exact ⟨m, e, leaves, hm, hvalid', hselect, hunfolds, hterms, hnodes⟩

/-- The instance that a quantified node gets in its round. -/
theorem Rounds.instantiates {k id : Nat} {n : Node} (hk : ids[k]? = some id)
    (hn : (t.after (ids.take k)).node id = .ok n) (hquantified : n.kind.isQuantified = true) :
    (t.after (ids.take k)).termFor n none ∉ n.instances ∧
    (t.after (ids.take (k + 1))).terms =
      Term.enter (t.after (ids.take k)).terms ((t.after (ids.take k)).termFor n none) ∧
    ∃ m, (t.after (ids.take (k + 1))).node id = .ok m ∧
      m.instances = n.instances ++ [(t.after (ids.take k)).termFor n none] := by
  obtain ⟨n', e, leaves, hn', hvalid', _, hunfolds, hterms, hnodes⟩ := hrounds.unfolds hvalid hrecorded hk
  obtain rfl := Except.ok.inj (hn.symm.trans hn')
  rw [given, if_pos hquantified] at hunfolds
  obtain ⟨hmem, rfl⟩ := node_eq_ok hn
  have hnew := termFor_not_mem_instances hvalid' hmem
  obtain ⟨m, hm, _⟩ := hunfolds.planted.node n.id n hn
  refine ⟨hnew, hterms.trans hunfolds.terms, m, (hnodes n.id).trans hm, ?_⟩
  rw [(hunfolds.developed m hm).2]
  exact Term.enter_of_not_mem hnew

/-- A term that is new after a round is made up in it. -/
theorem Rounds.exists_madeUp {k : Nat} {x : Term} (hx : x ∈ (t.after (ids.take (k + 1))).terms)
    (hnew : x ∉ (t.after (ids.take k)).terms) : ∃ n, MadeUp t ids k n x := by
  cases hk : ids[k]? with
  | none =>
      rw [List.getElem?_eq_none_iff] at hk
      rw [List.take_of_length_le (Nat.le_succ_of_le hk)] at hx
      rw [List.take_of_length_le hk] at hnew
      exact absurd hx hnew
  | some id =>
      obtain ⟨n, _, _, hn, _, _, hunfolds, hterms, _⟩ := hrounds.unfolds hvalid hrecorded hk
      obtain ⟨_, rfl⟩ := node_eq_ok hn
      by_cases hquantified : n.kind.isQuantified = true
      · obtain ⟨_, henter, hinstance⟩ := hrounds.instantiates hvalid hrecorded hk hn hquantified
        rw [henter] at hx
        obtain rfl := (Term.mem_enter.1 hx).resolve_left hnew
        rcases termFor_cases (t.after (ids.take k)) n with ⟨_, hold⟩ | ⟨hfresh, _⟩
        · exact absurd hold hnew
        · exact ⟨n, hk, hn, hquantified, hfresh, henter.trans (Term.enter_of_not_mem hnew), hinstance⟩
      · rw [hterms, hunfolds.terms, given, if_neg hquantified] at hx
        exact absurd hx hnew

/-- A reusable node for which a term is made up is the first to need one. -/
theorem Rounds.terms_eq_nil {k : Nat} {n : Node} {x : Term} (h : MadeUp t ids k n x)
    (hkind : n.kind.isReusable = true) : (t.after (ids.take k)).terms = [] := by
  obtain ⟨_, _, _, _, hvalid', hselect, _⟩ := hrounds.unfolds hvalid hrecorded h.developed
  obtain ⟨_, _, _, hinstantiable, _⟩ := select_reusable hvalid' hselect h.node hkind
  refine (termFor_of_isInstantiable hinstantiable hkind).2.resolve_left fun hold => ?_
  -- otherwise a term of the tableau is taken, and there is no new one
  obtain ⟨_, henter, _⟩ := hrounds.instantiates hvalid hrecorded h.developed h.node h.quantified
  rw [h.entered, Term.enter_of_mem hold] at henter
  exact List.cons_ne_nil _ _ (List.append_right_eq_self.1 henter)

/-- From the first term on there are terms. -/
theorem Rounds.not_lt_of_madeUp {j k : Nat} {n m : Node} {x y : Term} (hj : MadeUp t ids j n x)
    (hk : MadeUp t ids k m y) (hkind : m.kind.isReusable = true) : ¬ j < k := by
  intro hlt
  have hprefix := (hrounds.later hvalid (Nat.succ_le_of_lt hlt)).terms
  rw [hrounds.terms_eq_nil hvalid hrecorded hk hkind, List.prefix_nil, Nat.succ_eq_add_one, hj.entered] at hprefix
  exact List.append_ne_nil_of_right_ne_nil _ (List.cons_ne_nil _ _) hprefix

theorem Rounds.exists_madeUp_of_mem {x : Term} (hnew : x ∉ t.terms) {k : Nat}
    (hx : x ∈ (t.after (ids.take k)).terms) : ∃ k n, MadeUp t ids k n x := by
  induction k with
  | zero => exact absurd hx hnew
  | succ k ih =>
      by_cases hold : x ∈ (t.after (ids.take k)).terms
      · exact ih hold
      · exact ⟨k, hrounds.exists_madeUp hvalid hrecorded hx hold⟩

theorem Rounds.thrifty : Thrifty limits t ids where
  spent k id n hk hn hkind := by
    obtain ⟨n', e, leaves, hn', hvalid', hselect, hunfolds, _, _⟩ := hrounds.unfolds hvalid hrecorded hk
    obtain rfl := Except.ok.inj (hn.symm.trans hn')
    have hquantified := Kind.isQuantified_of_reusable hkind
    obtain ⟨hnew, _, m, hm, hinstances⟩ := hrounds.instantiates hvalid hrecorded hk hn hquantified
    obtain ⟨_, _, _, hinstantiable, _⟩ := select_reusable hvalid' hselect hn hkind
    rw [given, if_pos hquantified] at hunfolds
    obtain ⟨hroom, hterm⟩ := termFor_of_isInstantiable hinstantiable hkind
    refine ⟨_, e, leaves, m, hunfolds, hnew, hterm.resolve_left, hm, hinstances, ?_⟩
    rw [hinstances, List.length_append]
    exact hroom
  kept k id i n hk hne hn := by
    obtain ⟨n', _, _, hn', _, _, hunfolds, _, hnodes⟩ := hrounds.unfolds hvalid hrecorded hk
    obtain ⟨_, rfl⟩ := node_eq_ok hn'
    obtain ⟨m, hm, hmarked⟩ := hunfolds.others i n hne hn
    exact ⟨m, (hnodes i).trans hm, hmarked.instances⟩
  once j k n m x y hj hn hk hm := by
    have hle := hrounds.not_lt_of_madeUp hvalid hrecorded hj hk hm
    have hge := hrounds.not_lt_of_madeUp hvalid hrecorded hk hj hn
    omega
  source x hx hnew := by
    rw [← List.take_length (l := ids)] at hx
    exact hrounds.exists_madeUp_of_mem hvalid hrecorded hnew hx

end Rounds

/-- In every search, from whatever tableau a session has reached and with whatever limits, no instance is made twice or
beyond the limit, and no term is made up for a reusable node as long as there is one. -/
theorem run_search_thrifty (o : Options) (s : Signed) (steps : List Step) (limits : Limits) :
    ∃ v ids, (((start o s).run steps).search limits).1 = .ok v ∧ ids.length = v.steps ∧
      Rounds limits (((start o s).run steps).checkClosed ((start o s).run steps).tree.root.id).2 ids
        (((start o s).run steps).search limits).2 ∧
      (((start o s).run steps).search limits).2 =
        (((start o s).run steps).checkClosed ((start o s).run steps).tree.root.id).2.after ids ∧
      Thrifty limits (((start o s).run steps).checkClosed ((start o s).run steps).tree.root.id).2 ids := by
  have hvalid := valid_run o s steps
  have hvalid' := valid_checkClosed hvalid ((start o s).run steps).tree.root.id
  have hrecorded := recorded_checkClosed hvalid.toCoherent (recorded_run o s steps) ((start o s).run steps).tree.root.id
  obtain ⟨v, ids, hv, hlength, hrounds⟩ := exists_rounds hvalid limits
  exact ⟨v, ids, hv, hlength, hrounds, (hrounds.selects hvalid').1, hrounds.thrifty hvalid' hrecorded⟩

end Tableau

end Tableaux
