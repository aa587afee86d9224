import Mathlib
import Tableaux.Proofs.Verdicts

/-!
Turns of reusable nodes in a search. A development sends a reusable node to the back of the worklist, and nothing
that waits falls behind a node that waits as well, so a node that has had its turn stands behind all others that may
and can have another instance; and of these the first is selected. So no reusable node has two turns while another one
waits for its own.
-/

namespace Tableaux

namespace Tableau

variable {t u : Tableau} {limits : Limits} {ids : List Nat}

/-- The tableau after the given nodes have been developed one after the other, as a search develops them. -/
def after (t : Tableau) (ids : List Nat) : Tableau :=
  ids.foldl (fun t id => (t.advance id).2) t

theorem after_take_succ {k id : Nat} (hk : ids[k]? = some id) :
    t.after (ids.take (k + 1)) = ((t.after (ids.take k)).advance id).2 := by
  rw [List.take_add_one, hk, after, List.foldl_append]
  rfl

/-- What developments and deferrals keep is kept by all of them. -/
theorem after_induction {P : Tableau → Prop} (hdevelop : ∀ t id, P t → P (t.develop id none).2)
    (hdefer : ∀ t id, P t → P (t.defer id).2) (h : P t) (ids : List Nat) : P (t.after ids) := by
  induction ids generalizing t with
  | nil => exact h
  | cons id ids ih => exact ih (advance_induction hdevelop hdefer h id)

theorem valid_after (h : Valid t) (ids : List Nat) : Valid (t.after ids) :=
  after_induction (P := Valid) (fun _ id h => valid_develop h id none) (fun _ id h => valid_defer h id) h ids

/-- What is selected waits, and it is developed. -/
theorem advanced_of_select (h : Valid t) {id : Nat} (hselect : t.select limits = .ok (some id)) :
    ∃ n e, t.node id = .ok n ∧ id = n.id ∧ (t.advance id).1 = .ok true ∧ Advanced n e t (t.advance id).2 := by
  obtain ⟨i, hwaits, hi⟩ : ∃ i ∈ t.worklist, t.select limits = .ok (some i) :=
    (select_cases h limits).resolve_left fun hnone => by cases hselect.symm.trans hnone
  obtain rfl : id = i := Option.some.inj (Except.ok.inj (hselect.symm.trans hi))
  obtain ⟨n, hn, rfl, _⟩ := (h.waiting id).1 hwaits
  obtain ⟨e, heq, hadvanced⟩ := advance_waiting h hn hwaits
  exact ⟨n, e, node_of_mem h.numbered hn, rfl, congrArg Prod.fst heq, hadvanced⟩

/-- In every round of a search a branch is open, there is room for more nodes, and the node that is developed is the
one that is selected; and the search ends with the tableau after its rounds. -/
theorem Rounds.selects (hvalid : Valid t) (h : Rounds limits t ids u) : u = t.after ids ∧
    ∀ k id, ids[k]? = some id → (t.after (ids.take k)).select limits = .ok (some id) := by
  induction h with
  | done t => exact ⟨rfl, fun k id hk => by cases hk⟩
  | @round t u id n ids hopen hnodes hselect hnode hdevelop hrest ih =>
      obtain ⟨_, _, _, _, hadvance, _⟩ := advanced_of_select hvalid hselect
      have hvalid' := valid_after hvalid [id]
      rw [← (advance_of_ok hnode hadvance).2] at ih
      obtain ⟨hlast, hselects⟩ := ih hvalid'
      refine ⟨hlast, fun k i hk => ?_⟩
      cases k with
      | zero =>
          cases hk
          exact hselect
      | succ k => exact hselects k i hk

/-- From one round to a later one. -/
theorem Rounds.later (hvalid : Valid t) (h : Rounds limits t ids u) {i j : Nat} (hij : i ≤ j) :
    Later (t.after (ids.take i)) (t.after (ids.take j)) := by
  induction hij with
  | refl => exact Later.refl _
  | @step j _ ih =>
      cases hj : ids[j]? with
      | none =>
          rw [List.getElem?_eq_none_iff] at hj
          have htake : ids.take (j + 1) = ids.take j := by
            rw [List.take_of_length_le (Nat.le_succ_of_le hj), List.take_of_length_le hj]
          rwa [Nat.succ_eq_add_one, htake]
      | some id =>
          have hselect := (h.selects hvalid).2 j id hj
          obtain ⟨_, _, _, _, _, hadvanced⟩ := advanced_of_select (valid_after hvalid _) hselect
          rw [Nat.succ_eq_add_one, after_take_succ hj]
          exact ih.trans (.of_advanced hadvanced)

/-- A search is a check of the whole tree and then rounds, which it counts. -/
theorem exists_rounds (h : Valid t) (limits : Limits) : ∃ v ids, (t.search limits).1 = .ok v ∧ ids.length = v.steps ∧
    Rounds limits (t.checkClosed t.tree.root.id).2 ids (t.search limits).2 := by
  obtain ⟨v, ids, hv, hk, _, hrounds, _⟩ :=
    exists_outcome (valid_checkClosed h t.tree.root.id) (Nat.zero_add limits.steps)
  rw [search_eq h]
  exact ⟨v, ids, hv, by rw [hk, Nat.zero_add], hrounds⟩

/-- A reusable node that is selected may and can have another instance, and those that wait before it may not or
cannot. -/
theorem select_reusable (h : Valid t) {id : Nat} {n : Node} (hselect : t.select limits = .ok (some id))
    (hnode : t.node id = .ok n) (hkind : n.kind.isReusable = true) :
    ∃ before after, t.worklist = before ++ id :: after ∧ t.isInstantiable limits n = true ∧
      ∀ i ∈ before, ∀ m, t.node i = .ok m → t.isInstantiable limits m = false := by
  have hlive : ∀ i ∈ t.worklist, i ∈ t.worklist := fun _ hi => hi
  rcases firstWhere_cases h (fun n => !n.kind.isReusable) hlive with
    ⟨hfirst, _⟩ | ⟨_, i, _, m, _, hfirst, hm, honce, _⟩
  · rw [select, hfirst] at hselect
    rcases firstWhere_cases h (t.isInstantiable limits) hlive with
      ⟨hnone, _⟩ | ⟨before, i, after, m, hlist, hsome, hm, hroom, hbefore⟩
    · cases hselect.symm.trans hnone
    · obtain rfl : id = i := Option.some.inj (Except.ok.inj (hselect.symm.trans hsome))
      obtain rfl := Except.ok.inj (hnode.symm.trans hm)
      exact ⟨before, after, hlist, hroom, hbefore⟩
  · rw [select, hfirst] at hselect
    obtain rfl : i = id := Option.some.inj (Except.ok.inj hselect)
    obtain rfl := Except.ok.inj (hnode.symm.trans hm)
    simp [hkind] at honce

end Tableau

/-- A pair whose second is not in the second list is in the first. -/
theorem pair_sublist_of_append {α : Type} {l l' : List α} {a b : α} (h : [a, b].Sublist (l ++ l')) (hb : b ∉ l') :
    [a, b].Sublist l := by
  obtain ⟨front, back, heq, hfront, hback⟩ := List.sublist_append_iff.1 h
  rcases back.eq_nil_or_concat with rfl | ⟨back, c, rfl⟩
  · rwa [heq, List.append_nil]
  · rw [List.concat_eq_append, ← List.append_assoc, ← List.singleton_append, ← List.singleton_append] at heq
    obtain ⟨_, hc⟩ := List.append_inj' heq rfl
    cases hc
    rw [List.concat_eq_append] at hback
    exact absurd (hback.mem List.mem_concat_self) hb

namespace Advanced

variable {n : Node} {e : Expansion} {t t' : Tableau} {g i : Nat}

/-- What waits behind another node after a development did so before, unless it is new. -/
theorem exists_sublist_of_behind (h : Advanced n e t t') (hsub : [g, i].Sublist t'.worklist) (hne : i ≠ n.id) :
    ∃ new, (∀ id ∈ new, t.slots ≤ id) ∧ [g, i].Sublist (t.worklist.erase n.id ++ new) := by
  obtain ⟨front, back, new, hlist, hfront, hslots, hback⟩ := h.worklist
  rw [hlist] at hsub
  exact ⟨new, hslots, (pair_sublist_of_append hsub fun hi => hne (hback i hi).1).trans hfront⟩

/-- A node that waited already and has not been developed does not fall behind another one. -/
theorem behind_of_behind (h : Advanced n e t t') (hsub : [g, i].Sublist t'.worklist) (hne : i ≠ n.id)
    (hold : i < t.slots) : [g, i].Sublist t.worklist := by
  obtain ⟨new, hslots, hsub⟩ := h.exists_sublist_of_behind hsub hne
  refine (pair_sublist_of_append hsub fun hi => ?_).trans List.erase_sublist
  exact absurd (hslots i hi) (Nat.not_le.2 hold)

/-- Nothing waits behind the developed node, not even what is new. -/
theorem not_behind_developed (hvalid : Valid t) (h : Advanced n e t t') (hne : i ≠ n.id) :
    ¬ [n.id, i].Sublist t'.worklist := by
  intro hsub
  obtain ⟨new, hslots, hsub⟩ := h.exists_sublist_of_behind hsub hne
  rcases List.mem_append.1 (hsub.mem List.mem_cons_self) with hold | hnew
  · exact hvalid.nodup.not_mem_erase hold
  · exact absurd (hslots n.id hnew) (Nat.not_le.2 (hvalid.id_lt n h.mem))

end Advanced

namespace Tableau

variable {t u : Tableau} {limits : Limits} {ids : List Nat}

/-- The node waits, is reusable, lacks an instance and has room for one. -/
def Due (limits : Limits) (t : Tableau) (id : Nat) : Prop :=
  id ∈ t.worklist ∧ ∃ n, t.node id = .ok n ∧ n.kind.isReusable = true ∧ t.saturates n = false ∧
    n.instances.length < limits.instances

instance (limits : Limits) (t : Tableau) (id : Nat) : Decidable (t.Due limits id) :=
  match hnode : t.node id with
  | .error _ => isFalse fun hdue => by
      obtain ⟨_, n, hn, _⟩ := hdue
      cases hnode.symm.trans hn
  | .ok n => decidable_of_iff
      (id ∈ t.worklist ∧ n.kind.isReusable = true ∧ t.saturates n = false ∧ n.instances.length < limits.instances) <| by
      constructor
      · exact fun hdue => ⟨hdue.1, n, hnode, hdue.2⟩
      · rintro ⟨hwaits, m, hm, hdue⟩
        obtain rfl := Except.ok.inj (hnode.symm.trans hm)
        exact ⟨hwaits, hdue⟩

/-- If a reusable node `g` is developed in the rounds `i` and `j`, and another node `h` is due from the end of round
`i`, which is where round `i + 1` selects, up to the selection of round `j`, then `h` is developed in between. -/
def Fair (limits : Limits) (t : Tableau) (ids : List Nat) : Prop :=
  ∀ i j g h n, i < j → ids[i]? = some g → ids[j]? = some g → (t.after (ids.take i)).node g = .ok n →
    n.kind.isReusable = true → h ≠ g → (∀ k, i < k → k ≤ j → (t.after (ids.take k)).Due limits h) →
    ∃ k, i < k ∧ k < j ∧ ids[k]? = some h

/-- The first node that is due has its turn. -/
theorem behind_of_due (hvalid : Valid t) {g h : Nat} {n : Node} (hselect : t.select limits = .ok (some g))
    (hnode : t.node g = .ok n) (hkind : n.kind.isReusable = true) (hne : h ≠ g) (hdue : t.Due limits h) :
    [g, h].Sublist t.worklist := by
  obtain ⟨before, after, hlist, _, hbefore⟩ := select_reusable hvalid hselect hnode hkind
  obtain ⟨hwaits, m, hm, _, hlacks, hroom⟩ := hdue
  rw [hlist] at hwaits ⊢
  rcases List.mem_append.1 hwaits with hmem | hmem
  · have hfull := hbefore h hmem m hm
    simp [isInstantiable, hlacks, hroom] at hfull
  · have hafter := (List.mem_cons.1 hmem).resolve_left hne
    exact ((List.singleton_sublist.2 hafter).cons_cons g).trans (List.sublist_append_right _ _)

theorem Rounds.fair (hvalid : Valid t) (hrounds : Rounds limits t ids u) : Fair limits t ids := by
  intro i j g h n hij hi hj hn hkind hne hdue
  by_contra hnever
  obtain ⟨_, hselects⟩ := hrounds.selects hvalid
  -- from the end of round `i` on the node `h` does not wait behind `g`
  have hahead : ∀ k, i < k → k ≤ j → ¬ [g, h].Sublist (t.after (ids.take k)).worklist := by
    intro k hik
    induction hik with
    | refl =>
        intro _
        obtain ⟨m, _, _, rfl, _, hadvanced⟩ := advanced_of_select (valid_after hvalid _) (hselects i _ hi)
        rw [Nat.succ_eq_add_one, after_take_succ hi]
        exact hadvanced.not_behind_developed (valid_after hvalid _) hne
    | @step k hik ih =>
        intro hkj hsub
        obtain ⟨id, hid⟩ : ∃ id, ids[k]? = some id := by
          obtain ⟨hlt, _⟩ := List.getElem?_eq_some_iff.1 hj
          exact ⟨_, List.getElem?_eq_getElem (by omega)⟩
        obtain ⟨m, _, _, rfl, _, hadvanced⟩ := advanced_of_select (valid_after hvalid _) (hselects k _ hid)
        have hnot : h ≠ m.id := fun heq => hnever ⟨k, hik, hkj, heq ▸ hid⟩
        obtain ⟨hwaits, _⟩ := hdue k hik (Nat.le_of_succ_le hkj)
        obtain ⟨w, hw, rfl, _⟩ := ((valid_after hvalid _).waiting h).1 hwaits
        rw [Nat.succ_eq_add_one, after_take_succ hid] at hsub
        exact ih (Nat.le_of_succ_le hkj) (hadvanced.behind_of_behind hsub hnot ((valid_after hvalid _).id_lt w hw))
  -- but `g` is selected in round `j`, although `h` is due
  obtain ⟨hmem, rfl⟩ := node_eq_ok hn
  obtain ⟨n', hn', hid, hsigned⟩ := (hrounds.later hvalid hij.le).node n hmem
  have hvalid' := valid_after hvalid (ids.take j)
  have hkind' : n'.kind.isReusable = true := by rwa [Node.kind, hsigned]
  exact hahead j hij le_rfl (behind_of_due hvalid' (hselects j _ hj) (hid ▸ node_of_mem hvalid'.numbered hn') hkind'
    hne (hdue j hij le_rfl))

/-- In every search, from whatever tableau a session has reached and with whatever limits, no reusable node is
developed twice while another one is due. -/
theorem run_search_fair (o : Options) (s : Signed) (steps : List Step) (limits : Limits) :
    ∃ v ids, (((start o s).run steps).search limits).1 = .ok v ∧ ids.length = v.steps ∧
      Rounds limits (((start o s).run steps).checkClosed ((start o s).run steps).tree.root.id).2 ids
        (((start o s).run steps).search limits).2 ∧
      Fair limits (((start o s).run steps).checkClosed ((start o s).run steps).tree.root.id).2 ids := by
  have hvalid := valid_run o s steps
  obtain ⟨v, ids, hv, hlength, hrounds⟩ := exists_rounds hvalid limits
  exact ⟨v, ids, hv, hlength, hrounds, hrounds.fair (valid_checkClosed hvalid _)⟩

/-- Everything is related to everything. -/
def allRelated : Signed :=
  ⟨.quantified .universal ⟨"x"⟩ (.quantified .universal ⟨"y"⟩ (.atom (.of "R" [⟨"x"⟩, ⟨"y"⟩]))), true⟩

/-- Everything is related to everything, but `a` is not related to `b`. -/
def related : Tableau :=
  (start {} allRelated).run [.assume ⟨.atom (.of "R" [⟨"a"⟩, ⟨"b"⟩]), false⟩]

/-- The first round of a search develops node 0 for `a` and makes the reusable node 2, and the third one comes back to
node 0 for `b`. From its creation on node 2 is due, and it has had its turn by then. -/
theorem run_search_fair_related :
    ∃ ids : List Nat,
      Rounds ⟨3, 9, 5⟩ (related.checkClosed related.tree.root.id).2 ids (related.search ⟨3, 9, 5⟩).2 ∧
      ids[0]? = some 0 ∧ ids[2]? = some 0 ∧
      (∀ k, 0 < k → k ≤ 2 →
        ((related.checkClosed related.tree.root.id).2.after (ids.take k)).Due ⟨3, 9, 5⟩ 2) ∧
      ∃ k, 0 < k ∧ k < 2 ∧ ids[k]? = some 2 := by
  obtain ⟨v, ids, hv, hlength, hrounds, hfair⟩ := run_search_fair {} allRelated
    [.assume ⟨.atom (.of "R" [⟨"a"⟩, ⟨"b"⟩]), false⟩] ⟨3, 9, 5⟩
  change Rounds ⟨3, 9, 5⟩ (related.checkClosed related.tree.root.id).2 ids (related.search ⟨3, 9, 5⟩).2 at hrounds
  change Fair ⟨3, 9, 5⟩ (related.checkClosed related.tree.root.id).2 ids at hfair
  have hverdict : (related.search ⟨3, 9, 5⟩).1 = .ok (.unknown 3 (.steps 3)) := by decide +kernel
  obtain rfl : v = .unknown 3 (.steps 3) := Except.ok.inj (hv.symm.trans hverdict)
  obtain ⟨i, j, k, rfl⟩ := List.length_eq_three.1 hlength
  obtain ⟨_, hselects⟩ := hrounds.selects (valid_checkClosed (valid_run _ _ _) _)
  have hfirst : (related.checkClosed related.tree.root.id).2.select ⟨3, 9, 5⟩ = .ok (some 0) := by decide +kernel
  obtain rfl : i = 0 := Option.some.inj (Except.ok.inj ((hselects 0 i rfl).symm.trans hfirst))
  have hsecond : ((related.checkClosed related.tree.root.id).2.after [0]).select ⟨3, 9, 5⟩ = .ok (some 2) := by
    decide +kernel
  obtain rfl : j = 2 := Option.some.inj (Except.ok.inj ((hselects 1 j rfl).symm.trans hsecond))
  have hthird : ((related.checkClosed related.tree.root.id).2.after [0, 2]).select ⟨3, 9, 5⟩ = .ok (some 0) := by
    decide +kernel
  obtain rfl : k = 0 := Option.some.inj (Except.ok.inj ((hselects 2 k rfl).symm.trans hthird))
  have hdue : ∀ k, 0 < k → k ≤ 2 →
      ((related.checkClosed related.tree.root.id).2.after ([0, 2, 0].take k)).Due ⟨3, 9, 5⟩ 2 := by
    intro k hpos hle
    interval_cases k
    · decide +kernel
    · decide +kernel
  have hnode : (related.checkClosed related.tree.root.id).2.node 0 =
      .ok { Node.ofSigned 0 allRelated none with compared := true } := by decide +kernel
  exact ⟨[0, 2, 0], hrounds, rfl, rfl, hdue, hfair 0 2 0 2 _ (by omega) rfl rfl hnode rfl (by omega) hdue⟩

end Tableau

end Tableaux
