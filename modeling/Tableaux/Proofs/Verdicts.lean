import Mathlib
import Tableaux.Proofs.Refusals
import Tableaux.Proofs.Resumption

/-!
What the verdict of a search says of the tableau that it ends with. A search goes round, with one development each
time, until every branch is closed, a limit is reached, or nothing can be selected. Every node that is selected is
developed, so a search never gets stuck; and what it finds when it stops decides the verdict, from whatever tableau it
was started.
-/

namespace Tableaux

namespace Tableau

/-- The rounds of a search. In each of them a branch is open, there is room for more nodes, and the selected node is
developed, which goes to the back of the worklist if it is reusable. -/
inductive Rounds (limits : Limits) : Tableau → List Nat → Tableau → Prop
  | done (t : Tableau) : Rounds limits t [] t
  | round {t u : Tableau} {id : Nat} {n : Node} {ids : List Nat} : t.openBranches ≠ 0 → t.nodeCount < limits.nodes →
      t.select limits = .ok (some id) → t.node id = .ok n → (t.develop id none).1 = .ok true →
      Rounds limits (if n.kind.isReusable then ((t.develop id none).2.defer id).2 else (t.develop id none).2) ids u →
      Rounds limits t (id :: ids) u

/-- What is found when a search stops, with the verdict that it comes to. -/
inductive Outcome (limits : Limits) (t : Tableau) : Verdict → Prop
  | closed (k : Nat) : t.openBranches = 0 → Outcome limits t (.closed k t.nodeCount)
  | steps : t.openBranches ≠ 0 → Outcome limits t (.unknown limits.steps (.steps limits.steps))
  | nodes (k : Nat) : t.openBranches ≠ 0 → limits.nodes ≤ t.nodeCount →
      Outcome limits t (.unknown k (.nodes limits.nodes))
  | saturated (k : Nat) : t.openBranches ≠ 0 → k < limits.steps → t.nodeCount < limits.nodes → Saturated t →
      Outcome limits t (.saturated k t.openBranches)
  | instances (k : Nat) (before : List Nat) (id : Nat) (after : List Nat) (n : Node) : t.openBranches ≠ 0 →
      (∀ i ∈ t.worklist, ∃ m, t.node i = .ok m ∧ m.kind.isReusable = true) → t.worklist = before ++ id :: after →
      (∀ i ∈ before, t.isSaturated i = .ok true) → t.node id = .ok n → t.saturates n = false →
      limits.instances ≤ n.instances.length →
      Outcome limits t (.unknown k (.instances limits.instances id))

variable {t : Tableau} {limits : Limits}

/-- If nothing is selected, only reusable nodes wait, and none of them may and can have another instance. -/
theorem waiting_of_select_none (h : t.select limits = .ok none) :
    ∀ id ∈ t.worklist, ∃ n, t.node id = .ok n ∧ n.kind.isReusable = true ∧
      (limits.instances ≤ n.instances.length ∨ t.saturates n = true) := by
  have hreusable := firstWhere_of_select_none h
  rw [select, hreusable] at h
  intro id hid
  obtain ⟨n, hn, hkind⟩ := firstWhere_eq_none hreusable id hid
  obtain ⟨m, hm, hfull⟩ := firstWhere_eq_none h id hid
  obtain rfl := Except.ok.inj (hn.symm.trans hm)
  refine ⟨n, hn, by simpa using hkind, ?_⟩
  rw [isInstantiable, Bool.and_eq_false_iff, decide_eq_false_iff_not, Nat.not_lt, Bool.not_eq_false'] at hfull
  exact hfull

/-- With nothing selected, all is done or the first node that lacks an instance has no room for it. -/
theorem outcome_conclude {k : Nat} (h : Valid t) (hselect : t.select limits = .ok none) (hopen : t.openBranches ≠ 0)
    (hsteps : k < limits.steps) (hnodes : t.nodeCount < limits.nodes) :
    ∃ v, t.conclude limits k = .ok v ∧ v.steps = k ∧ Outcome limits t v := by
  have hwaiting := waiting_of_select_none hselect
  rcases firstWhere_cases h (fun n => !t.saturates n) fun _ hid => hid with
    ⟨hnone, hall⟩ | ⟨before, id, after, n, hlist, hsome, hn, hlacks, hbefore⟩
  · refine ⟨_, by rw [conclude, hnone], rfl, .saturated k hopen hsteps hnodes fun id hid => ?_⟩
    obtain ⟨n, hn, hkind, _⟩ := hwaiting id hid
    exact ⟨n, hn, hkind, by simpa using hall id hid n hn⟩
  · have hlacks : t.saturates n = false := by simpa using hlacks
    refine ⟨_, by rw [conclude, hsome], rfl, .instances k before id after n hopen ?_ hlist ?_ hn hlacks ?_⟩
    · exact fun i hi => (hwaiting i hi).imp fun m hm => ⟨hm.1, hm.2.1⟩
    · intro i hi
      obtain ⟨m, hm, _⟩ := hwaiting i (hlist ▸ List.mem_append_left _ hi)
      have hsaturates : t.saturates m = true := by simpa using hbefore i hi m hm
      rw [isSaturated, hm, ← hsaturates]
      rfl
    · obtain ⟨m, hm, _, hfull⟩ := hwaiting id (hlist ▸ List.mem_append_right _ List.mem_cons_self)
      obtain rfl := Except.ok.inj (hn.symm.trans hm)
      exact hfull.resolve_right (by simp [hlacks])

/-- What a selected node is put through is a development that succeeds. -/
theorem advance_of_ok {id : Nat} {n : Node} (hn : t.node id = .ok n) (h : (t.advance id).1 = .ok true) :
    (t.develop id none).1 = .ok true ∧ (t.advance id).2 =
      if n.kind.isReusable then ((t.develop id none).2.defer id).2 else (t.develop id none).2 := by
  rw [advance, hn] at h ⊢
  cases hdevelop : t.develop id none with
  | mk answer u =>
      rw [hdevelop] at h
      cases answer with
      | error e => cases h
      | ok done =>
          cases done with
          | false => cases h
          | true =>
              refine ⟨rfl, ?_⟩
              simp only
              split
              · cases hdefer : u.defer id with
                | mk answer w => cases answer <;> rfl
              · rfl

/-- A search comes to a verdict after rounds that it has counted, and what it finds then is as the verdict says. -/
theorem exists_outcome {left steps : Nat} (h : Valid t) (hsteps : steps + left = limits.steps) :
    ∃ v ids, (searchFrom limits left steps t).1 = .ok v ∧ v.steps = steps + ids.length ∧ v.steps ≤ limits.steps ∧
      Rounds limits t ids (searchFrom limits left steps t).2 ∧
      Outcome limits (searchFrom limits left steps t).2 v := by
  induction left generalizing t steps with
  | zero =>
      obtain rfl : steps = limits.steps := hsteps
      rw [searchFrom]
      split
      · rename_i hclosed
        exact ⟨_, [], rfl, rfl, le_rfl, .done t, .closed _ hclosed⟩
      · rename_i hopen
        exact ⟨_, [], rfl, rfl, le_rfl, .done t, .steps hopen⟩
  | succ left ih =>
      have hlt : steps < limits.steps := by omega
      rw [searchFrom]
      by_cases hclosed : t.openBranches = 0
      · rw [if_pos hclosed]
        exact ⟨_, [], rfl, rfl, hlt.le, .done t, .closed _ hclosed⟩
      · rw [if_neg hclosed]
        by_cases hnodes : limits.nodes ≤ t.nodeCount
        · rw [if_pos hnodes]
          exact ⟨_, [], rfl, rfl, hlt.le, .done t, .nodes _ hclosed hnodes⟩
        · have hnodes := Nat.not_le.1 hnodes
          rw [if_neg (Nat.not_le.2 hnodes)]
          rcases select_cases h limits with hnone | ⟨id, hwaits, hsome⟩
          · obtain ⟨v, hv, hk, houtcome⟩ := outcome_conclude h hnone hclosed hlt hnodes
            rw [hnone]
            exact ⟨v, [], hv, hk, hk ▸ hlt.le, .done t, houtcome⟩
          · obtain ⟨n, hn, rfl, _⟩ := (h.waiting id).1 hwaits
            have hnode := node_of_mem h.numbered hn
            obtain ⟨_, hadvance, _⟩ := advance_waiting h hn hwaits
            obtain ⟨hdevelop, hafter⟩ := advance_of_ok hnode (congrArg Prod.fst hadvance)
            have hvalid := valid_advance h n.id
            have hrest : steps + 1 + left = limits.steps := by omega
            obtain ⟨v, ids, hv, hk, hle, hrounds, houtcome⟩ := ih hvalid hrest
            rw [hsome]
            simp only
            rw [hadvance]
            refine ⟨v, n.id :: ids, hv, ?_, hle, ?_, houtcome⟩
            · rw [hk, List.length_cons]
              omega
            · exact .round hclosed hnodes hsome hnode hdevelop (hafter ▸ hrounds)

end Tableau

/-- The verdict `v` of a search from `t` says exactly what is the case in the tableau `t'` that the search ends with. -/
structure Classified (limits : Limits) (t t' : Tableau) (v : Verdict) : Prop where
  /-- The steps counted are the developments made after the first check, and each of these succeeded. -/
  rounds : ∃ ids, ids.length = v.steps ∧ Tableau.Rounds limits (t.checkClosed t.tree.root.id).2 ids t'
  steps_le : v.steps ≤ limits.steps
  closed : (∃ k nodes, v = .closed k nodes) ↔ t'.openBranches = 0
  nodes : ∀ k nodes, v = .closed k nodes → nodes = t'.nodeCount
  saturated : (∃ k branches, v = .saturated k branches) ↔
    0 < t'.openBranches ∧ v.steps < limits.steps ∧ t'.nodeCount < limits.nodes ∧ t'.Saturated
  branches : ∀ k branches, v = .saturated k branches → branches = t'.openBranches
  stepLimit : ∀ k l, v = .unknown k (.steps l) → l = limits.steps ∧ k = limits.steps
  nodeLimit : ∀ k l, v = .unknown k (.nodes l) → l = limits.nodes ∧ limits.nodes ≤ t'.nodeCount
  /-- The node named is the first waiting one that lacks an instance, and it has as many as it may have. -/
  instanceLimit : ∀ k l id, v = .unknown k (.instances l id) → l = limits.instances ∧
    (∀ i ∈ t'.worklist, ∃ m, t'.node i = .ok m ∧ m.kind.isReusable = true) ∧
    ∃ before after n, t'.worklist = before ++ id :: after ∧ (∀ i ∈ before, t'.isSaturated i = .ok true) ∧
      t'.isSaturated id = .ok false ∧ t'.node id = .ok n ∧ limits.instances ≤ n.instances.length
  stuck : ∀ k id, v ≠ .unknown k (.stuck id)

namespace Tableau

theorem Outcome.classified {t t' : Tableau} {limits : Limits} {v : Verdict} (h : Outcome limits t' v)
    (hrounds : ∃ ids, ids.length = v.steps ∧ Rounds limits (t.checkClosed t.tree.root.id).2 ids t')
    (hle : v.steps ≤ limits.steps) : Classified limits t t' v where
  rounds := hrounds
  steps_le := hle
  closed := by
    constructor
    · rintro ⟨k, nodes, rfl⟩
      cases h with
      | closed _ hclosed => exact hclosed
    · intro hclosed
      cases h with
      | closed k _ => exact ⟨k, _, rfl⟩
      | _ => contradiction
  nodes k nodes hv := by
    subst hv
    cases h
    rfl
  saturated := by
    constructor
    · rintro ⟨k, branches, rfl⟩
      cases h with
      | saturated _ hopen hsteps hnodes hsaturated =>
          exact ⟨Nat.pos_of_ne_zero hopen, hsteps, hnodes, hsaturated⟩
    · rintro ⟨hpos, hsteps, hnodes, hsaturated⟩
      cases h with
      | closed k hclosed => omega
      | steps hopen => exact absurd hsteps (lt_irrefl _)
      | nodes k hopen hfull => omega
      | saturated k => exact ⟨k, _, rfl⟩
      | instances k before id after n _ _ hlist _ hn hlacks _ =>
          obtain ⟨m, hm, _, hsaturates⟩ := hsaturated id (hlist ▸ List.mem_append_right _ List.mem_cons_self)
          obtain rfl := Except.ok.inj (hn.symm.trans hm)
          cases hlacks.symm.trans hsaturates
  branches k branches hv := by
    subst hv
    cases h
    rfl
  stepLimit k l hv := by
    subst hv
    cases h
    exact ⟨rfl, rfl⟩
  nodeLimit k l hv := by
    subst hv
    cases h with
    | nodes _ _ hfull => exact ⟨rfl, hfull⟩
  instanceLimit k l id hv := by
    subst hv
    cases h with
    | instances _ before _ after n _ hreusable hlist hbefore hn hlacks hfull =>
        refine ⟨rfl, hreusable, before, after, n, hlist, hbefore, ?_, hn, hfull⟩
        rw [isSaturated, hn, ← hlacks]
        rfl
  stuck k id hv := by
    subst hv
    cases h

/-- From whatever tableau a session has reached, a search with any limits comes to a verdict that says exactly what it
ends with. -/
theorem run_search_classified (o : Options) (s : Signed) (steps : List Step) (limits : Limits) :
    ∃ v, (((start o s).run steps).search limits).1 = .ok v ∧
      Classified limits ((start o s).run steps) (((start o s).run steps).search limits).2 v := by
  have hvalid := valid_run o s steps
  have hsteps : 0 + limits.steps = limits.steps := Nat.zero_add _
  obtain ⟨v, ids, hv, hk, hle, hrounds, houtcome⟩ :=
    exists_outcome (valid_checkClosed hvalid ((start o s).run steps).tree.root.id) hsteps
  rw [search_eq hvalid]
  exact ⟨v, hv, houtcome.classified ⟨ids, by rw [hk, Nat.zero_add], hrounds⟩ hle⟩

end Tableau

end Tableaux
