import Mathlib
import Tableaux.Proofs.Fairness

/-!
Completeness of the search. If no stage of the strategy is closed, then open branches of all stages prolong each other,
since every stage has finitely many. Nothing is starved on such a sequence of branches: what they assert together is
a Hintikka set, and so the premises have a model. If they have none, some stage is closed, and a search with room for
the stages before it finds it.
-/

namespace Tableaux

/-- The tableau is one that the search may go on with: nothing is lost, and no contradiction is overlooked. -/
structure Searched (premises : List Signed) (t : Tableau) : Prop where
  valid : Valid t
  thorough : Thorough premises t
  checked : Checked t

namespace Searched

variable {premises : List Signed} {t : Tableau}

theorem stage (h : Searched premises t) (k : Nat) : Searched premises (t.stage k) where
  valid := Tableau.valid_stage h.valid k
  thorough := Thorough.lasting.stage h.valid h.thorough k
  checked := h.checked.stage h.valid k

end Searched

/-- Open branches of all stages, each with the nodes of those before. -/
structure Thread (t : Tableau) (branch : Nat → List Node) : Prop where
  mem : ∀ k, branch k ∈ (t.stage k).tree.branches
  opened : ∀ k, OpenBranch (branch k)
  prolongs : ∀ i j, i ≤ j → ∀ id ∈ (branch i).map Node.id, id ∈ (branch j).map Node.id

namespace Thread

variable {premises : List Signed} {t : Tableau} {branch : Nat → List Node} {n : Node}

theorem mem_labels (h : Thread t branch) {k : Nat} (hn : n ∈ branch k) : n ∈ (t.stage k).tree.labels :=
  Tree.mem_labels_of_mem_branch (h.mem k) hn

/-- A node on one of the branches is on all later ones. -/
theorem exists_later (hvalid : Valid t) (h : Thread t branch) {i j : Nat} (hij : i ≤ j) (hn : n ∈ branch i) :
    ∃ n' ∈ branch j, n'.id = n.id ∧ n'.signed = n.signed := by
  obtain ⟨n', hn', hid⟩ := List.mem_map.1 (h.prolongs i j hij n.id (List.mem_map_of_mem hn))
  obtain ⟨m, hm, hmid, hsigned⟩ := (Later.stage hvalid hij).node n (h.mem_labels hn)
  have heq := (Tableau.valid_stage hvalid j).numbered.eq_of_id_eq (h.mem_labels hn') hm (hid.trans hmid.symm)
  exact ⟨n', hn', hid, heq ▸ hsigned⟩

theorem asserted_mono (hvalid : Valid t) (h : Thread t branch) {i j : Nat} (hij : i ≤ j) :
    asserted (branch i) ⊆ asserted (branch j) := by
  rintro _ ⟨n, hn, rfl⟩
  obtain ⟨n', hn', _, hsigned⟩ := h.exists_later hvalid hij hn
  exact ⟨n', hn', hsigned⟩

/-- A node on one of the branches waits unless it is ticked. -/
theorem ticked_or_waits (hvalid : Valid t) (h : Thread t branch) {k : Nat} (hn : n ∈ branch k) :
    n.ticked = true ∨ n.id ∈ (t.stage k).worklist := by
  cases hticked : n.ticked with
  | true => exact Or.inl rfl
  | false =>
      have hwaits := ((Tableau.valid_stage hvalid k).waiting n.id).2
      exact Or.inr (hwaits ⟨n, h.mem_labels hn, rfl, hticked, h.opened k n hn⟩)

/-- A node that is developed once is ticked at some later stage. -/
theorem exists_ticked (hvalid : Valid t) (h : Thread t branch) {i : Nat} (hn : n ∈ branch i)
    (hkind : n.kind.isReusable = false) : ∃ j, i ≤ j ∧ ∃ m ∈ branch j, m.signed = n.signed ∧ m.ticked = true := by
  obtain ⟨j, hij, hreusable⟩ := Tableau.exists_stage_reusable hvalid i
  obtain ⟨m, hm, _, hsigned⟩ := h.exists_later hvalid hij hn
  refine ⟨j, hij, m, hm, hsigned, ?_⟩
  rcases h.ticked_or_waits hvalid hm with hticked | hwaits
  · exact hticked
  · have hmkind := hreusable m.id hwaits m
      (Tableau.node_of_mem (Tableau.valid_stage hvalid j).numbered (h.mem_labels hm))
    rw [Node.kind, hsigned] at hmkind
    cases hmkind.symm.trans hkind

/-- A reusable node is instantiated with every term at some later stage. -/
theorem exists_instance (hvalid : Valid t) (h : Thread t branch) {i k : Nat} (hn : n ∈ branch i)
    (hkind : n.kind.isReusable = true) {x : Term} (hx : x ∈ (t.stage k).terms) :
    ∃ j, i ≤ j ∧ ∃ m ∈ branch j, m.signed = n.signed ∧ x ∈ m.instances := by
  -- a stage that has both the node and the term
  obtain ⟨m, hm, _, hsigned⟩ := h.exists_later hvalid (le_max_left i k) hn
  have hx := (Later.stage hvalid (le_max_right i k)).terms.mem hx
  have hmkind : m.kind.isReusable = true := by rwa [Node.kind, hsigned]
  obtain ⟨j, hj, hinstance⟩ := Tableau.exists_stage_instance hvalid (h.mem_labels hm) hmkind hx
  obtain ⟨m', hm', hid, hsigned'⟩ := h.exists_later hvalid hj hm
  have hvalid' := Tableau.valid_stage hvalid j
  refine ⟨j, (le_max_left i k).trans hj, m', hm', hsigned'.trans hsigned, ?_⟩
  rcases h.ticked_or_waits hvalid hm' with hticked | hwaits
  · rw [(hvalid'.settled m' (h.mem_labels hm')).reusable (by rwa [Node.kind, hsigned'])] at hticked
    cases hticked
  · rw [← hid] at hinstance
    obtain ⟨m'', hnode, hmem⟩ := hinstance hwaits
    obtain rfl := Except.ok.inj ((Tableau.node_of_mem hvalid'.numbered (h.mem_labels hm')).symm.trans hnode)
    exact hmem

/-- With a reusable node there are terms: if there were none, its first turn would bring one. -/
theorem exists_term (hvalid : Valid t) (h : Thread t branch) {i : Nat} (hn : n ∈ branch i)
    (hkind : n.kind.isReusable = true) : ∃ k, ∃ x, x ∈ (t.stage k).terms := by
  obtain ⟨j, hij, hreusable⟩ := Tableau.exists_stage_reusable hvalid i
  have hvalid' := Tableau.valid_stage hvalid j
  obtain ⟨m, hm, _, hsigned⟩ := h.exists_later hvalid hij hn
  have hsettled := hvalid'.settled m (h.mem_labels hm)
  have hwaits : m.id ∈ (t.stage j).worklist := by
    refine (h.ticked_or_waits hvalid hm).resolve_left fun hticked => ?_
    rw [hsettled.reusable (by rwa [Node.kind, hsigned])] at hticked
    cases hticked
  rcases Tableau.choice_cases hvalid' with ⟨_, hsaturated⟩ | ⟨id, k, _, hid, hnode, honce⟩ |
    ⟨before, id, after, k, hlist, hchoice, hnode, _, hall, _⟩
  · obtain ⟨m', hnode, _, hsat⟩ := hsaturated m.id hwaits
    obtain rfl := Except.ok.inj ((Tableau.node_of_mem hvalid'.numbered (h.mem_labels hm)).symm.trans hnode)
    obtain ⟨x, hx⟩ := List.exists_mem_of_ne_nil _ (Tableau.instances_ne_nil_of_saturates hsat)
    exact ⟨j, x, hsettled.entered x hx⟩
  · cases (hreusable id hid k hnode).symm.trans honce
  · obtain ⟨e, hadvanced⟩ := Tableau.advanced_next hvalid' hchoice hnode
    have hid : id ∈ (t.stage j).worklist := by
      rw [hlist]
      exact List.mem_append_right _ List.mem_cons_self
    have hterms := hadvanced.terms
    rw [Tableau.given, Kind.isQuantified_of_reusable (hall id hid k hnode), if_pos rfl] at hterms
    refine ⟨j + 1, (t.stage j).termFor k none, ?_⟩
    change _ ∈ (t.stage j).next.terms
    rw [hterms]
    exact Term.mem_enter.2 (Or.inr rfl)

/-- What the branches of a thread assert together is a Hintikka set over the terms of all stages. -/
theorem hintikka (hsearched : Searched premises t) (h : Thread t branch) :
    Hintikka {x | ∃ k, x ∈ (t.stage k).terms} {s | ∃ k, s ∈ asserted (branch k)} := by
  have hvalid := hsearched.valid
  have hsub : ∀ k, asserted (branch k) ⊆ {s | ∃ k, s ∈ asserted (branch k)} := fun k s hs => ⟨k, hs⟩
  have htreated : ∀ k, ∀ n ∈ branch k, n.Treated (branch k) := fun k =>
    (hsearched.stage k).thorough.treated (branch k) (h.mem k) (h.opened k)
  have hsettled : ∀ k, ∀ n ∈ branch k, n.Settled (t.stage k).terms (t.stage k).names := fun k n hn =>
    (hsearched.stage k).valid.settled n (h.mem_labels hn)
  apply hintikka_of_treated
  case folded =>
    rintro _ ⟨k, n, hn, rfl⟩
    exact (hsettled k n hn).folded
  case free =>
    rintro _ ⟨k, n, hn, rfl⟩ x hx
    exact ⟨k, (hsearched.stage k).thorough.free n (h.mem_labels hn) x hx⟩
  case consistent =>
    -- two formulas stand together on the branch of the later stage
    rintro s ⟨i, hs⟩ r ⟨j, hr⟩
    refine ((hsearched.stage (max i j)).checked _ (h.mem _) (h.opened _)).forall_mem s ?_ r ?_
    · exact h.asserted_mono hvalid (le_max_left i j) hs
    · exact h.asserted_mono hvalid (le_max_right i j) hr
  case once =>
    rintro _ ⟨i, n, hn, rfl⟩ hkind
    obtain ⟨j, _, m, hm, hsigned, hticked⟩ := h.exists_ticked hvalid hn hkind
    exact ⟨branch j, m, hsub j, htreated j m hm, hsigned, hticked, fun x hx => ⟨j, (hsettled j m hm).entered x hx⟩⟩
  case nonempty =>
    rintro _ ⟨i, n, hn, rfl⟩ hkind
    obtain ⟨k, x, hx⟩ := h.exists_term hvalid hn hkind
    exact ⟨x, k, hx⟩
  case every =>
    rintro _ ⟨i, n, hn, rfl⟩ hkind x ⟨k, hx⟩
    obtain ⟨j, _, m, hm, hsigned, hmem⟩ := h.exists_instance hvalid hn hkind hx
    exact ⟨branch j, m, hsub j, htreated j m hm, hsigned, hmem⟩

end Thread

namespace Tableau

variable {premises : List Signed} {t : Tableau}

/-- The numbers on an open branch of a stage. -/
def OpenPath (t : Tableau) (k : Nat) : Type :=
  {ids : List Nat // ∃ b ∈ (t.stage k).tree.branches, OpenBranch b ∧ b.map Node.id = ids}

instance (t : Tableau) (k : Nat) : Finite (OpenPath t k) := by
  refine Set.Finite.subset (List.finite_toSet ((t.stage k).tree.branches.map (List.map Node.id))) ?_
  rintro _ ⟨b, hb, _, rfl⟩
  exact List.mem_map_of_mem hb

theorem nonempty_openPath (h : Valid t) {k : Nat} (hopen : (t.stage k).openBranches ≠ 0) : Nonempty (OpenPath t k) := by
  have hvalid := valid_stage h k
  rw [Ne, hvalid.openBranches_eq_zero] at hopen
  push Not at hopen
  obtain ⟨leaf, up, hb, hleaf⟩ := hopen
  exact ⟨⟨_, leaf :: up, hb, hvalid.agree.openBranch hb (by simpa using hleaf), rfl⟩⟩

end Tableau

namespace Tableau.OpenPath

variable {t : Tableau}

theorem lt_slots (h : Valid t) {k : Nat} (path : OpenPath t k) : ∀ id ∈ path.1, id < (t.stage k).slots := by
  obtain ⟨_, b, hb, _, rfl⟩ := path
  intro id hid
  obtain ⟨n, hn, rfl⟩ := List.mem_map.1 hid
  exact (valid_stage h k).id_lt n (Tree.mem_labels_of_mem_branch hb hn)

theorem filter_eq_self (h : Valid t) {k : Nat} (path : OpenPath t k) :
    path.1.filter (· < (t.stage k).slots) = path.1 :=
  List.filter_eq_self.2 fun id hid => decide_eq_true (path.lt_slots h id hid)

/-- Of the numbers on an open branch, those that were there at an earlier stage are the numbers on an open branch
then. -/
def restrict (h : Valid t) {i j : Nat} (hij : i ≤ j) (path : OpenPath t j) : OpenPath t i := by
  refine ⟨path.1.filter (· < (t.stage i).slots), ?_⟩
  obtain ⟨b', hb', hopen', hids⟩ := path.2
  obtain ⟨b, hb, hopen, new, heq, hnew⟩ := (Later.stage h hij).branch b' hb' hopen'
  have hold := filter_eq_self h (⟨_, b, hb, hopen, rfl⟩ : OpenPath t i)
  have hnone : new.filter (· < (t.stage i).slots) = [] := by
    rw [List.filter_eq_nil_iff]
    intro id hid
    simpa using hnew id hid
  exact ⟨b, hb, hopen, by rw [← hids, heq, List.filter_append, hnone, hold, List.nil_append]⟩

theorem restrict_refl (h : Valid t) {k : Nat} (path : OpenPath t k) : path.restrict h (Nat.le_refl k) = path :=
  Subtype.ext (path.filter_eq_self h)

theorem restrict_trans (h : Valid t) {i j k : Nat} (hij : i ≤ j) (hjk : j ≤ k) (path : OpenPath t k) :
    (path.restrict h hjk).restrict h hij = path.restrict h (hij.trans hjk) := by
  apply Subtype.ext
  have hslots := (Later.stage h hij).slots_le
  change (path.1.filter _).filter _ = path.1.filter _
  rw [List.filter_filter]
  apply List.filter_congr
  intro id _
  rw [Bool.and_eq_left_iff_imp, decide_eq_true_eq, decide_eq_true_eq]
  omega

end Tableau.OpenPath

namespace Tableau

variable {premises : List Signed} {t : Tableau}

/-- If no stage is closed, open branches of all stages prolong each other: the way to an earlier stage is the
restriction, and each stage has finitely many branches. -/
theorem exists_thread (h : Valid t) (hopen : ∀ k, (t.stage k).openBranches ≠ 0) : ∃ branch, Thread t branch := by
  have hnonempty : ∀ k, Nonempty (OpenPath t k) := fun k => nonempty_openPath h (hopen k)
  obtain ⟨path, hpath⟩ := exists_seq_forall_proj_of_forall_finite (fun hij path => OpenPath.restrict h hij path)
    (fun k path => path.restrict_refl h) (fun i j k hij hjk path => path.restrict_trans h hij hjk)
    fun i path => Set.toFinite _
  choose branch hmem hopened hids using fun k => (path k).2
  refine ⟨branch, hmem, hopened, fun i j hij id hid => ?_⟩
  rw [hids, ← hpath hij] at hid
  rw [hids]
  exact (List.mem_filter.1 hid).1

/-- If the premises cannot be true together, some stage is closed. -/
theorem exists_closed_stage (h : Searched premises t)
    (hunsatisfiable : ∀ (D : Type) (M : Structure D) (a : Term → D), ¬ ∀ s ∈ premises, s.Holds M a) :
    ∃ k, (t.stage k).openBranches = 0 := by
  by_contra hopen
  obtain ⟨branch, hthread⟩ := exists_thread h.valid fun k hk => hopen ⟨k, hk⟩
  obtain ⟨D, M, a, hholds⟩ := (hthread.hintikka h).exists_model
  refine hunsatisfiable D M a (h.thorough.premises_hold (hthread.mem 0) fun n hn => ?_)
  exact hholds _ ⟨0, n, hn, rfl⟩

/-- A limit of nodes and of instances with room for one more development. -/
def room (t : Tableau) : Nat :=
  t.nodeCount + (t.tree.labels.map fun n => n.instances.length).sum + 1

theorem nodeCount_lt_room (t : Tableau) : t.nodeCount < t.room := by
  rw [room]
  omega

theorem instances_lt_room {n : Node} (hn : n ∈ t.tree.labels) : n.instances.length < t.room := by
  have hle : n.instances.length ≤ (t.tree.labels.map fun n => n.instances.length).sum :=
    List.single_le_sum (fun _ _ => Nat.zero_le _) _ (List.mem_map_of_mem hn)
  rw [room]
  omega

/-- There are limits with room for any number of stages. -/
theorem exists_room (t : Tableau) (k : Nat) : ∃ N, k < N ∧ ∀ j ≤ k, (t.stage j).room ≤ N := by
  refine ⟨k + 1 + ∑ j ∈ Finset.range (k + 1), (t.stage j).room, by omega, fun j hj => ?_⟩
  have hle : (t.stage j).room ≤ ∑ j ∈ Finset.range (k + 1), (t.stage j).room :=
    Finset.single_le_sum (f := fun j => (t.stage j).room) (fun _ _ => Nat.zero_le _)
      (Finset.mem_range.2 (Nat.lt_succ_of_le hj))
  omega

/-- With enough room the strategy is carried out up to the first closed stage. -/
theorem exists_limit (h : Valid t) {k : Nat} (hclosed : (t.stage k).openBranches = 0) :
    ∃ N, ∀ limits : Limits, N ≤ limits.steps → N ≤ limits.nodes → N ≤ limits.instances →
      ∃ steps nodes, (searchFrom limits limits.steps 0 t).1 = .ok (.closed steps nodes) := by
  classical
  have hexists : ∃ k, (t.stage k).openBranches = 0 := ⟨k, hclosed⟩
  -- the first closed stage
  obtain ⟨N, hN, hroom⟩ := exists_room t (Nat.find hexists)
  refine ⟨N, fun limits hsteps hnodes hinstances => ?_⟩
  have hwithin : ∀ j < Nat.find hexists, (t.stage j).Within limits := fun j hj =>
    ⟨(nodeCount_lt_room _).trans_le ((hroom j hj.le).trans hnodes),
      fun n hn _ => (instances_lt_room hn).trans_le ((hroom j hj.le).trans hinstances)⟩
  have hsearch := searchFrom_stage limits.steps 0 h (fun j hj => Nat.find_min hexists hj) (Nat.find_spec hexists)
    (hN.le.trans hsteps) hwithin
  exact ⟨_, _, congrArg Prod.fst hsearch⟩

end Tableau

/-- The tableau of a valid problem is one that the search may go on with once it has looked for contradictions. -/
theorem Problem.searched {o : Options} (hseed : o.seedConstants = true) (first : Signed) (rest : List Signed) :
    Searched (first :: rest) (((Tableau.start o first).run (Problem.steps rest)).checkClosed
      ((Tableau.start o first).run (Problem.steps rest)).tree.root.id).2 := by
  have hvalid := Tableau.valid_run o first (Problem.steps rest)
  exact ⟨Tableau.valid_checkClosed hvalid _,
    Thorough.lasting.checkClosed (Thorough.lasting.problem (Thorough.start hseed first) rest) _,
    Checked.checkClosed_root hvalid.toCoherent⟩

/-- The search is complete: if the signed formulas of a valid problem cannot be true together, there is a number such
that every search of its tableau whose limits are no smaller closes all branches. -/
theorem search_closes_of_unsatisfiable {p : Problem} {o : Options} (hvalid : p.validate = .ok ())
    (hseed : o.seedConstants = true)
    (hunsatisfiable : ∀ (D : Type) (M : Structure D) (a : Term → D), ¬ ∀ s ∈ p.signedFormulas, s.Holds M a) :
    ∃ t, p.toTableau o = .ok t ∧ ∃ N, ∀ limits : Limits, N ≤ limits.steps → N ≤ limits.nodes → N ≤ limits.instances →
      ∃ steps nodes, (t.search limits).1 = .ok (.closed steps nodes) := by
  obtain ⟨first, rest, hformulas⟩ := List.exists_cons_of_ne_nil (Problem.signedFormulas_ne_nil hvalid)
  refine ⟨_, Problem.toTableau_eq hvalid hformulas o, ?_⟩
  have hsearched := Problem.searched hseed first rest
  have hrun := Tableau.valid_run o first (Problem.steps rest)
  generalize (Tableau.start o first).run (Problem.steps rest) = t at hsearched hrun ⊢
  rw [hformulas] at hunsatisfiable
  obtain ⟨k, hclosed⟩ := Tableau.exists_closed_stage hsearched hunsatisfiable
  obtain ⟨N, hN⟩ := Tableau.exists_limit hsearched.valid hclosed
  refine ⟨N, fun limits hsteps hnodes hinstances => ?_⟩
  have hsearch : t.search limits = Tableau.searchFrom limits limits.steps 0 (t.checkClosed t.tree.root.id).2 := by
    rw [Tableau.search, Tableau.checkClosed, Tableau.node_root hrun.numbered]
  rw [hsearch]
  exact hN limits hsteps hnodes hinstances

/-- Whatever is `P` is `Q`, and `a` is `P`: does it follow that `a` is `Q`? -/
def syllogism : Problem :=
  .argument [.quantified .universal ⟨"x"⟩ (.binary .implication (.atom (.of "P" [⟨"x"⟩])) (.atom (.of "Q" [⟨"x"⟩]))),
    .atom (.of "P" [⟨"a"⟩])] (.atom (.of "Q" [⟨"a"⟩]))

/-- A search with limits that are large enough finds out that it follows. -/
theorem search_closes_of_unsatisfiable_witness :
    syllogism.validate = .ok () ∧
    (∀ (D : Type) (M : Structure D) (a : Term → D), ¬ ∀ s ∈ syllogism.signedFormulas, s.Holds M a) ∧
    ∃ t, syllogism.toTableau {} = .ok t ∧ ∃ N, ∀ limits : Limits, N ≤ limits.steps → N ≤ limits.nodes →
      N ≤ limits.instances → ∃ steps nodes, (t.search limits).1 = .ok (.closed steps nodes) := by
  have hvalid : syllogism.validate = .ok () := by decide +kernel
  have hunsatisfiable : ∀ (D : Type) (M : Structure D) (a : Term → D),
      ¬ ∀ s ∈ syllogism.signedFormulas, s.Holds M a := by
    intro D M a hall
    have hrule := hall _ List.mem_cons_self
    have hP := hall _ (List.mem_cons_of_mem _ List.mem_cons_self)
    have hQ := hall _ (List.mem_cons_of_mem _ (List.mem_cons_of_mem _ List.mem_cons_self))
    rw [Signed.holds_true] at hrule hP
    rw [Signed.holds_false] at hQ
    have hinstance := hrule (a ⟨"a"⟩)
    simp only [Formula.Holds, Connective.Holds, Atom.of, List.map_cons, List.map_nil, Function.update_self] at hinstance
    exact hQ (hinstance hP)
  exact ⟨hvalid, hunsatisfiable, search_closes_of_unsatisfiable hvalid (by decide) hunsatisfiable⟩

end Tableaux
