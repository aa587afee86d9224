import Mathlib
import Tableaux.Proofs.Hintikka
import Tableaux.Proofs.Premises

/-!
What has been developed is on the branches. As long as nothing is removed, every open branch holds, for each of its
nodes that is ticked, a chain of the node's rule, and for each term that a node on it has been instantiated with, the
instance. So when a search ends because there is nothing left to do, the formulas of every open branch are a
Hintikka set over the terms of the tableau, and the branch describes a model of itself.
-/

namespace Tableaux

/-- The branch has a node that says what the signed formula says. -/
def Asserts (b : List Node) (s : Signed) : Prop :=
  ∃ n ∈ b, n.signed = s.fold

/-- What has been done with a node is on the branch. -/
structure Node.Treated (b : List Node) (n : Node) : Prop where
  instances : ∀ x ∈ n.instances, ∀ e, n.signed.expansion (some x) = some e →
    ∃ chain ∈ e.chains, ∀ s ∈ chain, Asserts b s
  instantiated : n.ticked = true → n.kind.isQuantified = true → n.instances ≠ []
  ticked : n.ticked = true → ∀ e, n.signed.expansion none = some e → ∃ chain ∈ e.chains, ∀ s ∈ chain, Asserts b s

/-- Open branches hold what their nodes were developed into, and every branch states the premises. -/
structure Diligent (premises : List Signed) (t : Tableau) : Prop where
  treated : ∀ b ∈ t.tree.branches, OpenBranch b → ∀ n ∈ b, n.Treated b
  stated : ∀ s ∈ premises, ∀ b ∈ t.tree.branches, Asserts b s

/-- No work has been lost: open branches hold what their nodes were developed into, the free terms of all formulas
are terms of the tableau, and every branch states the premises. -/
structure Thorough (premises : List Signed) (t : Tableau) : Prop where
  seeded : t.options.seedConstants = true
  treated : ∀ b ∈ t.tree.branches, OpenBranch b → ∀ n ∈ b, n.Treated b
  free : ∀ n ∈ t.tree.labels, ∀ x, n.signed.formula.hasFree x = true → x ∈ t.terms
  stated : ∀ s ∈ premises, ∀ b ∈ t.tree.branches, Asserts b s

theorem Asserts.mono {b b' : List Node} {s : Signed} (h : Asserts b s)
    (hsigned : ∀ n ∈ b, ∃ m ∈ b', m.signed = n.signed) : Asserts b' s := by
  obtain ⟨n, hn, heq⟩ := h
  obtain ⟨m, hm, hmn⟩ := hsigned n hn
  exact ⟨m, hm, hmn.trans heq⟩

namespace Node.Treated

variable {b b' : List Node} {n m : Node}

theorem mono (h : n.Treated b) (hsigned : ∀ n ∈ b, ∃ m ∈ b', m.signed = n.signed) : n.Treated b' where
  instances x hx e he := by
    obtain ⟨chain, hchain, hall⟩ := h.instances x hx e he
    exact ⟨chain, hchain, fun s hs => (hall s hs).mono hsigned⟩
  instantiated := h.instantiated
  ticked hticked e he := by
    obtain ⟨chain, hchain, hall⟩ := h.ticked hticked e he
    exact ⟨chain, hchain, fun s hs => (hall s hs).mono hsigned⟩

theorem marked (h : n.Treated b) (hnm : n.MarkedTo m) : m.Treated b where
  instances := by rw [hnm.instances, hnm.signed]; exact h.instances
  instantiated := by rw [hnm.ticked, hnm.instances, Node.kind, hnm.signed]; exact h.instantiated
  ticked := by rw [hnm.ticked, hnm.signed]; exact h.ticked

/-- With a new node nothing has been done, unless it is a literal, for which there is nothing to do. -/
theorem ofSigned (id : Nat) (s : Signed) (origin : Option Nat) (b : List Node) :
    (Node.ofSigned id s origin).Treated b where
  instances x hx := by cases hx
  instantiated hliteral hquantified := by
    change s.fold.kind.isQuantified = true at hquantified
    rw [Kind.isQuantified_eq_false_of_literal hliteral] at hquantified
    cases hquantified
  ticked hliteral e he := by
    change s.fold.kind.isLiteral = true at hliteral
    change s.fold.expansion none = some e at he
    rw [Signed.expansion_of_isLiteral s.fold_fold hliteral] at he
    cases he

/-- The developed node has been treated on every branch that one of its chains has been put on. -/
theorem touched {x : Option Term} {e : Expansion} (h : n.Treated b)
    (hsigned : ∀ n ∈ b, ∃ m ∈ b', m.signed = n.signed) (hexpansion : n.signed.expansion x = some e)
    (hx : n.kind.isQuantified = true → ∃ y, x = some y) (hchain : ∃ chain ∈ e.chains, ∀ s ∈ chain, Asserts b' s)
    (done : Bool) : (Tableau.touch n.id x done n).Treated b' := by
  have hmono := h.mono hsigned
  rw [Tableau.touch, if_pos rfl]
  constructor
  case instances =>
    intro y hy e' he'
    cases x with
    | none => exact hmono.instances y hy e' he'
    | some z =>
        rcases Term.mem_enter.1 hy with hy | rfl
        · exact hmono.instances y hy e' he'
        · obtain rfl := Option.some.inj (he'.symm.trans hexpansion)
          exact hchain
  case instantiated =>
    intro _ hquantified
    obtain ⟨y, rfl⟩ := hx hquantified
    exact List.ne_nil_of_mem (Term.mem_enter.2 (Or.inr rfl))
  case ticked =>
    intro _ e' he'
    obtain rfl := Option.some.inj ((Signed.expansion_of_expansion_none he' x).symm.trans hexpansion)
    exact hchain

end Node.Treated

/-- A quantified node is developed with a term. -/
theorem Tableau.exists_given {t : Tableau} (n : Node) (term : Option Term) (h : n.kind.isQuantified = true) :
    ∃ y, t.given n term = some y := by
  rw [given, if_pos h]
  exact ⟨_, rfl⟩

namespace Diligent

variable {premises : List Signed} {t t' : Tableau}

theorem closesTo (h : Diligent premises t) (hcloses : t.ClosesTo t') : Diligent premises t' where
  treated := by
    intro b' hb' hopen m hm
    obtain ⟨b, hb, hmarked⟩ := hcloses.exists_branch hb'
    obtain ⟨n, hn, hnm⟩ := exists_of_forall₂_right hmarked hm
    refine ((h.treated b hb (openBranch_of_marked hmarked hopen) n hn).marked hnm).mono ?_
    intro k hk
    obtain ⟨k', hk', hkk'⟩ := exists_of_forall₂_left hmarked hk
    exact ⟨k', hk', hkk'.signed⟩
  stated := by
    intro s hs b' hb'
    obtain ⟨b, hb, hmarked⟩ := hcloses.exists_branch hb'
    refine (h.stated s hs b hb).mono fun k hk => ?_
    obtain ⟨k', hk', hkk'⟩ := exists_of_forall₂_left hmarked hk
    exact ⟨k', hk', hkk'.signed⟩

theorem sendToBack (h : Diligent premises t) (id : Nat) : Diligent premises (t.sendToBack id) := by
  rw [Tableau.sendToBack_eq]
  exact ⟨h.treated, h.stated⟩

theorem start (o : Options) (s : Signed) : Diligent [s] (.start o s) where
  treated := by
    intro b hb _ n hn
    rw [Tableau.branches_start, List.mem_singleton] at hb
    rw [hb, List.mem_singleton] at hn
    rw [hn]
    exact .ofSigned 0 s none b
  stated := by
    intro r hr b hb
    rw [Tableau.branches_start, List.mem_singleton] at hb
    rw [hb, List.mem_singleton.1 hr]
    exact ⟨_, List.mem_cons_self, rfl⟩

theorem premise (hvalid : Valid t) (h : Diligent premises t) {s : Signed} {leaf : Node} {up : List Node}
    (hpath : t.tree.branches = [leaf :: up]) : Diligent (premises ++ [s]) (t.stated s leaf.id) := by
  have hleaf : leaf :: up ∈ t.tree.branches := by
    rw [hpath]
    exact List.mem_cons_self
  have hbranch : ∀ b ∈ (t.stated s leaf.id).tree.branches, b = .ofSigned t.slots s none :: leaf :: up := by
    intro b hb
    rwa [Tableau.branches_stated hvalid.numbered s hpath, List.mem_singleton] at hb
  constructor
  case treated =>
    intro b hb hopen n hn
    obtain rfl := hbranch b hb
    rcases List.mem_cons.1 hn with rfl | hn
    · exact .ofSigned _ s none _
    · have hopen' : OpenBranch (leaf :: up) := fun m hm => hopen m (List.mem_cons_of_mem _ hm)
      exact (h.treated _ hleaf hopen' n hn).mono fun m hm => ⟨m, List.mem_cons_of_mem _ hm, rfl⟩
  case stated =>
    intro r hr b hb
    obtain rfl := hbranch b hb
    rcases List.mem_append.1 hr with hr | hr
    · exact (h.stated r hr _ hleaf).mono fun m hm => ⟨m, List.mem_cons_of_mem _ hm, rfl⟩
    · rw [List.mem_singleton.1 hr]
      exact ⟨_, List.mem_cons_self, rfl⟩

section Application

variable {n : Node} {x : Option Term} {e : Expansion}

/-- The formulas of a branch are on what it is prolonged to. -/
theorem exists_signed_touched (b new : List Node) :
    ∀ k ∈ b, ∃ m ∈ new ++ b.map (Tableau.touch n.id x !n.kind.isReusable), m.signed = k.signed := fun k hk =>
  ⟨_, List.mem_append_right _ (List.mem_map_of_mem hk), (Tableau.sameJudgement_touch n.id x _).signed k⟩

theorem treated_applied (hvalid : Valid t) (h : Diligent premises t) (hn : n ∈ t.tree.labels)
    (hexpansion : n.signed.expansion x = some e) (hx : n.kind.isQuantified = true → ∃ y, x = some y)
    (happlied : Applied n x e (t.openLeavesBelow n.id) t t') {b' : List Node} (hb' : b' ∈ t'.tree.branches)
    (hopen : OpenBranch b') : ∀ m ∈ b', m.Treated b' := by
  have htouch := Tableau.sameJudgement_touch n.id x !n.kind.isReusable
  intro m hm
  obtain ⟨b, hb, ⟨hends, rfl⟩ | ⟨hends, chain, hchain, id, _, rfl⟩⟩ := happlied.source b' hb'
  · -- an open branch that was not prolonged does not go through the node
    obtain ⟨k, hk, rfl⟩ := List.mem_map.1 hm
    have hopen' : OpenBranch b := fun j hj => (htouch.branchClosed j).symm.trans (hopen _ (List.mem_map_of_mem hj))
    have hne : k.id ≠ n.id := by
      intro hid
      rw [hvalid.numbered.eq_of_id_eq (Tree.mem_labels_of_mem_branch hb hk) hn hid] at hk
      exact hends (Tableau.endsIn_openLeavesBelow hvalid.toCoherent hb hopen' hk)
    rw [Tableau.touch_of_ne hne]
    exact (h.treated b hb hopen' k hk).mono (exists_signed_touched b [])
  · obtain ⟨hnb, hopen'⟩ := Tableau.mem_of_endsIn_openLeavesBelow hvalid.toCoherent hn hb hends
    rcases List.mem_append.1 hm with hm | hm
    · obtain ⟨s, _, heq⟩ := Node.exists_of_mem_ofChain (List.mem_reverse.1 hm)
      rw [heq]
      exact .ofSigned _ s _ _
    · obtain ⟨k, hk, rfl⟩ := List.mem_map.1 hm
      have htreated := h.treated b hb hopen' k hk
      by_cases hid : k.id = n.id
      · obtain rfl := hvalid.numbered.eq_of_id_eq (Tree.mem_labels_of_mem_branch hb hk) hn hid
        refine htreated.touched (exists_signed_touched b _) hexpansion hx ⟨chain, hchain, fun s hs => ?_⟩ _
        obtain ⟨m, hm, heq⟩ := Node.exists_mem_ofChain hs k.id id
        exact ⟨m, List.mem_append_left _ (List.mem_reverse.2 hm), heq⟩
      · rw [Tableau.touch_of_ne hid]
        exact htreated.mono (exists_signed_touched b _)

theorem applied (hvalid : Valid t) (h : Diligent premises t) (hn : n ∈ t.tree.labels)
    (hexpansion : n.signed.expansion x = some e) (hx : n.kind.isQuantified = true → ∃ y, x = some y)
    (happlied : Applied n x e (t.openLeavesBelow n.id) t t') : Diligent premises t' where
  treated _ hb' hopen := h.treated_applied hvalid hn hexpansion hx happlied hb' hopen
  stated := by
    intro s hs b' hb'
    obtain ⟨b, hb, ⟨_, rfl⟩ | ⟨_, chain, _, id, _, rfl⟩⟩ := happlied.source b' hb'
    · exact (h.stated s hs b hb).mono (exists_signed_touched b [])
    · exact (h.stated s hs b hb).mono (exists_signed_touched b _)

end Application

/-- What has been done stays on the branches as long as nothing is removed. -/
theorem lasting : Lasting (fun _ step => ∀ id, step ≠ .remove id) Diligent where
  remove h := h _ rfl
  unprompted _ := fun h => by cases h
  closesTo := closesTo
  sendToBack id h := h.sendToBack id
  stated hvalid h hpath _ := h.premise hvalid hpath
  applied hvalid h hn _ hexpansion happlied :=
    h.applied hvalid hn hexpansion (Tableau.exists_given _ _) happlied

end Diligent

namespace Thorough

variable {premises : List Signed} {t t' : Tableau}

theorem diligent (h : Thorough premises t) : Diligent premises t :=
  ⟨h.treated, h.stated⟩

theorem closesTo (h : Thorough premises t) (hcloses : t.ClosesTo t') : Thorough premises t' where
  seeded := by rw [hcloses.options]; exact h.seeded
  treated := (h.diligent.closesTo hcloses).treated
  free := by
    intro m hm x hx
    obtain ⟨n, hn, hnm⟩ := hcloses.exists_label hm
    rw [hnm.signed] at hx
    rw [hcloses.terms]
    exact h.free n hn x hx
  stated := (h.diligent.closesTo hcloses).stated

theorem sendToBack (h : Thorough premises t) (id : Nat) : Thorough premises (t.sendToBack id) := by
  rw [Tableau.sendToBack_eq]
  exact ⟨h.seeded, h.treated, h.free, h.stated⟩

theorem start {o : Options} (hseed : o.seedConstants = true) (s : Signed) : Thorough [s] (.start o s) where
  seeded := hseed
  treated := (Diligent.start o s).treated
  free := by
    intro n hn x hx
    rw [Tableau.labels_start, List.mem_singleton] at hn
    rw [hn] at hx
    change s.fold.formula.hasFree x = true at hx
    rw [Signed.hasFree_fold] at hx
    exact Tableau.mem_seed.2 (Or.inr ⟨hseed, Formula.mem_freeTerms.2 hx⟩)
  stated := (Diligent.start o s).stated

theorem premise (hvalid : Valid t) (h : Thorough premises t) {s : Signed} {leaf : Node} {up : List Node}
    (hpath : t.tree.branches = [leaf :: up]) : Thorough (premises ++ [s]) (t.stated s leaf.id) where
  seeded := h.seeded
  treated := (h.diligent.premise hvalid hpath).treated
  free := by
    have hleaf : leaf :: up ∈ t.tree.branches := by
      rw [hpath]
      exact List.mem_cons_self
    intro n hn x hx
    rcases (Tableau.mem_labels_stated hvalid.numbered s hleaf).1 hn with hn | rfl
    · exact Tableau.mem_seed.2 (Or.inl (h.free n hn x hx))
    · change s.fold.formula.hasFree x = true at hx
      rw [Signed.hasFree_fold] at hx
      exact Tableau.mem_seed.2 (Or.inr ⟨h.seeded, Formula.mem_freeTerms.2 hx⟩)
  stated := (h.diligent.premise hvalid hpath).stated

section Application

variable {n : Node} {x : Option Term} {e : Expansion}

theorem free_applied (h : Thorough premises t) (hn : n ∈ t.tree.labels) (hexpansion : n.signed.expansion x = some e)
    (happlied : Applied n x e (t.openLeavesBelow n.id) t t') {m : Node} (hm : m ∈ t'.tree.labels) {y : Term}
    (hy : m.signed.formula.hasFree y = true) : y ∈ t'.terms := by
  have hterms : ∀ y ∈ t.terms, y ∈ t'.terms := by
    intro y hy
    rw [happlied.terms]
    cases x with
    | none => exact hy
    | some z => exact Term.mem_enter.2 (Or.inl hy)
  rcases happlied.label_cases hm with ⟨k, hk, rfl⟩ | ⟨chain, hchain, s, hs, _, heq⟩
  · rw [(Tableau.sameJudgement_touch n.id x _).signed] at hy
    exact hterms y (h.free k hk y hy)
  · rw [heq] at hy
    change s.fold.formula.hasFree y = true at hy
    rw [Signed.hasFree_fold] at hy
    rcases Signed.hasFree_of_mem_chain hexpansion hchain hs hy with hy | rfl
    · exact hterms y (h.free n hn y hy)
    · rw [happlied.terms]
      exact Term.mem_enter.2 (Or.inr rfl)

theorem applied (hvalid : Valid t) (h : Thorough premises t) (hn : n ∈ t.tree.labels)
    (hexpansion : n.signed.expansion x = some e) (hx : n.kind.isQuantified = true → ∃ y, x = some y)
    (happlied : Applied n x e (t.openLeavesBelow n.id) t t') : Thorough premises t' where
  seeded := by rw [happlied.options]; exact h.seeded
  treated := (h.diligent.applied hvalid hn hexpansion hx happlied).treated
  free _ hm _ hy := h.free_applied hn hexpansion happlied hm hy
  stated := (h.diligent.applied hvalid hn hexpansion hx happlied).stated

end Application

/-- No work is lost as long as nothing is removed. -/
theorem lasting : Lasting (fun _ step => ∀ id, step ≠ .remove id) Thorough where
  remove h := h _ rfl
  unprompted _ := fun h => by cases h
  closesTo := closesTo
  sendToBack id h := h.sendToBack id
  stated hvalid h hpath _ := h.premise hvalid hpath
  applied hvalid h hn _ hexpansion happlied :=
    h.applied hvalid hn hexpansion (Tableau.exists_given _ _) happlied

/-- A run from a formula without removals loses nothing. -/
theorem run {o : Options} {s : Signed} {steps : List Step} (hseed : o.seedConstants = true)
    (hsteps : ∀ step ∈ steps, ∀ id, step ≠ .remove id) :
    Thorough (s :: (Tableau.start o s).premises steps) ((Tableau.start o s).run steps) :=
  lasting.run (Tableau.valid_start o s) (start hseed s)
    (Tableau.throughout_of_forall fun step hstep _ => hsteps step hstep)

end Thorough

/-- What a check makes true of the open branches that it looks at, and marks and touches do not undo, is kept true of
all open branches by a development: it prolongs branches through the node only, and these it checks. -/
theorem Tableau.develop_openBranches {t : Tableau} {P : List Node → Prop} (hvalid : Valid t)
    (hmarked : ∀ {b b' : List Node}, List.Forall₂ Node.MarkedTo b b' → P b → P b')
    (htouch : ∀ {g : Node → Node} {b : List Node}, SameJudgement g → P b → P (b.map g))
    (hcheck : ∀ {u : Tableau} {n : Node} {b : List Node}, Coherent u → b ∈ (u.closeBranches n.id).1.tree.branches →
      OpenBranch b → n ∈ b → P b)
    (h : ∀ b ∈ t.tree.branches, OpenBranch b → P b) (id : Nat) (term : Option Term) :
    ∀ b ∈ (t.develop id term).2.tree.branches, OpenBranch b → P b := by
  rcases develop_cases hvalid id term with
    ⟨_, _, heq⟩ | ⟨_, _, _, heq⟩ | ⟨n, e, t', hnode, _, _, _, happlied, hvalid', heq⟩
  · rw [heq]
    exact h
  · rw [heq]
    exact h
  · rw [heq]
    obtain ⟨hn, rfl⟩ := node_eq_ok hnode
    have hsame := sameJudgement_touch n.id (t.given n term) !n.kind.isReusable
    intro b' hb' hopen
    obtain ⟨c, hc, hmarks⟩ := (closesTo_closeBranches t' n.id).exists_branch hb'
    obtain ⟨b, hb, ⟨_, rfl⟩ | ⟨hends, chain, _, id, _, rfl⟩⟩ := happlied.source c hc
    · have hopen' : OpenBranch b := fun k hk =>
        (hsame.branchClosed k).symm.trans (openBranch_of_marked hmarks hopen _ (List.mem_map_of_mem hk))
      exact hmarked hmarks (htouch hsame (h b hb hopen'))
    · have hnb := (mem_of_endsIn_openLeavesBelow hvalid.toCoherent hn hb hends).1
      obtain ⟨m, hm, hnm⟩ := exists_of_forall₂_left hmarks
        (List.mem_append_right (Node.ofChain n.id id chain).reverse (List.mem_map_of_mem hnb))
      have hid : m.id = n.id := hnm.id.trans (hsame.id n)
      rw [← hid] at hb'
      exact hcheck hvalid'.toCoherent hb' hopen hm

/-- No open branch holds a contradiction. -/
def Checked (t : Tableau) : Prop :=
  ∀ b ∈ t.tree.branches, OpenBranch b → Consistent b

namespace Checked

variable {t t' : Tableau}

/-- Every branch goes through the root, so a check there is a check of all. -/
theorem closeBranches_root (h : Coherent t) : Checked (t.closeBranches t.tree.root.id).1 := by
  intro b hb hopen
  have hroot := Tree.root_mem_of_mem_branches hb
  exact Tableau.consistent_closeBranches h hb hopen hroot (Tableau.closesTo_closeBranches t _).root_id

theorem checkClosed_root (h : Coherent t) : Checked (t.checkClosed t.tree.root.id).2 := by
  rw [Tableau.checkClosed, Tableau.node_root h.numbered]
  exact closeBranches_root h

theorem defer (h : Checked t) (id : Nat) : Checked (t.defer id).2 := by
  rcases Tableau.defer_cases t id with heq | heq
  · rw [heq]
    exact h
  · rw [heq, Tableau.sendToBack_eq]
    exact h

theorem develop (hvalid : Valid t) (h : Checked t) (id : Nat) (term : Option Term) :
    Checked (t.develop id term).2 := by
  refine Tableau.develop_openBranches hvalid Tableau.consistent_of_marked ?_ ?_ h id term
  · intro g b hg hb
    have hsigned : (b.map g).map Node.signed = b.map Node.signed := by
      rw [List.map_map]
      exact List.map_congr_left fun n _ => hg.signed n
    rw [consistent_iff_signed, hsigned, ← consistent_iff_signed]
    exact hb
  · intro u n b hu hb hopen hn
    exact Tableau.consistent_closeBranches hu hb hopen hn rfl

/-- A search leaves no contradiction on an open branch. -/
theorem search (hvalid : Valid t) (limits : Limits) : Checked (t.search limits).2 := by
  have hchecked := checkClosed_root hvalid.toCoherent
  have hvalid' := Tableau.valid_checkClosed hvalid t.tree.root.id
  rw [Tableau.search]
  split
  · rename_i heq
    rw [heq] at hchecked
    exact hchecked
  · rename_i t' heq
    rw [heq] at hchecked hvalid'
    refine (Tableau.searchFrom_induction (P := fun t => Valid t ∧ Checked t) ?_ ?_ limits limits.steps 0
      ⟨hvalid', hchecked⟩).2
    · exact fun t id h => ⟨Tableau.valid_develop h.1 id none, h.2.develop h.1 id none⟩
    · exact fun t id h => ⟨Tableau.valid_defer h.1 id, h.2.defer id⟩

end Checked

end Tableaux
