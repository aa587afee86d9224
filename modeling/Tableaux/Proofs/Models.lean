import Mathlib
import Tableaux.Proofs.Saturation

/-!
The model that an open branch describes. When a search ends with nothing left to do, take the terms of the tableau
for the domain, let every term denote itself, and let the atoms hold that the branch asserts to be true: then all
formulas of the branch have their asserted values, and so have the premises.
-/

namespace Tableaux

universe u

/-- The signed formulas of a branch. -/
def asserted (b : List Node) : Set Signed :=
  {s | ∃ n ∈ b, n.signed = s}

theorem Asserts.fold_mem {b : List Node} {s : Signed} (h : Asserts b s) : s.fold ∈ asserted b := h

/-- On a consistent branch no two formulas contradict each other, in whatever order they stand. -/
theorem Consistent.forall_mem {b : List Node} (h : Consistent b) :
    ∀ s ∈ asserted b, ∀ r ∈ asserted b, s.contradicts r = false := by
  rintro _ ⟨n, hn, rfl⟩ _ ⟨m, hm, rfl⟩
  refine List.Pairwise.forall_of_forall_of_flip (R := fun n m : Node => n.signed.contradicts m.signed = false)
    (fun k _ => k.signed.contradicts_self) h ?_ hn hm
  refine h.imp fun {k j} hkj => ?_
  rw [flip, Signed.contradicts_comm]
  exact hkj

theorem Node.Treated.mem_instance {b : List Node} {n : Node} {q : Quantifier} {x y : Term} {body : Formula}
    {value : Bool} (h : n.Treated b) (hn : n.signed = ⟨.quantified q x body, value⟩) (hy : y ∈ n.instances) :
    Signed.fold ⟨body.subst x y, value⟩ ∈ asserted b := by
  obtain ⟨chain, hchain, hall⟩ := h.instances y hy (.linear [⟨body.subst x y, value⟩]) (by rw [hn]; rfl)
  obtain rfl := List.mem_singleton.1 hchain
  exact (hall _ List.mem_cons_self).fold_mem

/-- A set is a Hintikka set if it holds whole branches on which its formulas have been treated: those that are
developed once are ticked there, and for the others there is such a branch for every term. -/
theorem hintikka_of_treated {terms : Set Term} {H : Set Signed}
    (folded : ∀ s ∈ H, s.fold = s)
    (free : ∀ s ∈ H, ∀ x, s.formula.hasFree x = true → x ∈ terms)
    (consistent : ∀ s ∈ H, ∀ r ∈ H, s.contradicts r = false)
    (once : ∀ s ∈ H, s.kind.isReusable = false → ∃ (b : List Node) (n : Node), asserted b ⊆ H ∧ n.Treated b ∧
      n.signed = s ∧ n.ticked = true ∧ ∀ x ∈ n.instances, x ∈ terms)
    (nonempty : ∀ s ∈ H, s.kind.isReusable = true → terms.Nonempty)
    (every : ∀ s ∈ H, s.kind.isReusable = true → ∀ x ∈ terms, ∃ (b : List Node) (n : Node), asserted b ⊆ H ∧
      n.Treated b ∧ n.signed = s ∧ x ∈ n.instances) : Hintikka terms H := by
  -- a quantified formula that is developed once has an instance
  have hwitness : ∀ q x body value, (⟨.quantified q x body, value⟩ : Signed) ∈ H →
      (Kind.quantified q value).isReusable = false →
      ∃ y ∈ terms, Signed.fold ⟨body.subst x y, value⟩ ∈ H := by
    intro q x body value hs hkind
    obtain ⟨b, n, hsub, htreated, hsigned, hticked, hentered⟩ := once _ hs hkind
    have hinstances := htreated.instantiated hticked (by rw [Node.kind, hsigned]; rfl)
    obtain ⟨y, hy⟩ := List.exists_mem_of_ne_nil _ hinstances
    exact ⟨y, hentered y hy, hsub (htreated.mem_instance hsigned hy)⟩
  constructor
  case free => exact free
  case consistent => exact consistent
  case chain =>
    intro s hs e he
    have hquantified := Signed.isQuantified_eq_false (folded s hs) he
    have hkind : s.kind.isReusable = false := by
      rw [← Bool.not_eq_true]
      intro hreusable
      rw [Kind.isQuantified_of_reusable hreusable] at hquantified
      cases hquantified
    obtain ⟨b, n, hsub, htreated, rfl, hticked, _⟩ := once s hs hkind
    obtain ⟨chain, hchain, hall⟩ := htreated.ticked hticked e he
    exact ⟨chain, hchain, fun r hr => hsub (hall r hr).fold_mem⟩
  case nonempty =>
    intro q x body value hs
    cases hkind : (Kind.quantified q value).isReusable with
    | true => exact nonempty _ hs hkind
    | false =>
        obtain ⟨y, hy, _⟩ := hwitness q x body value hs hkind
        exact ⟨y, hy⟩
  case every =>
    intro q x body value hs hkind y hy
    obtain ⟨b, n, hsub, htreated, hsigned, hmem⟩ := every _ hs hkind y hy
    exact hsub (htreated.mem_instance hsigned hmem)
  case witness =>
    intro q x body value hs hkind
    obtain ⟨y, _, hy⟩ := hwitness q x body value hs hkind
    exact ⟨y, hy⟩

namespace Tableau

variable {premises : List Signed} {t : Tableau} {b : List Node} {n : Node}

/-- A node on an open branch of a saturated tableau is ticked, or reusable with an instance for every term. -/
theorem Saturated.ticked_or (hvalid : Valid t) (h : Saturated t) (hb : b ∈ t.tree.branches) (hopen : OpenBranch b)
    (hn : n ∈ b) : n.ticked = true ∨ (n.kind.isReusable = true ∧ t.saturates n = true) := by
  cases hticked : n.ticked with
  | true => exact Or.inl rfl
  | false =>
      have hlabel := Tree.mem_labels_of_mem_branch hb hn
      obtain ⟨m, hnode, hfacts⟩ := h n.id ((hvalid.waiting n.id).2 ⟨n, hlabel, rfl, hticked, hopen n hn⟩)
      obtain rfl := Except.ok.inj ((node_of_mem hvalid.numbered hlabel).symm.trans hnode)
      exact Or.inr hfacts

theorem instances_ne_nil_of_saturates (h : t.saturates n = true) : n.instances ≠ [] := by
  rw [saturates, Bool.and_eq_true, Bool.not_eq_true', List.isEmpty_eq_false_iff] at h
  exact h.1

theorem mem_instances_of_saturates (h : t.saturates n = true) {x : Term} (hx : x ∈ t.terms) : x ∈ n.instances := by
  rw [saturates, Bool.and_eq_true, List.all_eq_true] at h
  exact List.contains_iff_mem.1 (h.2 x hx)

/-- The formulas of an open branch of a saturated tableau are a Hintikka set over its terms. -/
theorem hintikka_of_saturated (hvalid : Valid t) (hthorough : Thorough premises t) (hchecked : Checked t)
    (hsaturated : Saturated t) (hb : b ∈ t.tree.branches) (hopen : OpenBranch b) :
    Hintikka {x | x ∈ t.terms} (asserted b) := by
  have hsettled : ∀ n ∈ b, n.Settled t.terms t.names := fun n hn =>
    hvalid.settled n (Tree.mem_labels_of_mem_branch hb hn)
  have hreused : ∀ n ∈ b, n.kind.isReusable = true → t.saturates n = true := by
    intro n hn hkind
    rcases hsaturated.ticked_or hvalid hb hopen hn with hticked | ⟨_, hsat⟩
    · rw [(hsettled n hn).reusable hkind] at hticked
      cases hticked
    · exact hsat
  apply hintikka_of_treated
  case folded =>
    rintro _ ⟨n, hn, rfl⟩
    exact (hsettled n hn).folded
  case free =>
    rintro _ ⟨n, hn, rfl⟩ x hx
    exact hthorough.free n (Tree.mem_labels_of_mem_branch hb hn) x hx
  case consistent => exact (hchecked b hb hopen).forall_mem
  case once =>
    rintro _ ⟨n, hn, rfl⟩ hkind
    rcases hsaturated.ticked_or hvalid hb hopen hn with hticked | ⟨hreusable, _⟩
    · exact ⟨b, n, subset_rfl, hthorough.treated b hb hopen n hn, rfl, hticked, (hsettled n hn).entered⟩
    · cases hkind.symm.trans hreusable
  case nonempty =>
    rintro _ ⟨n, hn, rfl⟩ hkind
    obtain ⟨y, hy⟩ := List.exists_mem_of_ne_nil _ (instances_ne_nil_of_saturates (hreused n hn hkind))
    exact ⟨y, (hsettled n hn).entered y hy⟩
  case every =>
    rintro _ ⟨n, hn, rfl⟩ hkind x hx
    exact ⟨b, n, subset_rfl, hthorough.treated b hb hopen n hn, rfl, mem_instances_of_saturates (hreused n hn hkind) hx⟩

/-- The branch that ends at the leaf with the given number. -/
def branch (t : Tableau) (leaf : Nat) : List Node :=
  t.tree.trail (·.id == leaf)

theorem branch_of_openLeaf (h : Coherent t) {id leaf : Nat} (hleaf : leaf ∈ t.openLeavesBelow id) :
    t.branch leaf ∈ t.tree.branches ∧ OpenBranch (t.branch leaf) := by
  obtain ⟨n, up, hb, rfl, hopen, _⟩ := (mem_openLeavesBelow h.numbered h.agree).1 hleaf
  rw [branch, h.numbered.trail_eq_branch hb]
  exact ⟨hb, h.agree.openBranch hb hopen⟩

end Tableau

/-- What makes all formulas of a branch true makes the premises true that it states. -/
theorem Diligent.premises_hold {premises : List Signed} {t : Tableau} {b : List Node} {D : Type u} {M : Structure D}
    {a : Term → D} (h : Diligent premises t) (hb : b ∈ t.tree.branches) (hholds : ∀ n ∈ b, n.signed.Holds M a) :
    ∀ s ∈ premises, s.Holds M a := by
  intro s hs
  obtain ⟨n, hn, heq⟩ := h.stated s hs b hb
  rw [← Signed.holds_fold, ← heq]
  exact hholds n hn

theorem Thorough.premises_hold {premises : List Signed} {t : Tableau} {b : List Node} {D : Type u} {M : Structure D}
    {a : Term → D} (h : Thorough premises t) (hb : b ∈ t.tree.branches) (hholds : ∀ n ∈ b, n.signed.Holds M a) :
    ∀ s ∈ premises, s.Holds M a :=
  h.diligent.premises_hold hb hholds

/-- When a search ends with nothing left to do, the terms of the tableau with the atoms that an open branch asserts
are a model of everything on the branch and of all premises; and if there are no terms, so is every structure that
agrees with the branch on the sentence letters. -/
theorem saturated_branch_describes_model {o : Options} {s : Signed} {steps : List Step} {limits : Limits} {k n : Nat}
    {t : Tableau} (hseed : o.seedConstants = true) (hsteps : ∀ step ∈ steps, ∀ id, step ≠ .remove id)
    (hverdict : ((Tableau.start o s).run steps).search limits = (.ok (.saturated k n), t)) {leaf : Nat}
    (hleaf : leaf ∈ t.openLeavesBelow t.tree.root.id) :
    (∀ a : Term → {x | x ∈ t.terms}, (∀ x : {x | x ∈ t.terms}, a x = x) →
      (∀ m ∈ t.branch leaf, m.signed.Holds (termStructure {x | x ∈ t.terms} (asserted (t.branch leaf))) a) ∧
      ∀ r ∈ s :: (Tableau.start o s).premises steps,
        r.Holds (termStructure {x | x ∈ t.terms} (asserted (t.branch leaf))) a) ∧
    (t.terms = [] → ∀ (D : Type u) (M : Structure D),
      (∀ p, M.rel p [] ↔ (⟨.atom ⟨p, []⟩, true⟩ : Signed) ∈ asserted (t.branch leaf)) → ∀ a : Term → D,
      (∀ m ∈ t.branch leaf, m.signed.Holds M a) ∧ ∀ r ∈ s :: (Tableau.start o s).premises steps, r.Holds M a) := by
  have hrun := Tableau.valid_run o s steps
  have hvalid := Tableau.valid_search hrun limits
  have hthorough := Thorough.lasting.search hrun (Thorough.run hseed hsteps) limits
  have hchecked := Checked.search hrun limits
  have hsaturated : Tableau.Saturated t := Tableau.accords_search hverdict
  rw [hverdict] at hvalid hthorough hchecked
  obtain ⟨hb, hopen⟩ := Tableau.branch_of_openLeaf hvalid.toCoherent hleaf
  have hhintikka := Tableau.hintikka_of_saturated hvalid hthorough hchecked hsaturated hb hopen
  constructor
  · intro a ha
    have hholds : ∀ m ∈ t.branch leaf, m.signed.Holds _ a := fun m hm =>
      hhintikka.holds (depicts_termStructure ha) ⟨m, hm, rfl⟩
    exact ⟨hholds, hthorough.premises_hold hb hholds⟩
  · intro hterms D M hM a
    have hempty : {x | x ∈ t.terms} = (∅ : Set Term) := by simp [hterms]
    rw [hempty] at hhintikka
    have hholds : ∀ m ∈ t.branch leaf, m.signed.Holds M a := fun m hm =>
      hhintikka.holds (depicts_of_no_terms hM a) ⟨m, hm, rfl⟩
    exact ⟨hholds, hthorough.premises_hold hb hholds⟩

/-- `P` of `a`, or `Q` of everything. -/
def someOrAll : Signed :=
  ⟨.binary .disjunction (.atom (.of "P" [⟨"a"⟩])) (.quantified .universal ⟨"x"⟩ (.atom (.of "Q" [⟨"x"⟩]))), true⟩

/-- The search with `P` of `a` denied. -/
def someOrAllSearch : Except Refusal Verdict × Tableau :=
  ((Tableau.start {} someOrAll).run [.assume ⟨.atom (.of "P" [⟨"a"⟩]), false⟩]).search {}

/-- With `P` of `a` denied, the branch for the other alternative stays open and describes a model. -/
theorem saturated_branch_describes_model_witness :
    someOrAllSearch.1 = .ok (.saturated 2 1) ∧
    4 ∈ someOrAllSearch.2.openLeavesBelow someOrAllSearch.2.tree.root.id ∧ someOrAllSearch.2.terms = [⟨"a"⟩] ∧
    ∀ a : Term → {x | x ∈ someOrAllSearch.2.terms}, (∀ x : {x | x ∈ someOrAllSearch.2.terms}, a x = x) →
      ∀ m ∈ someOrAllSearch.2.branch 4,
        m.signed.Holds (termStructure {x | x ∈ someOrAllSearch.2.terms} (asserted (someOrAllSearch.2.branch 4))) a := by
  have hverdict : someOrAllSearch.1 = .ok (.saturated 2 1) := by decide +kernel
  have hleaf : 4 ∈ someOrAllSearch.2.openLeavesBelow someOrAllSearch.2.tree.root.id := by decide +kernel
  refine ⟨hverdict, hleaf, by decide +kernel, fun a ha => ?_⟩
  have hsteps : ∀ step ∈ [Step.assume ⟨.atom (.of "P" [⟨"a"⟩]), false⟩], ∀ id, step ≠ .remove id := by
    intro step hstep id
    rw [List.mem_singleton.1 hstep]
    exact fun h => by cases h
  exact ((saturated_branch_describes_model.{0} (by decide) hsteps (Prod.ext hverdict rfl) hleaf).1 a ha).1

end Tableaux
