import Mathlib
import Tableaux.Proofs.Removal
import Tableaux.Session

/-!
Runs of a session. Every step, taken or refused, keeps the bookkeeping of a tableau right, so it is right after every
run. A search is a run of checks, developments without a given term, and deferrals.
-/

namespace Tableaux

namespace Tableau

variable {t : Tableau}

/-- The tableau after the given steps. -/
def run (t : Tableau) : List Step → Tableau
  | [] => t
  | step :: steps => (t.perform step).2.run steps

theorem run_append (t : Tableau) (steps steps' : List Step) : t.run (steps ++ steps') = (t.run steps).run steps' := by
  induction steps generalizing t with
  | nil => rfl
  | cons step steps ih => exact ih _

/-- What every step keeps is kept by every run. -/
theorem run_induction {P : Tableau → Prop} (hstep : ∀ t step, P t → P (t.perform step).2) (h : P t)
    (steps : List Step) : P (t.run steps) := by
  induction steps generalizing t with
  | nil => exact h
  | cons step steps ih => exact ih (hstep t step h)

section Search

variable {P : Tableau → Prop} (hcheck : ∀ t id, P t → P (t.checkClosed id).2)
  (hdevelop : ∀ t id, P t → P (t.develop id none).2) (hdefer : ∀ t id, P t → P (t.defer id).2)
include hdevelop hdefer

theorem advance_induction (h : P t) (id : Nat) : P (t.advance id).2 := by
  rw [advance]
  split
  · exact h
  · have hdeveloped := hdevelop t id h
    split
    · rename_i t' heq
      rw [heq] at hdeveloped
      split
      · have hdeferred := hdefer t' id hdeveloped
        split
        · rename_i heq
          rw [heq] at hdeferred
          exact hdeferred
        · rename_i heq
          rw [heq] at hdeferred
          exact hdeferred
      · exact hdeveloped
    · rename_i answer t' _ heq
      rw [heq] at hdeveloped
      exact hdeveloped

theorem searchFrom_induction (limits : Limits) (left steps : Nat) (h : P t) :
    P (searchFrom limits left steps t).2 := by
  induction left generalizing t steps with
  | zero =>
      rw [searchFrom]
      split <;> exact h
  | succ left ih =>
      rw [searchFrom]
      split
      · exact h
      · split
        · exact h
        · split
          · exact h
          · exact h
          · rename_i id _
            have hadvanced := advance_induction hdevelop hdefer h id
            split
            · rename_i heq
              rw [heq] at hadvanced
              exact hadvanced
            · rename_i heq
              rw [heq] at hadvanced
              exact hadvanced
            · rename_i t' heq
              rw [heq] at hadvanced
              exact ih (steps + 1) hadvanced

include hcheck

/-- What checks, developments and deferrals keep is kept by every search. -/
theorem search_induction (limits : Limits) (h : P t) : P (t.search limits).2 := by
  rw [search]
  have hchecked := hcheck t t.tree.root.id h
  split
  · rename_i heq
    rw [heq] at hchecked
    exact hchecked
  · rename_i heq
    rw [heq] at hchecked
    exact searchFrom_induction hdevelop hdefer limits limits.steps 0 hchecked

end Search

theorem firstWhere_eq_none {p : Node → Bool} {ids : List Nat} (h : t.firstWhere p ids = .ok none) :
    ∀ id ∈ ids, ∃ n, t.node id = .ok n ∧ p n = false := by
  induction ids with
  | nil => exact fun id hid => by cases hid
  | cons i ids ih =>
      rw [firstWhere] at h
      split at h
      · cases h
      · rename_i n hnode
        split at h
        · cases h
        · rename_i hp
          intro id hid
          rcases List.mem_cons.1 hid with rfl | hid
          · exact ⟨n, hnode, Bool.not_eq_true _ ▸ hp⟩
          · exact ih h id hid

/-- Nothing is left to be done: every waiting node is reusable and has an instance for every term. -/
def Saturated (t : Tableau) : Prop :=
  ∀ id ∈ t.worklist, ∃ n, t.node id = .ok n ∧ n.kind.isReusable = true ∧ t.saturates n = true

/-- What a verdict says of the tableau that the search ends with. -/
def Accords (t : Tableau) : Verdict → Prop
  | .closed _ _ => t.openBranches = 0
  | .saturated _ _ => Saturated t
  | .unknown _ _ => True

/-- If nothing is selected, only reusable nodes wait. -/
theorem firstWhere_of_select_none {limits : Limits} (h : t.select limits = .ok none) :
    t.firstWhere (fun n => !n.kind.isReusable) t.worklist = .ok none := by
  rw [select] at h
  split at h
  · assumption
  · exact h

/-- With nothing left to select, the verdict is that all is done, or that there was no room for more instances. -/
theorem accords_conclude {limits : Limits} {steps : Nat} {v : Verdict} (hselect : t.select limits = .ok none)
    (hconclude : t.conclude limits steps = .ok v) : t.Accords v := by
  have hreusable := firstWhere_of_select_none hselect
  rw [conclude] at hconclude
  split at hconclude
  · cases hconclude
  · cases hconclude
    trivial
  · rename_i hsaturated
    cases hconclude
    intro id hid
    obtain ⟨n, hnode, hkind⟩ := firstWhere_eq_none hreusable id hid
    obtain ⟨m, hnode', hsat⟩ := firstWhere_eq_none hsaturated id hid
    obtain rfl := Except.ok.inj (hnode.symm.trans hnode')
    exact ⟨n, hnode, by simpa using hkind, by simpa using hsat⟩

theorem accords_searchFrom {limits : Limits} {left steps : Nat} {v : Verdict} {t' : Tableau}
    (h : searchFrom limits left steps t = (.ok v, t')) : t'.Accords v := by
  induction left generalizing t steps with
  | zero =>
      rw [searchFrom] at h
      split at h
      · rename_i hclosed
        cases h
        exact hclosed
      · cases h
        trivial
  | succ left ih =>
      rw [searchFrom] at h
      split at h
      · rename_i hclosed
        cases h
        exact hclosed
      · split at h
        · cases h
          trivial
        · split at h
          · cases h
          · rename_i hselect
            obtain ⟨hconclude, rfl⟩ := Prod.mk.inj h
            exact accords_conclude hselect hconclude
          · split at h
            · cases h
            · cases h
              trivial
            · exact ih h

/-- A search ends as its verdict says. -/
theorem accords_search {limits : Limits} {v : Verdict} {t' : Tableau} (h : t.search limits = (.ok v, t')) :
    t'.Accords v := by
  rw [search] at h
  split at h
  · cases h
  · exact accords_searchFrom h

theorem checkClosed_cases (t : Tableau) (id : Nat) :
    (t.checkClosed id).2 = t ∨ (t.checkClosed id).2 = (t.closeBranches id).1 := by
  rw [checkClosed]
  split
  · exact Or.inl rfl
  · exact Or.inr rfl

theorem closesTo_checkClosed (t : Tableau) (id : Nat) : t.ClosesTo (t.checkClosed id).2 := by
  rcases checkClosed_cases t id with heq | heq
  · rw [heq]
    exact .refl t
  · rw [heq]
    exact closesTo_closeBranches t id

theorem defer_cases (t : Tableau) (id : Nat) : (t.defer id).2 = t ∨ (t.defer id).2 = t.sendToBack id := by
  rw [defer]
  split
  · exact Or.inl rfl
  · exact Or.inr rfl

theorem valid_closeBranches (h : Valid t) (id : Nat) : Valid (t.closeBranches id).1 :=
  h.closesTo (closesTo_closeBranches t id) (coherent_closeBranches h.toCoherent id)

theorem valid_checkClosed (h : Valid t) (id : Nat) : Valid (t.checkClosed id).2 := by
  rcases checkClosed_cases t id with heq | heq
  · rw [heq]
    exact h
  · rw [heq]
    exact valid_closeBranches h id

theorem perm_sendToBack (t : Tableau) (id : Nat) : (t.sendToBack id).worklist.Perm t.worklist := by
  rw [sendToBack]
  split
  · rename_i hid
    have hmem : id ∈ t.worklist := List.contains_iff_mem.1 hid
    exact (List.perm_append_singleton id _).trans (List.perm_cons_erase hmem).symm
  · exact .refl _

/-- Sending a node to the back changes the worklist only. -/
theorem sendToBack_eq (t : Tableau) (id : Nat) :
    t.sendToBack id = { t with worklist := (t.sendToBack id).worklist } := by
  rw [sendToBack]
  split <;> rfl

theorem valid_sendToBack (h : Valid t) (id : Nat) : Valid (t.sendToBack id) := by
  have hperm := perm_sendToBack t id
  rw [sendToBack_eq]
  refine ⟨⟨⟨h.numbered, h.id_lt, h.ordered, h.count⟩, ⟨h.agree, hperm.nodup_iff.2 h.nodup, ?_⟩,
    ⟨h.compared, h.refuted⟩, h.openBranches_eq⟩, h.settled⟩
  exact fun i => hperm.mem_iff.trans (h.waiting i)

theorem valid_defer (h : Valid t) (id : Nat) : Valid (t.defer id).2 := by
  rcases defer_cases t id with heq | heq
  · rw [heq]
    exact h
  · rw [heq]
    exact valid_sendToBack h id

theorem valid_develop (h : Valid t) (id : Nat) (term : Option Term) : Valid (t.develop id term).2 := by
  rcases develop_cases h id term with ⟨_, _, heq⟩ | ⟨_, _, _, heq⟩ | ⟨_, _, t', _, _, _, _, _, hvalid, heq⟩
  · rw [heq]
    exact h
  · rw [heq]
    exact h
  · rw [heq]
    exact valid_closeBranches hvalid id

theorem valid_advance (h : Valid t) (id : Nat) : Valid (t.advance id).2 :=
  advance_induction (P := Valid) (fun _ id h => valid_develop h id none) (fun _ id h => valid_defer h id) h id

/-- The tableau with another premise below a leaf. -/
def stated (t : Tableau) (s : Signed) (leaf : Nat) : Tableau :=
  { t with terms := seed t.options t.terms s.formula }.attach leaf (.cons (.ofSigned t.slots s none) .nil .nil)

theorem exists_branch_of_leaves_singleton {tree : Tree Node} {leaf : Node} (h : tree.leaves = [leaf]) :
    ∃ up, tree.branches = [leaf :: up] := by
  have hheads : tree.branches.filterMap List.head? = [leaf] := (Forest.leaves_eq_heads [] tree.toForest).trans h
  cases hbranches : tree.branches with
  | nil => exact absurd hbranches tree.branches_ne_nil
  | cons b rest =>
      have hb : b ∈ tree.branches := by
        rw [hbranches]
        exact List.mem_cons_self
      obtain ⟨n, up, rfl⟩ := Tree.exists_cons_of_mem_branches hb
      rw [hbranches, List.filterMap_cons] at hheads
      obtain ⟨rfl, hrest⟩ := List.cons.inj hheads
      cases rest with
      | nil => exact ⟨up, rfl⟩
      | cons c rest =>
          have hc : c ∈ tree.branches := by
            rw [hbranches]
            exact List.mem_cons_of_mem _ List.mem_cons_self
          obtain ⟨m, up', rfl⟩ := Tree.exists_cons_of_mem_branches hc
          cases hrest

/-- A premise is refused, or put below the only leaf, which is open. -/
theorem assume_cases (t : Tableau) (s : Signed) :
    (∃ refusal, t.assume s = (.error refusal, t)) ∨
    ∃ leaf up, t.tree.branches = [leaf :: up] ∧ leaf.branchClosed = false ∧
      t.assume s = (.ok t.slots, t.stated s leaf.id) := by
  rw [assume]
  split
  · rename_i leaf hleaves
    obtain ⟨up, hbranches⟩ := exists_branch_of_leaves_singleton hleaves
    cases hclosed : leaf.branchClosed with
    | true => exact Or.inl ⟨.closedBranch leaf.id, rfl⟩
    | false => exact Or.inr ⟨leaf, up, hbranches, hclosed, rfl⟩
  · exact Or.inl ⟨_, rfl⟩

theorem mem_seed {o : Options} {terms : List Term} {f : Formula} {x : Term} :
    x ∈ seed o terms f ↔ x ∈ terms ∨ (o.seedConstants = true ∧ x ∈ f.freeTerms) := by
  rw [seed]
  split
  · rename_i hseed
    rw [Term.mem_foldl_enter]
    simp [hseed]
  · rename_i hseed
    simp [hseed]

theorem valid_stated (h : Valid t) (s : Signed) {leaf : Node} {up : List Node}
    (hleaf : leaf :: up ∈ t.tree.branches) (hopen : leaf.branchClosed = false) : Valid (t.stated s leaf.id) := by
  have hterms : ∀ x ∈ t.terms, x ∈ seed t.options t.terms s.formula := fun x hx => mem_seed.2 (Or.inl hx)
  -- the terms play no part in the bookkeeping
  have hseeded : Valid { t with terms := seed t.options t.terms s.formula } :=
    ⟨⟨⟨h.numbered, h.id_lt, h.ordered, h.count⟩, ⟨h.agree, h.nodup, h.waiting⟩, ⟨h.compared, h.refuted⟩,
      h.openBranches_eq⟩, fun n hn => (h.settled n hn).mono hterms fun x hx => hx⟩
  have hnum := Forest.numberedFrom_singleton t.slots s none
  have hnew := Forest.isNew_singleton t.slots s none
  have hne : Forest.cons (Node.ofSigned t.slots s none) .nil .nil ≠ .nil := fun h => by cases h
  have hcount := openCount_attach hseeded.toIndexed hleaf hopen hne hnew
  refine ⟨⟨hseeded.toIndexed.attach hleaf hnum hne,
    marked_attach hseeded.toIndexed hseeded.toMarked hleaf hopen hnum hne hnew,
    judged_attach hseeded.toIndexed hseeded.toJudged hleaf hne hnew, ?_⟩,
    settled_attach hseeded.toIndexed hleaf hnew hseeded.settled⟩
  exact hseeded.openBranches_eq.trans (Nat.add_right_cancel hcount).symm

theorem valid_assume (h : Valid t) (s : Signed) : Valid (t.assume s).2 := by
  rcases assume_cases t s with ⟨_, heq⟩ | ⟨leaf, up, hbranches, hopen, heq⟩
  · rw [heq]
    exact h
  · rw [heq]
    exact valid_stated h s (by rw [hbranches]; exact List.mem_cons_self) hopen

theorem branches_start (o : Options) (s : Signed) : (start o s).tree.branches = [[Node.ofSigned 0 s none]] := rfl

theorem labels_start (o : Options) (s : Signed) : (start o s).tree.labels = [Node.ofSigned 0 s none] := rfl

theorem valid_start (o : Options) (s : Signed) : Valid (start o s) where
  numbered := List.nodup_singleton _
  id_lt n hn := by
    rw [labels_start, List.mem_singleton] at hn
    rw [hn]
    exact Nat.zero_lt_one
  ordered b hb := by
    rw [branches_start, List.mem_singleton] at hb
    rw [hb]
    exact List.pairwise_singleton _ _
  count := rfl
  agree := Forest.marksAgree_of_forall_open fun n hn => by
    rw [List.mem_singleton.1 hn]
    rfl
  nodup := nodup_pending (Forest.numberedFrom_singleton 0 s none)
  waiting id := by
    refine mem_pending.trans ⟨?_, ?_⟩
    · rintro ⟨n, hn, hid, hticked⟩
      refine ⟨n, hn, hid, hticked, ?_⟩
      rw [List.mem_singleton.1 hn]
      rfl
    · rintro ⟨n, hn, hid, hticked, _⟩
      exact ⟨n, hn, hid, hticked⟩
  compared b hb := by
    rw [branches_start, List.mem_singleton] at hb
    rw [hb]
    exact List.pairwise_singleton _ _
  refuted leaf up hb hclosed := by
    rw [branches_start, List.mem_singleton] at hb
    obtain ⟨rfl, rfl⟩ := List.cons.inj hb
    cases hclosed
  openBranches_eq := rfl
  settled n hn := by
    have hnames : ∀ x ∈ n.signed.formula.identifiers, x ∈ (start o s).names :=
      fun x hx => mem_enterNames.2 (Or.inr ⟨n, hn, hx⟩)
    rw [labels_start, List.mem_singleton] at hn
    rw [hn] at hnames ⊢
    exact Node.settled_ofSigned hnames _

theorem valid_search (h : Valid t) (limits : Limits) : Valid (t.search limits).2 :=
  search_induction (P := Valid) (fun _ id h => valid_checkClosed h id) (fun _ id h => valid_develop h id none)
    (fun _ id h => valid_defer h id) limits h

/-- Every step keeps the bookkeeping right. -/
theorem valid_perform (h : Valid t) (step : Step) : Valid (t.perform step).2 := by
  cases step with
  | assume s => exact valid_assume h s
  | develop id term => exact valid_develop h id term
  | remove id => exact valid_remove h id
  | checkClosed id => exact valid_checkClosed h id
  | defer id => exact valid_defer h id
  | search limits => exact valid_search h limits

theorem valid_run (o : Options) (s : Signed) (steps : List Step) : Valid ((start o s).run steps) :=
  run_induction (P := Valid) (fun _ step h => valid_perform h step) (valid_start o s) steps

end Tableau

end Tableaux
