import Mathlib
import Tableaux.Problem
import Tableaux.Proofs.Runs

/-!
The premises of a run: the formula it starts with and every premise that is accepted later. The tableau of a problem
is reached by a run that states its formulas one after the other and then checks the branch; nothing refuses a
formula on the way, so a valid problem always has a tableau.
-/

namespace Tableaux

namespace Tableau

variable {t : Tableau}

/-- The premises that a step adds. -/
def added (t : Tableau) : Step → List Signed
  | .assume s => match t.assume s with
      | (.ok _, _) => [s]
      | (.error _, _) => []
  | _ => []

/-- The premises that are added in a run. -/
def premises (t : Tableau) : List Step → List Signed
  | [] => []
  | step :: steps => t.added step ++ (t.perform step).2.premises steps

theorem premises_append (t : Tableau) (steps steps' : List Step) :
    t.premises (steps ++ steps') = t.premises steps ++ (t.run steps).premises steps' := by
  induction steps generalizing t with
  | nil => rfl
  | cons step steps ih => rw [List.cons_append, premises, ih, premises, List.append_assoc, run]

/-- Every step of a run satisfies a condition on the tableau in which it is taken. -/
def Throughout (p : Tableau → Step → Prop) (t : Tableau) : List Step → Prop
  | [] => True
  | step :: steps => p t step ∧ (t.perform step).2.Throughout p steps

theorem throughout_append {p : Tableau → Step → Prop} {steps steps' : List Step} :
    t.Throughout p (steps ++ steps') ↔ t.Throughout p steps ∧ (t.run steps).Throughout p steps' := by
  induction steps generalizing t with
  | nil => simp [Throughout, run]
  | cons step steps ih => rw [List.cons_append, Throughout, Throughout, ih, run, and_assoc]

theorem throughout_of_forall {p : Tableau → Step → Prop} {steps : List Step} (h : ∀ step ∈ steps, ∀ t, p t step) :
    t.Throughout p steps := by
  induction steps generalizing t with
  | nil => trivial
  | cons step steps ih =>
      exact ⟨h step List.mem_cons_self t, ih fun step hstep => h step (List.mem_cons_of_mem _ hstep)⟩

end Tableau

/-- What steps that satisfy `p` keep between a tableau and its premises: it is enough to look at the closing of
branches, the order of the worklist, a new premise and the application of one rule. Removals are left out. -/
structure Lasting (p : Tableau → Step → Prop) (P : List Signed → Tableau → Prop) : Prop where
  remove : ∀ {t id}, ¬ p t (.remove id)
  unprompted : ∀ {t id}, p t (.develop id none)
  closesTo : ∀ {premises t t'}, P premises t → t.ClosesTo t' → P premises t'
  sendToBack : ∀ {premises t} (id : Nat), P premises t → P premises (t.sendToBack id)
  stated : ∀ {premises t s leaf up}, Valid t → P premises t → t.tree.branches = [leaf :: up] → p t (.assume s) →
    P (premises ++ [s]) (t.stated s leaf.id)
  applied : ∀ {premises t t' n e} {term : Option Term}, Valid t → P premises t → n ∈ t.tree.labels →
    p t (.develop n.id term) → n.signed.expansion (t.given n term) = some e →
    Applied n (t.given n term) e (t.openLeavesBelow n.id) t t' → P premises t'

namespace Lasting

variable {p : Tableau → Step → Prop} {P : List Signed → Tableau → Prop} (hP : Lasting p P)
  {premises : List Signed} {t : Tableau}
include hP

theorem develop (hvalid : Valid t) (h : P premises t) {id : Nat} {term : Option Term} (hstep : p t (.develop id term)) :
    P premises (t.develop id term).2 := by
  rcases Tableau.develop_cases hvalid id term with
    ⟨_, _, heq⟩ | ⟨_, _, _, heq⟩ | ⟨n, e, t', hnode, _, _, hexpansion, happlied, _, heq⟩
  · rw [heq]
    exact h
  · rw [heq]
    exact h
  · rw [heq]
    obtain ⟨hn, rfl⟩ := Tableau.node_eq_ok hnode
    exact hP.closesTo (hP.applied hvalid h hn hstep hexpansion happlied) (Tableau.closesTo_closeBranches t' n.id)

theorem checkClosed (h : P premises t) (id : Nat) : P premises (t.checkClosed id).2 :=
  hP.closesTo h (Tableau.closesTo_checkClosed t id)

theorem defer (h : P premises t) (id : Nat) : P premises (t.defer id).2 := by
  rcases Tableau.defer_cases t id with heq | heq
  · rw [heq]
    exact h
  · rw [heq]
    exact hP.sendToBack id h

theorem search (hvalid : Valid t) (h : P premises t) (limits : Limits) : P premises (t.search limits).2 := by
  refine (Tableau.search_induction (P := fun t => Valid t ∧ P premises t) ?_ ?_ ?_ limits ⟨hvalid, h⟩).2
  · exact fun t id h => ⟨Tableau.valid_checkClosed h.1 id, hP.checkClosed h.2 id⟩
  · exact fun t id h => ⟨Tableau.valid_develop h.1 id none, hP.develop h.1 h.2 hP.unprompted⟩
  · exact fun t id h => ⟨Tableau.valid_defer h.1 id, hP.defer h.2 id⟩

theorem perform (hvalid : Valid t) (h : P premises t) {step : Step} (hstep : p t step) :
    P (premises ++ t.added step) (t.perform step).2 := by
  cases step with
  | assume s =>
      rcases Tableau.assume_cases t s with ⟨_, heq⟩ | ⟨leaf, up, hpath, _, heq⟩
      · rw [Tableau.added, Tableau.perform, heq, List.append_nil]
        exact h
      · rw [Tableau.added, Tableau.perform, heq]
        exact hP.stated hvalid h hpath hstep
  | develop id term =>
      rw [show t.added (.develop id term) = [] from rfl, List.append_nil]
      exact hP.develop hvalid h hstep
  | remove id => exact absurd hstep hP.remove
  | checkClosed id =>
      rw [show t.added (.checkClosed id) = [] from rfl, List.append_nil]
      exact hP.checkClosed h id
  | defer id =>
      rw [show t.added (.defer id) = [] from rfl, List.append_nil]
      exact hP.defer h id
  | search limits =>
      rw [show t.added (.search limits) = [] from rfl, List.append_nil]
      exact hP.search hvalid h limits

/-- What lasts through every step lasts through a run, with the premises that the run adds. -/
theorem run {steps : List Step} (hvalid : Valid t) (h : P premises t) (hsteps : t.Throughout p steps) :
    P (premises ++ t.premises steps) (t.run steps) := by
  induction steps generalizing t premises with
  | nil =>
      rw [Tableau.premises, List.append_nil]
      exact h
  | cons step steps ih =>
      rw [Tableau.premises, ← List.append_assoc]
      exact ih (Tableau.valid_perform hvalid step) (hP.perform hvalid h hsteps.1) hsteps.2

end Lasting

namespace Tableau

variable {t : Tableau}

/-- The tree is a single path on which nothing has been closed or instantiated. -/
structure Straight (t : Tableau) : Prop where
  path : ∃ leaf up, t.tree.branches = [leaf :: up]
  untouched : ∀ n ∈ t.tree.labels, n.branchClosed = false ∧ n.instances = []

theorem straight_start (o : Options) (s : Signed) : Straight (start o s) where
  path := ⟨_, [], branches_start o s⟩
  untouched n hn := by
    rw [labels_start, List.mem_singleton] at hn
    rw [hn]
    exact ⟨rfl, rfl⟩

theorem mem_branches_stated (h : t.tree.Numbered) (s : Signed) {leaf : Node} {up b : List Node}
    (hleaf : leaf :: up ∈ t.tree.branches) :
    b ∈ (t.stated s leaf.id).tree.branches ↔
      (b ∈ t.tree.branches ∧ ¬ EndsIn [leaf.id] b) ∨ b = .ofSigned t.slots s none :: leaf :: up := by
  have hne : Forest.cons (Node.ofSigned t.slots s none) .nil .nil ≠ .nil := fun h => by cases h
  have hmem := @mem_branches_attach { t with terms := seed t.options t.terms s.formula } leaf up _ h hleaf hne b
  rw [Forest.branches_cons_nil, Forest.branches, List.mem_singleton] at hmem
  exact hmem

theorem mem_labels_stated (h : t.tree.Numbered) (s : Signed) {leaf : Node} {up : List Node} {n : Node}
    (hleaf : leaf :: up ∈ t.tree.branches) :
    n ∈ (t.stated s leaf.id).tree.labels ↔ n ∈ t.tree.labels ∨ n = .ofSigned t.slots s none := by
  have hmem := @mem_labels_attach { t with terms := seed t.options t.terms s.formula } leaf up
    (.cons (.ofSigned t.slots s none) .nil .nil) h hleaf n
  have hnew : n ∈ (Forest.cons (Node.ofSigned t.slots s none) .nil .nil).labels ↔ n = .ofSigned t.slots s none :=
    List.mem_singleton
  rw [hnew] at hmem
  exact hmem

/-- A premise below the end of a single path makes the path longer. -/
theorem branches_stated (h : t.tree.Numbered) (s : Signed) {leaf : Node} {up : List Node}
    (hpath : t.tree.branches = [leaf :: up]) :
    (t.stated s leaf.id).tree.branches = [.ofSigned t.slots s none :: leaf :: up] := by
  have hleaf : leaf :: up ∈ t.tree.branches := by
    rw [hpath]
    exact List.mem_cons_self
  have hbranches : (t.stated s leaf.id).tree.branches = t.tree.branches.flatMap fun c =>
      if c.head?.any (·.id == leaf.id) then [.ofSigned t.slots s none :: c] else [c] := by
    rw [Tree.branches, stated, attach, Tree.toForest_graft]
    exact Forest.branches_graft (fun h => by cases h) (h.leaf_chosen_below hleaf)
  rw [hbranches, hpath]
  simp

/-- On a single open path every premise is accepted, and the path becomes longer. -/
theorem assume_straight (h : Valid t) (hstraight : Straight t) (s : Signed) :
    t.assume s = (.ok t.slots, (t.assume s).2) ∧ Straight (t.assume s).2 := by
  obtain ⟨leaf, up, hpath⟩ := hstraight.path
  have hleaf : leaf :: up ∈ t.tree.branches := by
    rw [hpath]
    exact List.mem_cons_self
  have hopen := (hstraight.untouched leaf (Tree.mem_labels_of_mem_branch hleaf List.mem_cons_self)).1
  have hleaves : t.tree.leaves = [leaf] := by
    rw [Tree.leaves, ← Forest.leaves_eq_heads []]
    change t.tree.branches.filterMap List.head? = [leaf]
    rw [hpath]
    rfl
  have hassume : t.assume s = (.ok t.slots, t.stated s leaf.id) := by
    rw [assume, hleaves]
    simp only [hopen, Bool.false_eq_true, if_false]
    rfl
  rw [hassume]
  refine ⟨rfl, ⟨.ofSigned t.slots s none, leaf :: up, branches_stated h.numbered s hpath⟩, ?_⟩
  intro n hn
  rcases (mem_labels_stated h.numbered s hleaf).1 hn with hn | rfl
  · exact hstraight.untouched n hn
  · exact ⟨rfl, rfl⟩

theorem added_assume_straight (h : Valid t) (hstraight : Straight t) (s : Signed) : t.added (.assume s) = [s] := by
  rw [added, (assume_straight h hstraight s).1]

/-- Stating premises on a single open path is a run that accepts them all. -/
theorem assumeAll_eq (h : Valid t) (hstraight : Straight t) (rest : List Signed) :
    Problem.assumeAll t rest = .ok (t.run (rest.map .assume)) ∧ Straight (t.run (rest.map .assume)) ∧
      t.premises (rest.map .assume) = rest := by
  induction rest generalizing t with
  | nil => exact ⟨rfl, hstraight, rfl⟩
  | cons s rest ih =>
      obtain ⟨hassume, hnext⟩ := assume_straight h hstraight s
      obtain ⟨hall, hlast, hpremises⟩ := ih (valid_assume h s) hnext
      refine ⟨?_, hlast, ?_⟩
      · rw [Problem.assumeAll, hassume]
        exact hall
      · rw [List.map_cons, premises, added_assume_straight h hstraight]
        exact congrArg (s :: ·) hpremises

end Tableau

namespace Problem

open Tableau

theorem signedFormulas_eq_nil_iff {p : Problem} : p.signedFormulas = [] ↔ p.premises = [] ∧ p.conclusion = none := by
  rw [signedFormulas, List.append_eq_nil_iff]
  cases p.conclusion <;> simp

theorem defect?_of_nothing {p : Problem} (h : p.signedFormulas = []) : p.defect? = some .noPremises := by
  obtain ⟨hpremises, hconclusion⟩ := signedFormulas_eq_nil_iff.1 h
  rw [defect?, hpremises, hconclusion]
  rfl

theorem signedFormulas_ne_nil {p : Problem} (h : p.validate = .ok ()) : p.signedFormulas ≠ [] := by
  intro hnil
  rw [validate, defect?_of_nothing hnil] at h
  cases h

/-- The steps that build the tableau of a problem after its first formula. -/
def steps (rest : List Signed) : List Step :=
  rest.map .assume ++ [.checkClosed 0]

theorem root_id_run_assume (o : Options) (first : Signed) (rest : List Signed) :
    ((start o first).run (rest.map .assume)).tree.root.id = 0 := by
  have hroot : ∀ t : Tableau, t.tree.root.id = 0 → (t.run (rest.map .assume)).tree.root.id = 0 := by
    induction rest with
    | nil => exact fun t h => h
    | cons s rest ih =>
        intro t h
        apply ih
        rcases assume_cases t s with ⟨_, heq⟩ | ⟨leaf, up, _, _, heq⟩
        · change (t.assume s).2.tree.root.id = 0
          rw [heq]
          exact h
        · change (t.assume s).2.tree.root.id = 0
          rw [heq]
          exact h
  exact hroot _ rfl

/-- A valid problem has a tableau: the one that a run from its first formula reaches. -/
theorem toTableau_eq {p : Problem} {first : Signed} {rest : List Signed} (hvalid : p.validate = .ok ())
    (hformulas : p.signedFormulas = first :: rest) (o : Options) :
    p.toTableau o = .ok ((start o first).run (steps rest)) := by
  obtain ⟨hall, _, _⟩ := assumeAll_eq (valid_start o first) (straight_start o first) rest
  have hrun : Valid ((start o first).run (rest.map .assume)) := valid_run o first _
  have hcheck : ((start o first).run (rest.map .assume)).checkClosed 0 =
      (.ok ((((start o first).run (rest.map .assume)).closeBranches 0)).2,
        (start o first).run (steps rest)) := by
    have hnode := node_root hrun.numbered
    rw [root_id_run_assume] at hnode
    rw [steps, run_append]
    change _ = (_, (((start o first).run (rest.map .assume)).checkClosed 0).2)
    rw [checkClosed, hnode]
  rw [toTableau, hvalid, hformulas]
  simp only [bind, Except.bind, hall, root_id_run_assume, hcheck]

theorem premises_steps (o : Options) (first : Signed) (rest : List Signed) :
    (start o first).premises (steps rest) = rest := by
  obtain ⟨_, _, hpremises⟩ := assumeAll_eq (valid_start o first) (straight_start o first) rest
  rw [steps, premises_append, hpremises]
  exact List.append_nil rest

/-- A problem with a tableau is valid. -/
theorem validate_of_toTableau {p : Problem} {o : Options} {t : Tableau} (h : p.toTableau o = .ok t) :
    p.validate = .ok () := by
  cases hvalid : p.validate with
  | ok u => rfl
  | error e =>
      rw [toTableau, hvalid] at h
      cases h

end Problem

/-- What lasts as long as nothing is removed is true of the tableau of a problem if it is true of its first formula. -/
theorem Lasting.problem {P : List Signed → Tableau → Prop} (hP : Lasting (fun _ step => ∀ id, step ≠ .remove id) P)
    {o : Options} {first : Signed} (h : P [first] (.start o first)) (rest : List Signed) :
    P (first :: rest) ((Tableau.start o first).run (Problem.steps rest)) := by
  have hsteps : ∀ step ∈ Problem.steps rest, ∀ id, step ≠ .remove id := by
    intro step hstep id heq
    simp [Problem.steps, heq] at hstep
  have hrun := hP.run (Tableau.valid_start o first) h
    (Tableau.throughout_of_forall fun step hstep _ => hsteps step hstep)
  rwa [Problem.premises_steps] at hrun

end Tableaux
