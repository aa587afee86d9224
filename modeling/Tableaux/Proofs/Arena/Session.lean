import Mathlib
import Tableaux.Arena.Session
import Tableaux.Proofs.Arena.Growth
import Tableaux.Proofs.Arena.Removal
import Tableaux.Proofs.Runs

/-!
Sessions in the arena and in the tree. A search asks both the same questions and gets the same answers, so that every
step taken in the arena succeeds, answers as in the tree, and leaves an arena that stands for the tableau. By induction
this holds of whole runs.
-/

namespace Tableaux

namespace Arena

variable {a : Arena} {t : Tableau}

/-! Snapshots. -/

theorem snapshot_forest {up : Option Nat} {f : Forest Node} (h : a.Holds up f) {rounds : Nat}
    (hrounds : f.size ≤ rounds) :
    (f.roots.map Node.id).mapM (a.snapshotFrom rounds) = some (f.map Node.snapshot).trees := by
  induction f generalizing up rounds with
  | nil => rfl
  | cons n below beside ihb ihs =>
      rw [Forest.size] at hrounds
      obtain ⟨rounds, rfl⟩ : ∃ k, rounds = k + 1 := ⟨rounds - 1, by omega⟩
      have hbelow := ihb h.2.1 (show below.size ≤ rounds by omega)
      have hbeside := ihs h.2.2 (show beside.size ≤ rounds + 1 by omega)
      have hroot : a.snapshotFrom (rounds + 1) n.id = some ⟨n.snapshot, below.map Node.snapshot⟩ := by
        rw [snapshotFrom, h.1]
        simp only [Option.bind_eq_bind, Option.bind_some, hbelow, Forest.ofTrees_trees]
        rfl
      rw [Forest.roots, List.map_cons, List.mapM_cons, hroot, hbeside, Forest.map, Forest.trees]
      rfl

theorem Represents.snapshot_eq (h : a.Represents t) (hi : Indexed t) : a.snapshot = some t.snapshot := by
  have hsize : t.tree.toForest.size ≤ a.slots.length := hi.size_le.trans h.length.ge
  have hforest := snapshot_forest h.holds hsize
  rw [Tree.toForest, Forest.roots, Forest.roots, List.map_cons, List.map_nil, List.mapM_cons, List.mapM_nil, ← h.root]
    at hforest
  rw [snapshot]
  cases hfrom : a.snapshotFrom a.slots.length a.root with
  | none =>
      rw [hfrom] at hforest
      cases hforest
  | some s =>
      rw [hfrom] at hforest
      obtain ⟨rfl, _⟩ := List.cons.inj (Option.some.inj hforest)
      rfl

/-! The questions of a search. -/

namespace Represents

variable (h : a.Represents t)

include h

theorem saturates_eq (n : Node) : a.saturates n = t.saturates n := by
  rw [saturates, h.terms]
  rfl

theorem isInstantiable_eq (limits : Limits) : a.isInstantiable limits = t.isInstantiable limits := by
  funext n
  rw [isInstantiable, h.saturates_eq]
  rfl

variable (hi : Indexed t)

include hi

theorem firstWhere_eq (p : Node → Bool) (ids : List Nat) : a.firstWhere p ids = t.firstWhere p ids := by
  induction ids with
  | nil => rfl
  | cons id ids ih =>
      rw [firstWhere, Tableau.firstWhere]
      rcases h.live_eq hi id with ⟨n, s, hnode, hlive, rfl, _⟩ | ⟨refusal, hnode, hlive⟩
      · rw [hnode, hlive, ih]
      · rw [hnode, hlive]

theorem select_eq (limits : Limits) : a.select limits = t.select limits := by
  rw [select, h.isInstantiable_eq, h.worklist, h.firstWhere_eq hi, h.firstWhere_eq hi]
  rfl

theorem conclude_eq (limits : Limits) (steps : Nat) : a.conclude limits steps = t.conclude limits steps := by
  have hsaturates : (fun n => !a.saturates n) = fun n => !t.saturates n := by
    funext n
    rw [h.saturates_eq]
  rw [conclude, hsaturates, h.worklist, h.openBranches, h.firstWhere_eq hi]
  rfl

end Represents

/-! The steps of a session. -/

theorem advance_sim (h : a.Represents t) (hv : Valid t) (id : Nat) : Simulates (a.advance id) (t.advance id) := by
  rw [advance, Tableau.advance]
  rcases h.live_eq hv.toIndexed id with ⟨n, s, hnode, hlive, rfl, _⟩ | ⟨refusal, hnode, hlive⟩
  · obtain ⟨a₁, hdevelop, h₁⟩ := develop_sim h hv id none
    have hvalid := Tableau.valid_develop hv id none
    rw [hnode, hlive]
    simp only [hdevelop, Option.bind_eq_bind, Option.bind_some]
    generalize t.develop id none = developed at h₁ hvalid ⊢
    obtain ⟨answer, t₁⟩ := developed
    rcases answer with refusal | _ | _
    · exact ⟨a₁, rfl, h₁⟩
    · exact ⟨a₁, rfl, h₁⟩
    · by_cases hreusable : s.node.kind.isReusable
      · obtain ⟨a₂, hdefer, h₂⟩ := defer_sim h₁ hvalid.toIndexed id
        rw [Option.some.injEq] at hdefer
        simp only [hreusable, if_true, hdefer]
        generalize t₁.defer id = deferred at h₂ ⊢
        obtain ⟨answer, t₂⟩ := deferred
        rcases answer with refusal | _
        · exact ⟨a₂, rfl, h₂⟩
        · exact ⟨a₂, rfl, h₂⟩
      · simp only [hreusable]
        exact ⟨a₁, rfl, h₁⟩
  · rw [hnode, hlive]
    exact ⟨a, rfl, h⟩

theorem searchFrom_sim (h : a.Represents t) (hv : Valid t) (limits : Limits) (left steps : Nat) :
    Simulates (searchFrom limits left steps a) (t.searchFrom limits left steps) := by
  induction left generalizing a t steps with
  | zero =>
      rw [searchFrom, Tableau.searchFrom, h.openBranches, h.nodeCount]
      split
      · exact ⟨a, rfl, h⟩
      · exact ⟨a, rfl, h⟩
  | succ left ih =>
      rw [searchFrom, Tableau.searchFrom, h.openBranches, h.nodeCount, h.select_eq hv.toIndexed,
        h.conclude_eq hv.toIndexed]
      by_cases hclosed : t.openBranches = 0
      · rw [if_pos hclosed, if_pos hclosed]
        exact ⟨a, rfl, h⟩
      by_cases hnodes : limits.nodes ≤ t.nodeCount
      · rw [if_neg hclosed, if_pos hnodes, if_neg hclosed, if_pos hnodes]
        exact ⟨a, rfl, h⟩
      rw [if_neg hclosed, if_neg hnodes, if_neg hclosed, if_neg hnodes]
      rcases t.select limits with refusal | _ | id
      · exact ⟨a, rfl, h⟩
      · exact ⟨a, rfl, h⟩
      · obtain ⟨a₁, hadvance, h₁⟩ := advance_sim h hv id
        have hvalid := Tableau.valid_advance hv id
        simp only [hadvance, Option.bind_eq_bind, Option.bind_some]
        generalize t.advance id = advanced at h₁ hvalid ⊢
        obtain ⟨answer, t₁⟩ := advanced
        rcases answer with refusal | _ | _
        · exact ⟨a₁, rfl, h₁⟩
        · exact ⟨a₁, rfl, h₁⟩
        · exact ih h₁ hvalid (steps + 1)

theorem search_sim (h : a.Represents t) (hv : Valid t) (limits : Limits) :
    Simulates (a.search limits) (t.search limits) := by
  obtain ⟨a₁, hcheck, h₁⟩ := checkClosed_sim h hv.toCoherent t.tree.root.id
  have hvalid := Tableau.valid_checkClosed hv t.tree.root.id
  rw [search, Tableau.search, h.root]
  simp only [hcheck, Option.bind_eq_bind, Option.bind_some]
  generalize t.checkClosed t.tree.root.id = checked at h₁ hvalid ⊢
  obtain ⟨answer, t₁⟩ := checked
  rcases answer with refusal | _
  · exact ⟨a₁, rfl, h₁⟩
  · exact searchFrom_sim h₁ hvalid limits limits.steps 0

theorem Simulates.map {α β : Type} {r : Option (α × Arena)} {x : α × Tableau} (h : Simulates r x) (f : α → β) :
    Simulates (r.bind fun r => some (f r.1, r.2)) (f x.1, x.2) := by
  obtain ⟨a, rfl, ha⟩ := h
  exact ⟨a, rfl, ha⟩

/-- Every step succeeds in the arena, with the answer that it has in the tree. -/
theorem perform_sim (h : a.Represents t) (hv : Valid t) (step : Step) :
    Simulates (a.perform step) (t.perform step) := by
  cases step with
  | assume s => exact (assume_sim h hv.toIndexed s).map (Except.map Answer.added)
  | develop id term => exact (develop_sim h hv id term).map (Except.map Answer.developed)
  | remove id => exact (remove_sim h hv id).map (Except.map Answer.removed)
  | checkClosed id => exact (checkClosed_sim h hv.toCoherent id).map (Except.map Answer.closed)
  | defer id => exact (defer_sim h hv.toIndexed id).map (Except.map fun _ => Answer.deferred)
  | search limits => exact (search_sim h hv limits).map (Except.map Answer.verdict)

/-- Whole runs succeed in the arena, and leave an arena that stands for what the tableau has become. -/
theorem run_sim (h : a.Represents t) (hv : Valid t) (steps : List Step) :
    ∃ a', a.run steps = some a' ∧ a'.Represents (t.run steps) := by
  induction steps generalizing a t with
  | nil => exact ⟨a, rfl, h⟩
  | cons step steps ih =>
      obtain ⟨a₁, hstep, h₁⟩ := perform_sim h hv step
      obtain ⟨a₂, hrun, h₂⟩ := ih h₁ (Tableau.valid_perform hv step)
      refine ⟨a₂, ?_, h₂⟩
      rw [run, hstep]
      exact hrun

end Arena

end Tableaux
