import Mathlib
import Tableaux.Proofs.Saturation

/-!
A search that was cut off can be taken up again. Whatever a search knows is in the tableau: the order of the worklist,
the terms and instances, and which nodes have been compared. A second search starts with a check of the whole tree;
but after the first search every node on an open branch has been compared, so this check finds nothing and changes
nothing, and the second search goes on exactly where the first one stopped.
-/

namespace Tableaux

/-- The reason of a search that went on after `done` developments: with them the limit of steps is that much
higher. -/
def Limitation.after (done : Nat) : Limitation → Limitation
  | steps limit => steps (done + limit)
  | nodes limit => nodes limit
  | instances limit id => instances limit id
  | stuck id => stuck id

/-- The verdict of a search that went on after `done` developments, with these counted in. -/
def Verdict.after (done : Nat) : Verdict → Verdict
  | closed steps nodes => closed (done + steps) nodes
  | saturated steps openBranches => saturated (done + steps) openBranches
  | unknown steps reason => unknown (done + steps) (reason.after done)

/-- Every node on an open branch has been compared with the nodes above it. -/
def Surveyed (t : Tableau) : Prop :=
  ∀ b ∈ t.tree.branches, OpenBranch b → ∀ n ∈ b, n.compared = true

namespace Surveyed

variable {t : Tableau}

/-- Every branch goes through the root, so a check there looks at all of them. -/
theorem checkClosed_root (h : Coherent t) : Surveyed (t.checkClosed t.tree.root.id).2 := by
  rw [Tableau.checkClosed, Tableau.node_root h.numbered]
  intro b hb hopen
  have hroot := Tree.root_mem_of_mem_branches hb
  exact Tableau.compared_closeBranches h hb hopen hroot (Tableau.closesTo_closeBranches t _).root_id

theorem defer (h : Surveyed t) (id : Nat) : Surveyed (t.defer id).2 := by
  rcases Tableau.defer_cases t id with heq | heq
  · rw [heq]
    exact h
  · rw [heq, Tableau.sendToBack_eq]
    exact h

theorem develop (hvalid : Valid t) (h : Surveyed t) (id : Nat) (term : Option Term) :
    Surveyed (t.develop id term).2 := by
  refine Tableau.develop_openBranches hvalid Tableau.compared_of_marked ?_ ?_ h id term
  · intro g b hg hb m hm
    obtain ⟨n, hn, rfl⟩ := List.mem_map.1 hm
    rw [hg.compared]
    exact hb n hn
  · intro u n b hu hb hopen hn
    exact Tableau.compared_closeBranches hu hb hopen hn rfl

/-- A search leaves no node on an open branch that has not been compared. -/
theorem searchFrom (hvalid : Valid t) (h : Surveyed t) (limits : Limits) (left steps : Nat) :
    Valid (Tableau.searchFrom limits left steps t).2 ∧ Surveyed (Tableau.searchFrom limits left steps t).2 := by
  apply Tableau.searchFrom_induction (P := fun t => Valid t ∧ Surveyed t)
  · exact fun t id h => ⟨Tableau.valid_develop h.1 id none, h.2.develop h.1 id none⟩
  · exact fun t id h => ⟨Tableau.valid_defer h.1 id, h.2.defer id⟩
  · exact ⟨hvalid, h⟩

/-- A look along a branch on which every node has been compared finds nothing and changes nothing. -/
theorem checkLeaf_eq (hcoherent : Coherent t) (h : Surveyed t) {leaf : Node} {up : List Node}
    (hleaf : leaf :: up ∈ t.tree.branches) (hopen : leaf.branchClosed = false) :
    t.checkLeaf leaf.id = (t, false) := by
  have hscan : ∀ b : List Node, (∀ n ∈ b, n.compared = true) → Scan.ofBranch b = ⟨[], none⟩ := by
    intro b hb
    induction b with
    | nil => rfl
    | cons n above ih =>
        rw [Scan.ofBranch, if_pos (hb n List.mem_cons_self)]
        exact ih fun m hm => hb m (List.mem_cons_of_mem _ hm)
  have hrecord : t.recordScan ⟨[], none⟩ = t := by
    have hnode : Tableau.recordNode ⟨[], none⟩ = fun n => n := by
      funext n
      simp [Tableau.recordNode]
    have htree : t.tree.map (Tableau.recordNode ⟨[], none⟩) = t.tree := by
      rw [hnode, Tree.map_id]
    change { t with tree := t.tree.map (Tableau.recordNode ⟨[], none⟩) } = t
    rw [htree]
  rw [Tableau.checkLeaf, hcoherent.numbered.trail_eq_branch hleaf,
    hscan _ (h _ hleaf (hcoherent.agree.openBranch hleaf hopen)), hrecord]
  rfl

/-- A check changes nothing, and closes no branch, where every node has been compared. -/
theorem checkClosed_eq (hvalid : Valid t) (h : Surveyed t) :
    t.checkClosed t.tree.root.id = (.ok 0, t) := by
  have hleaves : ∀ leaves : List Nat, OpenLeaves t leaves →
      leaves.foldl (fun (state : Tableau × Nat) leaf =>
        ((state.1.checkLeaf leaf).1, if (state.1.checkLeaf leaf).2 then state.2 + 1 else state.2)) (t, 0) = (t, 0) := by
    intro leaves hopen
    induction leaves with
    | nil => rfl
    | cons l leaves ih =>
        obtain ⟨leaf, up, hb, rfl, hleaf⟩ := hopen l List.mem_cons_self
        rw [List.foldl_cons, h.checkLeaf_eq hvalid.toCoherent hb hleaf]
        exact ih fun l hl => hopen l (List.mem_cons_of_mem _ hl)
  have hclose : t.closeBranches t.tree.root.id = (t, 0) :=
    hleaves _ (Tableau.openLeaves_openLeavesBelow hvalid.toCoherent _)
  rw [Tableau.checkClosed, Tableau.node_root hvalid.numbered]
  simp only [hclose]

end Surveyed

namespace Tableau

variable {t : Tableau}

/-- A search is a check of the whole tree, which is never refused, and then developments one after the other. -/
theorem search_eq (h : Valid t) (limits : Limits) :
    t.search limits = searchFrom limits limits.steps 0 (t.checkClosed t.tree.root.id).2 := by
  rw [search, checkClosed, node_root h.numbered]

/-- The limit of steps is only quoted: counting developments from `done` on, with a limit higher by as much, changes
nothing but the numbers in the verdict. -/
theorem searchFrom_after (limits : Limits) (done left steps : Nat) (t : Tableau) :
    searchFrom { limits with steps := done + limits.steps } left (done + steps) t =
      ((searchFrom limits left steps t).1.map (Verdict.after done), (searchFrom limits left steps t).2) := by
  induction left generalizing steps t with
  | zero =>
      rw [searchFrom, searchFrom]
      split <;> rfl
  | succ left ih =>
      have hselect : t.select { limits with steps := done + limits.steps } = t.select limits := rfl
      rw [searchFrom, searchFrom, hselect]
      by_cases hclosed : t.openBranches = 0
      · rw [if_pos hclosed, if_pos hclosed]
        rfl
      · rw [if_neg hclosed, if_neg hclosed]
        by_cases hnodes : limits.nodes ≤ t.nodeCount
        · rw [if_pos hnodes, if_pos hnodes]
          rfl
        · rw [if_neg hnodes, if_neg hnodes]
          cases t.select limits with
          | error e => rfl
          | ok found =>
              cases found with
              | none =>
                  simp only [conclude]
                  split <;> rfl
              | some id =>
                  simp only
                  split
                  · rfl
                  · rfl
                  · exact ih (steps + 1) _

/-- A verdict that the limit of steps was reached comes after all the developments that were allowed, so a search that
may go on does so from where the other one stopped. -/
theorem searchFrom_cut {limits : Limits} {left steps taken limit : Nat}
    (h : (searchFrom limits left steps t).1 = .ok (.unknown taken (.steps limit))) (allowed more : Nat) :
    searchFrom { limits with steps := allowed } (left + more) steps t =
      searchFrom { limits with steps := allowed } more (steps + left) (searchFrom limits left steps t).2 := by
  induction left generalizing steps t with
  | zero =>
      have hsame : (searchFrom limits 0 steps t).2 = t := by
        rw [searchFrom]
        split <;> rfl
      rw [hsame, Nat.zero_add, Nat.add_zero]
  | succ left ih =>
      have hselect : t.select { limits with steps := allowed } = t.select limits := rfl
      rw [searchFrom] at h
      rw [Nat.succ_add left more, searchFrom, searchFrom, hselect]
      by_cases hclosed : t.openBranches = 0
      · rw [if_pos hclosed] at h
        cases h
      rw [if_neg hclosed] at h ⊢
      rw [if_neg hclosed]
      by_cases hnodes : limits.nodes ≤ t.nodeCount
      · rw [if_pos hnodes] at h
        cases h
      rw [if_neg hnodes] at h ⊢
      rw [if_neg hnodes]
      cases hfound : t.select limits with
      | error e =>
          rw [hfound] at h
          cases h
      | ok found =>
          rw [hfound] at h
          cases found with
          | none =>
              simp only [conclude] at h
              split at h <;> cases h
          | some id =>
              simp only at h ⊢
              cases hadvance : t.advance id with
              | mk answer t' =>
                  rw [hadvance] at h
                  cases answer with
                  | error e => cases h
                  | ok done =>
                      cases done with
                      | false => cases h
                      | true =>
                          have hrest := ih h
                          rw [Nat.add_assoc, Nat.add_comm 1 left] at hrest
                          exact hrest

/-- A run of the search can be cut and taken up again: if it stops at its limit of steps, a second search with the
same limits of nodes and instances ends with the tableau of a single search that was allowed the steps of both, and
its verdict differs only in that the steps of the first are not counted. -/
theorem search_resumes (o : Options) (s : Signed) (steps : List Step) {nodes instances first second taken limit : Nat}
    (h : (((start o s).run steps).search ⟨first, nodes, instances⟩).1 = .ok (.unknown taken (.steps limit))) :
    ((start o s).run steps).search ⟨first + second, nodes, instances⟩ =
      (((((start o s).run steps).search ⟨first, nodes, instances⟩).2.search ⟨second, nodes, instances⟩).1.map
          (Verdict.after first),
        ((((start o s).run steps).search ⟨first, nodes, instances⟩).2.search ⟨second, nodes, instances⟩).2) := by
  have hvalid := valid_run o s steps
  generalize (start o s).run steps = t at *
  have hchecked := valid_checkClosed hvalid t.tree.root.id
  have hsurveyed := Surveyed.checkClosed_root hvalid.toCoherent
  rw [search_eq hvalid] at h
  obtain ⟨hvalid', hsurveyed'⟩ := hsurveyed.searchFrom hchecked ⟨first, nodes, instances⟩ first 0
  have hcut := searchFrom_cut h (first + second) second
  have hafter := searchFrom_after ⟨second, nodes, instances⟩ first second 0
    (searchFrom ⟨first, nodes, instances⟩ first 0 (t.checkClosed t.tree.root.id).2).2
  rw [search_eq hvalid, search_eq hvalid, search_eq hvalid', hsurveyed'.checkClosed_eq hvalid']
  calc searchFrom ⟨first + second, nodes, instances⟩ (first + second) 0 (t.checkClosed t.tree.root.id).2
      = searchFrom ⟨first + second, nodes, instances⟩ second (first + 0)
          (searchFrom ⟨first, nodes, instances⟩ first 0 (t.checkClosed t.tree.root.id).2).2 := by
        rw [Nat.add_comm first 0]
        exact hcut
    _ = _ := hafter

/-- Everything is `P` and something is not, on a tableau that has been developed in part. -/
def begun : Tableau :=
  (start {} ⟨.binary .conjunction
      (.quantified .universal ⟨"x"⟩ (.atom (.of "P" [⟨"x"⟩])))
      (.quantified .existential ⟨"x"⟩ (.not (.atom (.of "P" [⟨"x"⟩])))), true⟩).run
    [.develop 0 none, .defer 1]

/-- Cut after the first of the two steps that it takes to close the tableau, the search takes the other one when it is
taken up again. -/
theorem search_resumes_witness :
    (begun.search ⟨1, 100, 5⟩).1 = .ok (.unknown 1 (.steps 1)) ∧
    ((begun.search ⟨1, 100, 5⟩).2.search ⟨8, 100, 5⟩).1 = .ok (.closed 1 5) ∧
    (begun.search ⟨1 + 8, 100, 5⟩).1 = .ok (.closed 2 5) := by
  have hcut : (begun.search ⟨1, 100, 5⟩).1 = .ok (.unknown 1 (.steps 1)) := by decide +kernel
  have hrest : ((begun.search ⟨1, 100, 5⟩).2.search ⟨8, 100, 5⟩).1 = .ok (.closed 1 5) := by decide +kernel
  have hwhole : (begun.search ⟨1 + 8, 100, 5⟩).1 =
      ((begun.search ⟨1, 100, 5⟩).2.search ⟨8, 100, 5⟩).1.map (Verdict.after 1) :=
    congrArg Prod.fst (search_resumes _ _ _ hcut)
  refine ⟨hcut, hrest, ?_⟩
  rw [hwhole, hrest]
  rfl

end Tableau

end Tableaux
