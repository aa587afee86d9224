import Mathlib
import Tableaux.Proofs.Arena.Closing

/-!
The looks along the branches of an arena. The climb reads a branch node by node and writes its marks as it goes. What
it has written at the end is what a look along the branch finds, since a mark on a node does not change the nodes
above it.
-/

namespace Tableaux

namespace Tableau

theorem recordScan_nil (t : Tableau) : t.recordScan ⟨[], none⟩ = t := by
  have hsame : recordNode ⟨[], none⟩ = fun n : Node => n := by
    funext n
    simp [recordNode]
  have htree : t.tree.map (recordNode ⟨[], none⟩) = t.tree := by
    rw [hsame, Tree.map_id]
  exact congrArg (fun tree => { t with tree }) htree

/-- A node that passes can be recorded before the rest of the look. -/
theorem recordScan_recordScan (t : Tableau) (id : Nat) (scan : Scan) :
    (t.recordScan ⟨[id], none⟩).recordScan scan = t.recordScan { scan with passed := id :: scan.passed } := by
  have hnode : ∀ n : Node, recordNode scan (recordNode ⟨[id], none⟩ n) =
      recordNode { scan with passed := id :: scan.passed } n := by
    intro n
    simp [recordNode, Bool.or_assoc]
  have htree : (t.tree.map (recordNode ⟨[id], none⟩)).map (recordNode scan) =
      t.tree.map (recordNode { scan with passed := id :: scan.passed }) := by
    rw [Tree.map_map]
    exact congrArg t.tree.map (funext hnode)
  exact congrArg (fun tree => { t with tree }) htree

end Tableau

namespace Arena

variable {a : Arena} {t : Tableau}

theorem findContradiction_eq {n : Node} {b : List Node} (h : a.Chained b) {rounds : Nat} (hrounds : b.length ≤ rounds) :
    a.findContradiction n rounds (b.head?.map Node.id) = some ((b.find? n.contradicts).map Node.id) := by
  induction b generalizing rounds with
  | nil => cases rounds <;> rfl
  | cons m up ih =>
      obtain ⟨⟨children, hslot⟩, hup⟩ := h
      obtain ⟨rounds, rfl⟩ := Nat.exists_eq_add_of_le' (Nat.le_trans (Nat.le_add_left 1 up.length) hrounds)
      rw [List.head?_cons, Option.map_some, findContradiction, hslot, List.find?_cons]
      change (if n.contradicts m = true then _ else _) = _
      cases n.contradicts m with
      | true => rfl
      | false => exact ih hup (Nat.le_of_succ_le_succ hrounds)

namespace Represents

variable (h : a.Represents t) (hi : Indexed t) {n m : Node}

include h hi

/-- The mark on a node that has been compared. -/
theorem markPassed (hn : n ∈ t.tree.labels) : ∃ a', (a.mark n.id fun n => { n with compared := true }) = some a' ∧
    a'.Represents (t.recordScan ⟨[n.id], none⟩) := by
  obtain ⟨a', hmark, h'⟩ := h.mark hi hn (G := fun n => { n with compared := true }) fun _ => rfl
  have hnode : (fun m : Node => if m.id = n.id then { m with compared := true } else m) =
      Tableau.recordNode ⟨[n.id], none⟩ := by
    funext m
    by_cases hid : m.id = n.id <;> simp [Tableau.recordNode, hid]
  rw [hnode] at h'
  exact ⟨a', hmark, h'⟩

/-- The marks on two nodes that contradict each other. -/
theorem markClash (hn : n ∈ t.tree.labels) (hm : m ∈ t.tree.labels) :
    ∃ a₁ a₂, (a.mark n.id fun n => { n with contradictory := true }) = some a₁ ∧
      (a₁.mark m.id fun n => { n with contradictory := true }) = some a₂ ∧
      a₂.Represents (t.recordScan ⟨[], some (n.id, m.id)⟩) := by
  obtain ⟨a₁, hmark₁, h₁⟩ := h.mark hi hn (G := fun n => { n with contradictory := true }) fun _ => rfl
  have hnode : ∀ id, (fun k : Node => if k.id = id then { k with contradictory := true } else k) =
      Tableau.recordNode ⟨[], some (id, id)⟩ := by
    intro id
    funext k
    by_cases hid : k.id = id
    · simp [Tableau.recordNode, hid]
    · simp [Tableau.recordNode, hid, beq_eq_false_iff_ne.2 hid]
  rw [hnode] at h₁
  have hi₁ := (Tableau.closesTo_recordScan t ⟨[], some (n.id, n.id)⟩).indexed hi
  have hm₁ : Tableau.recordNode ⟨[], some (n.id, n.id)⟩ m ∈
      (t.recordScan ⟨[], some (n.id, n.id)⟩).tree.labels := by
    rw [Tableau.tree_recordScan, Tree.labels_map]
    exact List.mem_map_of_mem hm
  obtain ⟨a₂, hmark₂, h₂⟩ := h₁.mark hi₁ hm₁ (G := fun n => { n with contradictory := true }) fun _ => rfl
  have hboth : ∀ k : Node, Tableau.recordNode ⟨[], some (m.id, m.id)⟩ (Tableau.recordNode ⟨[], some (n.id, n.id)⟩ k) =
      Tableau.recordNode ⟨[], some (n.id, m.id)⟩ k := by
    intro k
    simp [Tableau.recordNode, Bool.or_assoc]
  have htree : ((t.recordScan ⟨[], some (n.id, n.id)⟩).tree.map fun k =>
      if k.id = m.id then { k with contradictory := true } else k) = (t.recordScan ⟨[], some (n.id, m.id)⟩).tree := by
    rw [hnode, Tableau.tree_recordScan, Tree.map_map, Tableau.tree_recordScan]
    exact congrArg t.tree.map (funext hboth)
  have hscan : { t with tree := (t.recordScan ⟨[], some (n.id, n.id)⟩).tree.map fun k =>
      if k.id = m.id then { k with contradictory := true } else k } = t.recordScan ⟨[], some (n.id, m.id)⟩ :=
    congrArg (fun tree => { t with tree }) htree
  refine ⟨a₁, a₂, hmark₁, hmark₂, ?_⟩
  rw [← hscan]
  exact h₂

end Represents

/-- The climb from an open leaf finds what a look along its branch finds, and records it. -/
theorem lookUpward_sim {b pre up : List Node} {leaf : Node} {rounds : Nat} (h : a.Represents t) (hi : Indexed t)
    (hm : Marked t) (hleaf : leaf :: up ∈ t.tree.branches) (hopen : leaf.branchClosed = false)
    (hb : leaf :: up = pre ++ b) (hrounds : b.length ≤ rounds) :
    ∃ a', a.lookUpward leaf.id rounds (b.head?.map Node.id) = some (a', (Scan.ofBranch b).clash.isSome) ∧
      a'.Represents (if (Scan.ofBranch b).clash.isSome then (t.recordScan (Scan.ofBranch b)).closeLeaf leaf.id
        else t.recordScan (Scan.ofBranch b)) := by
  induction b generalizing a t pre leaf up rounds with
  | nil =>
      refine ⟨a, by cases rounds <;> rfl, ?_⟩
      rw [Scan.ofBranch, Option.isSome_none, if_neg Bool.false_ne_true, Tableau.recordScan_nil]
      exact h
  | cons n above ih =>
      obtain ⟨rounds, rfl⟩ := Nat.exists_eq_add_of_le' (Nat.le_trans (Nat.le_add_left 1 above.length) hrounds)
      have hrounds' : above.length ≤ rounds := Nat.le_of_succ_le_succ hrounds
      obtain ⟨r, hr, rfl, rfl, _⟩ := Tree.exists_site (hb ▸ hleaf)
      have hn : r.tree.root ∈ t.tree.labels := Forest.mem_labels_of_mem_sites hr
      have hlength : r.above.length ≤ a.slots.length :=
        (Nat.le_succ _).trans ((hi.length_site_le hr).trans h.length.ge)
      rw [List.head?_cons, Option.map_some, lookUpward, h.slot_site hr, Scan.ofBranch]
      simp only [Option.bind_eq_bind, Option.bind_some]
      cases hcompared : r.tree.root.compared with
      | true =>
          rw [if_pos rfl, if_pos rfl]
          exact ih h hi hm hleaf hopen (by rw [hb, ← List.append_cons]) hrounds'
      | false =>
          rw [if_neg Bool.false_ne_true, if_neg Bool.false_ne_true,
            findContradiction_eq (h.chained_site hr).2 hlength, Option.bind_some]
          cases hfind : r.above.find? r.tree.root.contradicts with
          | some m =>
              have hm' : m ∈ t.tree.labels :=
                Tree.mem_labels_of_mem_above hr (List.mem_cons_of_mem _ (List.mem_of_find?_eq_some hfind))
              obtain ⟨a₁, a₂, hmark₁, hmark₂, h₂⟩ := h.markClash hi hn hm'
              have hleaf₂ := Tableau.recorded_mem_branches ⟨[], some (r.tree.root.id, m.id)⟩ hleaf
              obtain ⟨a₃, hclose, h₃⟩ := markClosed_sim h₂ ((Tableau.closesTo_recordScan t _).indexed hi)
                (Tableau.marked_recordScan hm _) hleaf₂ hopen
              refine ⟨a₃, ?_, h₃⟩
              change (a.mark r.tree.root.id _).bind _ = _
              rw [hmark₁, Option.bind_some, hmark₂, Option.bind_some]
              rw [show a₂.markClosed leaf.id = some a₃ from hclose]
              rfl
          | none =>
              -- the nodes above are as they were
              have habove : r.above.map (Tableau.recordNode ⟨[r.tree.root.id], none⟩) = r.above := by
                refine (List.map_congr_left fun m hm => ?_).trans (List.map_id _)
                have hlt := (List.pairwise_cons.1 (hi.ordered_site hr)).1 m hm
                simp [Tableau.recordNode, Nat.ne_of_lt hlt]
              have hb₁ : (leaf :: up).map (Tableau.recordNode ⟨[r.tree.root.id], none⟩) =
                  (pre ++ [r.tree.root]).map (Tableau.recordNode ⟨[r.tree.root.id], none⟩) ++ r.above := by
                conv_rhs => rw [← habove]
                rw [hb, List.append_cons, List.map_append]
              obtain ⟨a₁, hmark, h₁⟩ := h.markPassed hi hn
              have hleaf₁ := Tableau.recorded_mem_branches ⟨[r.tree.root.id], none⟩ hleaf
              obtain ⟨a₂, hlook, h₂⟩ := ih h₁ ((Tableau.closesTo_recordScan t _).indexed hi)
                (Tableau.marked_recordScan hm _) hleaf₁ hopen hb₁ hrounds'
              refine ⟨a₂, ?_, ?_⟩
              · change (a.mark r.tree.root.id _).bind _ = _
                rw [hmark, Option.bind_some]
                exact hlook
              · rw [Tableau.recordScan_recordScan] at h₂
                exact h₂

/-- A look at the branch of an open leaf. -/
theorem checkLeaf_sim {leaf : Node} {up : List Node} (h : a.Represents t) (hi : Indexed t) (hm : Marked t)
    (hleaf : leaf :: up ∈ t.tree.branches) (hopen : leaf.branchClosed = false) :
    ∃ a', a.lookUpward leaf.id a.slots.length (some leaf.id) = some (a', (t.checkLeaf leaf.id).2) ∧
      a'.Represents (t.checkLeaf leaf.id).1 := by
  obtain ⟨r, hr, hroot, habove, _⟩ := Tree.exists_site_of_leaf hleaf
  have hlength : (leaf :: up).length ≤ a.slots.length := by
    rw [← hroot, ← habove, h.length]
    exact hi.length_site_le hr
  obtain ⟨a', hlook, h'⟩ := lookUpward_sim h hi hm hleaf hopen (List.nil_append _).symm hlength
  refine ⟨a', hlook.trans ?_, ?_⟩
  · rw [Tableau.checkLeaf, hi.numbered.trail_eq_branch hleaf]
    cases (Scan.ofBranch (leaf :: up)).clash <;> rfl
  · rw [Tableau.checkLeaf, hi.numbered.trail_eq_branch hleaf]
    revert h'
    cases (Scan.ofBranch (leaf :: up)).clash <;> exact id

/-- The looks at the branches of open leaves, one after the other. -/
theorem closeLeaves_sim {leaves : List Nat} (h : a.Represents t) (hc : Coherent t) (hnodup : leaves.Nodup)
    (hopen : OpenLeaves t leaves) (closed : Nat) :
    ∃ a' t' count, a.closeLeaves closed leaves = some (a', count) ∧ a'.Represents t' ∧
      leaves.foldl (fun state leaf => ((state.1.checkLeaf leaf).1,
        if (state.1.checkLeaf leaf).2 then state.2 + 1 else state.2)) (t, closed) = (t', count) := by
  induction leaves generalizing a t closed with
  | nil => exact ⟨a, t, closed, rfl, h, rfl⟩
  | cons l leaves ih =>
      obtain ⟨leaf, up, hleaf, rfl, hl⟩ := hopen l List.mem_cons_self
      obtain ⟨hnotin, hnodup⟩ := List.nodup_cons.1 hnodup
      have hrest : OpenLeaves t leaves := fun l hl => hopen l (List.mem_cons_of_mem _ hl)
      obtain ⟨a₁, hlook, h₁⟩ := checkLeaf_sim h hc.toIndexed hc.toMarked hleaf hl
      obtain ⟨a₂, t₂, count, hclose, h₂, hfold⟩ := ih h₁ (Tableau.coherent_checkLeaf hc hleaf hl) hnodup
        (Tableau.openLeaves_checkLeaf hrest hnotin) (if (t.checkLeaf leaf.id).2 then closed + 1 else closed)
      refine ⟨a₂, t₂, count, ?_, h₂, hfold⟩
      rw [closeLeaves, hlook]
      exact hclose

/-- Looking at the open branches through a node closes the same branches. -/
theorem closeBranches_sim (h : a.Represents t) (hc : Coherent t) {n : Node} (hn : n ∈ t.tree.labels) :
    ∃ a', a.closeBranches n.id = some (a', (t.closeBranches n.id).2) ∧ a'.Represents (t.closeBranches n.id).1 := by
  obtain ⟨r, hr, rfl⟩ := Forest.exists_site_of_mem_labels hn []
  obtain ⟨a', t', count, hclose, h', hfold⟩ := closeLeaves_sim h hc
    (Tableau.nodup_openLeavesBelow hc.numbered r.tree.root.id) (Tableau.openLeaves_openLeavesBelow hc _) 0
  have hbranches : t.closeBranches r.tree.root.id = (t', count) := hfold
  refine ⟨a', ?_, ?_⟩
  · rw [closeBranches, h.openLeavesBelow_eq hc.toIndexed hr, hbranches]
    exact hclose
  · rw [hbranches]
    exact h'

theorem checkClosed_sim (h : a.Represents t) (hc : Coherent t) (id : Nat) :
    Simulates (a.checkClosed id) (t.checkClosed id) := by
  rcases h.live_eq hc.toIndexed id with ⟨n, s, hnode, hlive, rfl, _, _⟩ | ⟨refusal, hnode, hlive⟩
  · obtain ⟨hmem, rfl⟩ := Tableau.node_eq_ok hnode
    obtain ⟨a', hclose, h'⟩ := closeBranches_sim h hc hmem
    rw [checkClosed, hlive, Tableau.checkClosed, hnode]
    refine ⟨a', ?_, h'⟩
    change (a.closeBranches s.node.id).bind _ = _
    rw [hclose]
    rfl
  · rw [checkClosed, hlive, Tableau.checkClosed, hnode]
    exact ⟨a, rfl, h⟩

end Arena

end Tableaux
