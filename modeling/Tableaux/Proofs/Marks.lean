import Tableaux.Proofs.Numbering
import Tableaux.Tableau.Closure

/-!
Marks of closed branches. In a tree whose marks agree, an inner node is closed exactly if everything directly below
it is; then a node is open exactly if an open branch leads through it, and a branch is open exactly if its leaf is.
Closing a leaf and grafting below an open one keep the marks in agreement.
-/

namespace Tableaux

/-- No node of the branch is closed. -/
def OpenBranch (b : List Node) : Prop :=
  ∀ n ∈ b, n.branchClosed = false

namespace Forest

variable {f : Forest Node}

/-- Each inner node is closed exactly if everything directly below it is. -/
def MarksAgree : Forest Node → Prop
  | nil => True
  | cons n below beside =>
      (below ≠ nil → n.branchClosed = below.roots.all Node.branchClosed) ∧ below.MarksAgree ∧ beside.MarksAgree

/-- Below a closed node everything is closed. -/
def ClosedDown : Forest Node → Prop
  | nil => True
  | cons n below beside =>
      (n.branchClosed = true → below.roots.all Node.branchClosed = true) ∧ below.ClosedDown ∧ beside.ClosedDown

theorem exists_root_of_mem_branches {b : List Node} (hb : b ∈ f.branches []) : ∃ r ∈ f.roots, r ∈ b := by
  cases f with
  | nil => simp [branches] at hb
  | cons n below beside =>
      induction beside generalizing n below with
      | nil => exact ⟨n, by simp [roots], Tree.root_mem_of_mem_branches (t := ⟨n, below⟩) hb⟩
      | cons m below' beside' _ ih =>
          rw [branches, List.mem_append] at hb
          rcases hb with hb | hb
          · have hb : b ∈ (Tree.mk n below).branches := by
              rw [Tree.branches, Tree.toForest, branches, branches, List.append_nil]
              exact hb
            exact ⟨n, by simp [roots], Tree.root_mem_of_mem_branches hb⟩
          · obtain ⟨r, hr, hrb⟩ := ih m below' hb
            exact ⟨r, List.mem_cons_of_mem _ hr, hrb⟩

/-- A branch is open if its leaf is. -/
theorem MarksAgree.openBranch (h : f.MarksAgree) {leaf : Node} {up : List Node}
    (hb : leaf :: up ∈ f.branches []) (hleaf : leaf.branchClosed = false) : OpenBranch (leaf :: up) := by
  induction f generalizing up with
  | nil => simp [branches] at hb
  | cons n below beside ihb ihs =>
      rw [branches, List.mem_append] at hb
      rcases hb with hb | hb
      · by_cases hne : below = nil
        · subst hne
          simp only [isEmpty_nil, if_true, List.mem_singleton] at hb
          rw [hb]
          intro m hm
          rw [List.mem_singleton.1 hm, ← (List.cons.inj hb).1, hleaf]
        · rw [isEmpty_eq_false_iff.2 hne, if_neg Bool.false_ne_true, branches_eq_map, List.mem_map] at hb
          obtain ⟨b, hb, heq⟩ := hb
          obtain ⟨l, rest, rfl, _⟩ := exists_cons_of_mem_branches hb
          obtain ⟨rfl, rfl⟩ := List.cons.inj heq
          have hopen := ihb h.2.1 hb
          -- One of the roots below is on the branch and open, so the node above is open too.
          obtain ⟨r, hr, hrb⟩ := exists_root_of_mem_branches hb
          have hn : n.branchClosed = false := by
            rw [h.1 hne, List.all_eq_false]
            exact ⟨r, hr, by simp [hopen r hrb]⟩
          intro m hm
          rcases List.mem_append.1 (heq ▸ hm : m ∈ l :: rest ++ [n]) with hm | hm
          · exact hopen m hm
          · rw [List.mem_singleton.1 hm, hn]
      · exact ihs h.2.2 hb

/-- Below every open node there is an open leaf. -/
theorem MarksAgree.exists_open_leaf (h : f.MarksAgree) {n : Node} (hn : n ∈ f.labels)
    (hopen : n.branchClosed = false) :
    ∃ leaf up, leaf :: up ∈ f.branches [] ∧ n ∈ leaf :: up ∧ leaf.branchClosed = false := by
  induction f generalizing n with
  | nil => simp [labels] at hn
  | cons c below beside ihb ihs =>
      have hbelow : ∀ {r : Node}, r ∈ below.labels → r.branchClosed = false →
          ∃ leaf up, leaf :: up ∈ (cons c below beside).branches [] ∧ r ∈ leaf :: up ∧ c ∈ leaf :: up ∧
            leaf.branchClosed = false := by
        intro r hr hropen
        have hne : below ≠ nil := by
          rintro rfl
          simp [labels] at hr
        obtain ⟨leaf, up, hb, hmem, hl⟩ := ihb h.2.1 hr hropen
        refine ⟨leaf, up ++ [c], ?_, ?_, by simp, hl⟩
        · rw [branches_cons_of_ne hne, branches_eq_map [c] below]
          exact List.mem_append_left _ (List.mem_map.2 ⟨leaf :: up, hb, rfl⟩)
        · rw [← List.cons_append]
          exact List.mem_append_left _ hmem
      rw [labels, List.mem_cons, List.mem_append] at hn
      rcases hn with rfl | hn | hn
      · by_cases hne : below = nil
        · subst hne
          exact ⟨n, [], by simp [branches_cons_nil], by simp, hopen⟩
        · have hall := h.1 hne
          rw [hopen, eq_comm, List.all_eq_false] at hall
          obtain ⟨r, hr, hropen⟩ := hall
          obtain ⟨leaf, up, hb, _, hmem, hl⟩ :=
            hbelow ((roots_sublist_labels below).subset hr) (by simpa using hropen)
          exact ⟨leaf, up, hb, hmem, hl⟩
      · obtain ⟨leaf, up, hb, hmem, _, hl⟩ := hbelow hn hopen
        exact ⟨leaf, up, hb, hmem, hl⟩
      · obtain ⟨leaf, up, hb, hmem, hl⟩ := ihs h.2.2 hn hopen
        exact ⟨leaf, up, by rw [branches]; exact List.mem_append_right _ hb, hmem, hl⟩

/-! Agreement is kept. -/

theorem marksAgree_of_forall_open (h : ∀ n ∈ f.labels, n.branchClosed = false) : f.MarksAgree := by
  induction f with
  | nil => trivial
  | cons n below beside ihb ihs =>
      simp only [labels, List.mem_cons, List.mem_append] at h
      refine ⟨fun hne => ?_, ihb fun m hm => h m (Or.inr (Or.inl hm)), ihs fun m hm => h m (Or.inr (Or.inr hm))⟩
      obtain ⟨r, b, s, rfl⟩ : ∃ r b s, below = cons r b s := by
        cases below with
        | nil => exact absurd rfl hne
        | cons r b s => exact ⟨r, b, s, rfl⟩
      have hr := h r (Or.inr (Or.inl (by simp [labels])))
      rw [h n (Or.inl rfl), roots, List.all_cons, hr, Bool.false_and]

theorem roots_map {α β : Type} (g : α → β) (f : Forest α) : (f.map g).roots = f.roots.map g := by
  induction f with
  | nil => rfl
  | cons a below beside _ ih => rw [map, roots, ih, roots, List.map_cons]

theorem map_ne_nil {α β : Type} {g : α → β} {f : Forest α} : f.map g ≠ nil ↔ f ≠ nil := by
  cases f <;> simp [map]

theorem MarksAgree.map {g : Node → Node} (h : f.MarksAgree) (hg : ∀ n, (g n).branchClosed = n.branchClosed) :
    (f.map g).MarksAgree := by
  induction f with
  | nil => trivial
  | cons n below beside ihb ihs =>
      refine ⟨fun hne => ?_, ihb h.2.1, ihs h.2.2⟩
      rw [hg, h.1 (map_ne_nil.1 hne), roots_map, List.all_map]
      congr 1
      funext m
      rw [Function.comp_apply, hg]

/-- Marking leaves as closed does not open anything below a closed node. -/
theorem MarksAgree.closedDown_map {g : Node → Node} (h : f.MarksAgree)
    (hg : ∀ n, n.branchClosed = true → (g n).branchClosed = true)
    (hinner : ∀ s ∈ f.sites [], (g s.tree.root).branchClosed ≠ s.tree.root.branchClosed → s.tree.below = nil) :
    (f.map g).ClosedDown := by
  suffices ∀ up, (∀ s ∈ f.sites up, (g s.tree.root).branchClosed ≠ s.tree.root.branchClosed →
      s.tree.below = nil) → (f.map g).ClosedDown from this [] hinner
  clear hinner
  induction f with
  | nil => exact fun _ _ => trivial
  | cons n below beside ihb ihs =>
      intro up hinner
      refine ⟨fun hclosed => ?_, ihb h.2.1 (n :: up) fun s hs => hinner s (by simp [sites, hs]),
        ihs h.2.2 up fun s hs => hinner s (by simp [sites, hs])⟩
      by_cases hne : below = nil
      · subst hne
        rfl
      · have hsame : (g n).branchClosed = n.branchClosed := by
          by_contra hdiff
          exact hne (hinner ⟨⟨n, below⟩, up⟩ (by simp [sites]) hdiff)
        rw [hsame, h.1 hne, List.all_eq_true] at hclosed
        rw [roots_map, List.all_map, List.all_eq_true]
        exact fun r hr => hg r (hclosed r hr)

end Forest

/-- The nodes differ in the mark of closed branches only, which is not taken back. -/
def Node.ClosesTo (n m : Node) : Prop :=
  m = { n with branchClosed := m.branchClosed } ∧ (n.branchClosed = true → m.branchClosed = true)

namespace Forest

variable {f : Forest Node}

theorem closesTo_closeAbove (n : Node) (below : Forest Node) : n.ClosesTo (n.closeAbove below) := by
  refine ⟨rfl, fun h => ?_⟩
  rw [Node.closeAbove, h, Bool.true_or]

theorem rel_closeInner (f : Forest Node) : Rel Node.ClosesTo f f.closeInner := by
  induction f with
  | nil => exact .nil
  | cons n below beside ihb ihs => exact .cons (closesTo_closeAbove n _) ihb ihs

theorem leaves_closeInner (f : Forest Node) : f.closeInner.leaves = f.leaves := by
  induction f with
  | nil => rfl
  | cons n below beside ihb ihs =>
      rw [closeInner, leaves, leaves, (rel_closeInner below).isEmpty_eq, ihb, ihs]
      by_cases hne : below = nil
      · subst hne
        simp [closeInner, Node.closeAbove]
      · simp [isEmpty_eq_false_iff.2 hne]

theorem roots_all_closeInner (h : f.roots.all Node.branchClosed = true) :
    f.closeInner.roots.all Node.branchClosed = true := by
  induction f with
  | nil => rfl
  | cons n below beside _ ih =>
      simp only [roots, List.all_cons, Bool.and_eq_true] at h
      simp only [closeInner, roots, List.all_cons, Bool.and_eq_true]
      exact ⟨(closesTo_closeAbove n _).2 h.1, ih h.2⟩

theorem marksAgree_closeInner (h : f.ClosedDown) : f.closeInner.MarksAgree := by
  induction f with
  | nil => trivial
  | cons n below beside ihb ihs =>
      refine ⟨fun hne => ?_, ihb h.2.1, ihs h.2.2⟩
      rw [Node.closeAbove, isEmpty_eq_false_iff.2 hne, Bool.not_false, Bool.true_and]
      cases hclosed : n.branchClosed with
      | true => rw [Bool.true_or, roots_all_closeInner (h.1 hclosed)]
      | false => rw [Bool.false_or]

theorem roots_graft {α : Type} (p : α → Bool) (new f : Forest α) : (graft p new f).roots = f.roots := by
  induction f with
  | nil => rfl
  | cons a below beside _ ih => rw [graft, roots, roots, ih]

/-- Grafting something open below open leaves. -/
theorem MarksAgree.graft {p : Node → Bool} {up : List Node} {new : Forest Node} (h : f.MarksAgree)
    (hnew : ∀ n ∈ new.labels, n.branchClosed = false) (hne : new ≠ nil)
    (hleaf : ∀ s ∈ f.sites up, p s.tree.root = true → s.tree.below = nil ∧ s.tree.root.branchClosed = false) :
    (Forest.graft p new f).MarksAgree := by
  induction f generalizing up with
  | nil => trivial
  | cons n below beside ihb ihs =>
      have hbelow := @ihb (n :: up) h.2.1 fun s hs => hleaf s (by simp [sites, hs])
      have hbeside := @ihs up h.2.2 fun s hs => hleaf s (by simp [sites, hs])
      have hnewMarks := marksAgree_of_forall_open hnew
      cases hp : p n with
      | true =>
          obtain ⟨hnil, hopen⟩ := hleaf ⟨⟨n, below⟩, up⟩ (by simp [sites]) hp
          have hnil : below = nil := hnil
          have hopen : n.branchClosed = false := hopen
          subst hnil
          rw [Forest.graft, hp, if_pos rfl, append]
          refine ⟨fun _ => ?_, hnewMarks, hbeside⟩
          obtain ⟨r, b, s, rfl⟩ : ∃ r b s, new = cons r b s := by
            cases new with
            | nil => exact absurd rfl hne
            | cons r b s => exact ⟨r, b, s, rfl⟩
          have hr := hnew r (by simp [labels])
          rw [hopen, roots, List.all_cons, hr, Bool.false_and]
      | false =>
          rw [Forest.graft, hp, if_neg Bool.false_ne_true]
          refine ⟨fun hgne => ?_, hbelow, hbeside⟩
          rw [roots_graft]
          apply h.1
          rw [← isEmpty_eq_false_iff, isEmpty_graft, isEmpty_eq_false_iff] at hgne
          exact hgne

end Forest

namespace Tableau

variable {t : Tableau}

theorem subtree_eq_some_iff (h : t.tree.Numbered) {id : Nat} {s : Tree Node} :
    t.subtree id = some s ↔ ∃ σ ∈ t.tree.sites, σ.tree = s ∧ s.root.id = id := by
  constructor
  · intro hs
    have hs' := hs
    rw [subtree, Tree.find?, Forest.find?_eq_sites _ [], Option.map_map, Option.map_eq_some_iff] at hs'
    obtain ⟨σ, hσ, rfl⟩ := hs'
    exact ⟨σ, List.mem_of_find?_eq_some hσ, rfl, (subtree_root_mem hs).2⟩
  · rintro ⟨σ, hσ, rfl, rfl⟩
    exact subtree_site h hσ

/-- The open leaves below a node end the branches through it whose leaf is open. -/
theorem mem_openLeavesBelow (h : t.tree.Numbered) (hmarks : t.tree.toForest.MarksAgree) {id l : Nat} :
    l ∈ t.openLeavesBelow id ↔ ∃ leaf up, leaf :: up ∈ t.tree.branches ∧ leaf.id = l ∧
      leaf.branchClosed = false ∧ ∃ n ∈ leaf :: up, n.id = id := by
  rw [openLeavesBelow]
  constructor
  · intro hl
    split at hl
    · rename_i s hs
      obtain ⟨σ, hσ, rfl, hid⟩ := (subtree_eq_some_iff h).1 hs
      rw [Forest.leavesOutside_eq_heads, List.mem_map] at hl
      obtain ⟨leaf, hleaf, rfl⟩ := hl
      obtain ⟨b, hb, hhead⟩ := List.mem_filterMap.1 hleaf
      obtain ⟨hb, hall⟩ := List.mem_filter.1 hb
      obtain ⟨leaf', up, rfl, _⟩ := Forest.exists_cons_of_mem_branches hb
      cases hhead
      have hsite : leaf :: up ++ σ.above ∈ σ.tree.toForest.branches σ.above := by
        rw [Forest.branches_eq_map]
        exact List.mem_map_of_mem hb
      have hopen : leaf.branchClosed = false := by simpa using List.all_eq_true.1 hall leaf List.mem_cons_self
      exact ⟨leaf, up ++ σ.above, Forest.mem_branches_of_site hσ hsite, rfl, hopen, σ.tree.root,
        (Forest.suffix_of_mem_branches_toForest hsite).mem List.mem_cons_self, hid⟩
    · simp at hl
  · rintro ⟨leaf, up, hb, rfl, hleaf, n, hn, rfl⟩
    have hopen := hmarks.openBranch hb hleaf
    obtain ⟨pre, up', heq⟩ := List.append_of_mem hn
    rw [heq] at hb
    obtain ⟨σ, hσ, rfl, rfl, hsite⟩ := Tree.exists_site hb
    rw [← heq, Forest.branches_eq_map, List.mem_map] at hsite
    obtain ⟨b, hsite, hb⟩ := hsite
    obtain ⟨leaf', up'', rfl, _⟩ := Forest.exists_cons_of_mem_branches hsite
    obtain ⟨rfl, hup⟩ := List.cons.inj hb
    simp only [subtree_site h hσ, Forest.leavesOutside_eq_heads]
    apply List.mem_map_of_mem
    rw [List.mem_filterMap]
    refine ⟨leaf' :: up'', List.mem_filter.2 ⟨hsite, ?_⟩, rfl⟩
    rw [List.all_eq_true]
    intro m hm
    have hmopen := hopen m (by rw [← hb]; exact List.mem_append_left _ hm)
    rw [hmopen, Bool.not_false]

theorem nodup_openLeavesBelow (h : t.tree.Numbered) (id : Nat) : (t.openLeavesBelow id).Nodup := by
  rw [openLeavesBelow]
  split
  · rename_i s hs
    obtain ⟨σ, hσ, rfl, _⟩ := (subtree_eq_some_iff h).1 hs
    have hsub : (σ.tree.toForest.leavesOutside Node.branchClosed).Sublist t.tree.labels :=
      (Forest.leavesOutside_sublist_leaves _ _).trans ((Forest.leaves_sublist_labels _).trans
        (Forest.labels_sublist_of_mem_sites hσ))
    exact (hsub.map Node.id).nodup h
  · exact List.nodup_nil

end Tableau

end Tableaux
