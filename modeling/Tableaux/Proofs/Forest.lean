import Mathlib
import Tableaux.Forest

/-!
Forests seen through their branches and their sites. A branch is the way from a leaf up to a root, and a site is a
subtree together with the labels above it. Look-ups walk through the sites depth first; grafting behind a leaf
prolongs the branch that ends there and leaves the others alone.
-/

namespace Tableaux

/-- A subtree at its place: below the labels `above`, of which the nearest comes first. -/
structure Site (α : Type) where
  tree : Tree α
  above : List α

namespace Forest

variable {α β γ : Type}

/-- The branches from left to right, each from its leaf upward and then along `above`. -/
def branches (above : List α) : Forest α → List (List α)
  | nil => []
  | cons a below beside =>
      (if below.isEmpty then [a :: above] else below.branches (a :: above)) ++ beside.branches above

/-- The subtrees in depth-first order. -/
def sites (above : List α) : Forest α → List (Site α)
  | nil => []
  | cons a below beside => ⟨⟨a, below⟩, above⟩ :: (below.sites (a :: above) ++ beside.sites above)

@[simp]
theorem isEmpty_nil : (nil : Forest α).isEmpty = true := rfl

theorem isEmpty_iff {f : Forest α} : f.isEmpty = true ↔ f = nil := by
  cases f <;> simp [isEmpty]

theorem isEmpty_eq_false_iff {f : Forest α} : f.isEmpty = false ↔ f ≠ nil := by
  cases f <;> simp [isEmpty]

/-! Labels. -/

@[simp]
theorem length_labels (f : Forest α) : f.labels.length = f.size := by
  induction f with
  | nil => rfl
  | cons a below beside ihb ihs =>
      simp only [labels, size, List.length_cons, List.length_append, ihb, ihs]
      omega

@[simp]
theorem labels_map (h : α → β) (f : Forest α) : (f.map h).labels = f.labels.map h := by
  induction f with
  | nil => rfl
  | cons a below beside ihb ihs => simp [map, labels, ihb, ihs]

@[simp]
theorem labels_append (f g : Forest α) : (f.append g).labels = f.labels ++ g.labels := by
  induction f with
  | nil => rfl
  | cons a below beside ihb ihs => simp [append, labels, ihs]

@[simp]
theorem size_map (h : α → β) (f : Forest α) : (f.map h).size = f.size := by
  rw [← length_labels, labels_map, List.length_map, length_labels]

@[simp]
theorem isEmpty_map (h : α → β) (f : Forest α) : (f.map h).isEmpty = f.isEmpty := by
  cases f <;> rfl

theorem roots_append (f g : Forest α) : (f.append g).roots = f.roots ++ g.roots := by
  induction f with
  | nil => rfl
  | cons a below beside _ ih => rw [append, roots, roots, ih, List.cons_append]

theorem roots_sublist_labels (f : Forest α) : f.roots.Sublist f.labels := by
  induction f with
  | nil => exact List.Sublist.refl _
  | cons a below beside ihb ihs => exact (ihs.trans (List.sublist_append_right _ _)).cons_cons a

theorem leaves_sublist_labels (f : Forest α) : f.leaves.Sublist f.labels := by
  induction f with
  | nil => exact List.Sublist.refl _
  | cons a below beside ihb ihs =>
      simp only [leaves, labels]
      split
      · exact ((List.nil_sublist _).append ihs).cons_cons a
      · exact (ihb.append ihs).cons a

/-! Sites. -/

theorem map_id (f : Forest α) : (f.map fun a => a) = f := by
  induction f with
  | nil => rfl
  | cons a below beside ihb ihs => rw [map, ihb, ihs]

theorem map_map (h : α → β) (k : β → γ) (f : Forest α) : (f.map h).map k = f.map fun a => k (h a) := by
  induction f with
  | nil => rfl
  | cons a below beside ihb ihs => rw [map, map, ihb, ihs, map]

theorem map_congr {h k : α → β} {f : Forest α} (heq : ∀ a ∈ f.labels, h a = k a) : f.map h = f.map k := by
  induction f with
  | nil => rfl
  | cons a below beside ihb ihs =>
      simp only [labels, List.mem_cons, List.mem_append] at heq
      rw [map, map, heq a (Or.inl rfl), ihb fun c hc => heq c (Or.inr (Or.inl hc)),
        ihs fun c hc => heq c (Or.inr (Or.inr hc))]

theorem leaves_map (h : α → β) (f : Forest α) : (f.map h).leaves = f.leaves.map h := by
  induction f with
  | nil => rfl
  | cons a below beside ihb ihs => simp [map, leaves, ihb, ihs, apply_ite (List.map h)]

theorem map_root_sites (above : List α) (f : Forest α) :
    (f.sites above).map (fun s => s.tree.root) = f.labels := by
  induction f generalizing above with
  | nil => rfl
  | cons a below beside ihb ihs => simp [sites, labels, ihb, ihs]

theorem mem_labels_of_mem_sites {above : List α} {f : Forest α} {s : Site α} (hs : s ∈ f.sites above) :
    s.tree.root ∈ f.labels := by
  rw [← map_root_sites above]
  exact List.mem_map_of_mem hs

theorem exists_site_of_mem_labels {f : Forest α} {a : α} (ha : a ∈ f.labels) (above : List α) :
    ∃ s ∈ f.sites above, s.tree.root = a := by
  rw [← map_root_sites above] at ha
  exact List.mem_map.1 ha

theorem labels_sublist_of_mem_sites {above : List α} {f : Forest α} {s : Site α} (hs : s ∈ f.sites above) :
    s.tree.labels.Sublist f.labels := by
  induction f generalizing above with
  | nil => simp [sites] at hs
  | cons a below beside ihb ihs =>
      rw [sites, List.mem_cons, List.mem_append] at hs
      rw [labels]
      rcases hs with rfl | hs | hs
      · rw [Tree.labels, Tree.toForest, labels, labels, List.append_nil]
        exact (List.sublist_append_left _ _).cons_cons a
      · exact ((ihb hs).trans (List.sublist_append_left _ _)).cons a
      · exact ((ihs hs).trans (List.sublist_append_right _ _)).cons a

theorem labels_below_sublist_of_mem_sites {above : List α} {f : Forest α} {s : Site α} (hs : s ∈ f.sites above) :
    s.tree.below.labels.Sublist f.labels :=
  ((List.sublist_append_left _ _).trans (List.sublist_cons_self _ _)).trans (labels_sublist_of_mem_sites hs)

theorem exists_site_of_mem_roots {f : Forest α} {r : α} (hr : r ∈ f.roots) (above : List α) :
    ∃ s ∈ f.sites above, s.tree.root = r ∧ s.above = above := by
  induction f with
  | nil => cases hr
  | cons a below beside _ ihs =>
      rcases List.mem_cons.1 hr with rfl | hr
      · exact ⟨⟨⟨r, below⟩, above⟩, List.mem_cons_self, rfl, rfl⟩
      · obtain ⟨s, hs, hroot⟩ := ihs hr
        exact ⟨s, List.mem_cons_of_mem _ (List.mem_append_right _ hs), hroot⟩

theorem sites_below_subset {above : List α} {f : Forest α} {s : Site α} (hs : s ∈ f.sites above) :
    ∀ r ∈ s.tree.below.sites (s.tree.root :: s.above), r ∈ f.sites above := by
  induction f generalizing above with
  | nil => cases hs
  | cons a below beside ihb ihs =>
      intro r hr
      rw [sites] at hs ⊢
      rcases List.mem_cons.1 hs with rfl | hs
      · exact List.mem_cons_of_mem _ (List.mem_append_left _ hr)
      · refine List.mem_cons_of_mem _ ?_
        rcases List.mem_append.1 hs with hs | hs
        · exact List.mem_append_left _ (ihb hs r hr)
        · exact List.mem_append_right _ (ihs hs r hr)

/-- A site is one of the roots, or its root is directly below the root of the site above it. -/
theorem root_or_below {above : List α} {f : Forest α} {s : Site α} (hs : s ∈ f.sites above) :
    (s.above = above ∧ s.tree.root ∈ f.roots) ∨
      ∃ r ∈ f.sites above, s.above = r.tree.root :: r.above ∧ s.tree.root ∈ r.tree.below.roots := by
  induction f generalizing above with
  | nil => cases hs
  | cons a below beside ihb ihs =>
      rcases List.mem_cons.1 hs with rfl | hs
      · exact Or.inl ⟨rfl, List.mem_cons_self⟩
      · refine (List.mem_append.1 hs).elim (fun hs => ?_) fun hs => ?_
        · rcases ihb hs with ⟨habove, hroot⟩ | ⟨r, hr, hfacts⟩
          · exact Or.inr ⟨⟨⟨a, below⟩, above⟩, List.mem_cons_self, habove, hroot⟩
          · exact Or.inr ⟨r, List.mem_cons_of_mem _ (List.mem_append_left _ hr), hfacts⟩
        · rcases ihs hs with ⟨habove, hroot⟩ | ⟨r, hr, hfacts⟩
          · exact Or.inl ⟨habove, List.mem_cons_of_mem _ hroot⟩
          · exact Or.inr ⟨r, List.mem_cons_of_mem _ (List.mem_append_right _ hr), hfacts⟩

/-- Finding a label is finding its site. -/
theorem find?_eq_sites (p : α → Bool) (above : List α) (f : Forest α) :
    f.find? p = ((f.sites above).find? fun s => p s.tree.root).map fun s => (s.tree.root, s.tree.below) := by
  induction f generalizing above with
  | nil => rfl
  | cons a below beside ihb ihs =>
      rw [find?, sites, List.find?_cons]
      cases hp : p a with
      | true => simp
      | false =>
          simp only [Bool.false_eq_true, if_false, List.find?_append]
          rw [ihb (a :: above), ihs above]
          cases (below.sites (a :: above)).find? fun s => p s.tree.root <;> rfl

theorem trail?_eq_sites (p : α → Bool) (above : List α) (f : Forest α) :
    f.trail? p above = ((f.sites above).find? fun s => p s.tree.root).map fun s => s.tree.root :: s.above := by
  induction f generalizing above with
  | nil => rfl
  | cons a below beside ihb ihs =>
      rw [trail?, sites, List.find?_cons]
      cases hp : p a with
      | true => simp
      | false =>
          simp only [Bool.false_eq_true, if_false, List.find?_append]
          rw [ihb (a :: above), ihs above]
          cases (below.sites (a :: above)).find? fun s => p s.tree.root <;> rfl

/-! Branches. -/

theorem branches_cons_nil (above : List α) (a : α) (beside : Forest α) :
    (cons a nil beside).branches above = (a :: above) :: beside.branches above := rfl

theorem branches_cons_of_ne {below : Forest α} (h : below ≠ nil) (above : List α) (a : α) (beside : Forest α) :
    (cons a below beside).branches above = below.branches (a :: above) ++ beside.branches above := by
  rw [branches, if_neg (fun he => h (isEmpty_iff.1 he))]

theorem branches_ne_nil {f : Forest α} (h : f ≠ nil) (above : List α) : f.branches above ≠ [] := by
  induction f generalizing above with
  | nil => exact absurd rfl h
  | cons a below beside ihb ihs =>
      by_cases hb : below = nil
      · subst hb
        simp [branches_cons_nil]
      · rw [branches_cons_of_ne hb]
        exact List.append_ne_nil_of_left_ne_nil (ihb hb _) _

/-- What is above a forest is the upper end of each of its branches. -/
theorem branches_eq_map (above : List α) (f : Forest α) :
    f.branches above = (f.branches []).map (· ++ above) := by
  induction f generalizing above with
  | nil => rfl
  | cons a below beside ihb ihs =>
      by_cases hb : below = nil
      · subst hb
        rw [branches_cons_nil, branches_cons_nil, ihs above]
        rfl
      · rw [branches_cons_of_ne hb, branches_cons_of_ne hb, ihb (a :: above), ihb [a], ihs above,
          List.map_append, List.map_map]
        congr 1
        apply List.map_congr_left
        intro b _
        simp

theorem branches_append (above : List α) (f g : Forest α) :
    (f.append g).branches above = f.branches above ++ g.branches above := by
  induction f with
  | nil => rfl
  | cons a below beside ihb ihs => rw [append, branches, branches, ihs, List.append_assoc]

theorem branches_map (h : α → β) (above : List α) (f : Forest α) :
    (f.map h).branches (above.map h) = (f.branches above).map (List.map h) := by
  induction f generalizing above with
  | nil => rfl
  | cons a below beside ihb ihs =>
      have hbelow := ihb (a :: above)
      rw [List.map_cons] at hbelow
      rw [map, branches, branches, isEmpty_map, List.map_append, ihs, hbelow]
      split <;> rfl

/-- Every branch is its leaf followed by the way up from there. -/
theorem exists_cons_of_mem_branches {above b : List α} {f : Forest α} (hb : b ∈ f.branches above) :
    ∃ leaf up, b = leaf :: up ∧ leaf ∈ f.leaves := by
  induction f generalizing above with
  | nil => simp [branches] at hb
  | cons a below beside ihb ihs =>
      rw [branches, List.mem_append] at hb
      rw [leaves]
      rcases hb with hb | hb
      · split at hb
        · rename_i he
          exact ⟨a, above, List.mem_singleton.1 hb, by simp [he]⟩
        · rename_i he
          obtain ⟨leaf, up, rfl, hleaf⟩ := ihb hb
          exact ⟨leaf, up, rfl, by simp [he, hleaf]⟩
      · obtain ⟨leaf, up, rfl, hleaf⟩ := ihs hb
        exact ⟨leaf, up, rfl, List.mem_append_right _ hleaf⟩

theorem leaves_eq_heads (above : List α) (f : Forest α) : (f.branches above).filterMap List.head? = f.leaves := by
  induction f generalizing above with
  | nil => rfl
  | cons a below beside ihb ihs =>
      rw [branches, leaves, List.filterMap_append, ihs]
      split
      · rfl
      · rw [ihb]

theorem leavesOutside_sublist_leaves (cut : α → Bool) (f : Forest α) : (f.leavesOutside cut).Sublist f.leaves := by
  induction f with
  | nil => exact List.Sublist.refl _
  | cons a below beside ihb ihs =>
      rw [leavesOutside, leaves]
      apply List.Sublist.append _ ihs
      split
      · exact List.nil_sublist _
      · split
        · exact List.Sublist.refl _
        · exact ihb

/-- The leaves that are not cut off end the branches on which nothing is cut. -/
theorem leavesOutside_eq_heads (cut : α → Bool) (f : Forest α) :
    f.leavesOutside cut = ((f.branches []).filter fun b => b.all fun a => !cut a).filterMap List.head? := by
  induction f with
  | nil => rfl
  | cons a below beside ihb ihs =>
      rw [leavesOutside, ihs, branches, List.filter_append, List.filterMap_append]
      congr 1
      by_cases hb : below = nil
      · subst hb
        cases hcut : cut a <;> simp [hcut]
      · simp only [isEmpty_eq_false_iff.2 hb, Bool.false_eq_true, if_false]
        rw [branches_eq_map [a] below, List.filter_map, List.filterMap_map]
        cases hcut : cut a with
        | true => simp [Function.comp_def, hcut]
        | false =>
            simp only [Bool.false_eq_true, if_false, ihb, Function.comp_def, List.all_append, List.all_cons,
              hcut, List.all_nil, Bool.not_false, Bool.and_self, Bool.and_true]
            apply List.filterMap_congr
            intro b hmem
            obtain ⟨leaf, up, rfl, _⟩ := exists_cons_of_mem_branches (List.mem_of_mem_filter hmem)
            rfl

theorem mem_branches_of_site {above b : List α} {f : Forest α} {s : Site α} (hs : s ∈ f.sites above)
    (hb : b ∈ s.tree.toForest.branches s.above) : b ∈ f.branches above := by
  induction f generalizing above with
  | nil => simp [sites] at hs
  | cons a below beside ihb ihs =>
      rw [sites, List.mem_cons, List.mem_append] at hs
      rcases hs with rfl | hs | hs
      · rw [Tree.toForest, branches, branches, List.append_nil] at hb
        rw [branches]
        exact List.mem_append_left _ hb
      · have hne : below ≠ nil := by
          rintro rfl
          simp [sites] at hs
        rw [branches_cons_of_ne hne]
        exact List.mem_append_left _ (ihb hs)
      · rw [branches]
        exact List.mem_append_right _ (ihs hs)

theorem suffix_of_mem_branches {above b : List α} {f : Forest α} (hb : b ∈ f.branches above) : above <:+ b := by
  rw [branches_eq_map] at hb
  obtain ⟨c, _, rfl⟩ := List.mem_map.1 hb
  exact List.suffix_append c above

theorem suffix_of_mem_branches_toForest {above b : List α} {t : Tree α} (hb : b ∈ t.toForest.branches above) :
    t.root :: above <:+ b := by
  rw [Tree.toForest, branches, branches, List.append_nil] at hb
  split at hb
  · rw [List.mem_singleton.1 hb]
  · exact suffix_of_mem_branches hb

/-- A branch through a label is a branch of the site of that label. -/
theorem exists_site_of_mem_branches {above pre up : List α} {f : Forest α} {a : α}
    (hb : pre ++ a :: up ∈ f.branches above) (hup : above <:+ up) :
    ∃ s ∈ f.sites above, s.tree.root = a ∧ s.above = up ∧ pre ++ a :: up ∈ s.tree.toForest.branches up := by
  induction f generalizing above with
  | nil => simp [branches] at hb
  | cons c below beside ihb ihs =>
      have hcases : pre ++ a :: up ∈ (Tree.mk c below).toForest.branches above ∨
          pre ++ a :: up ∈ beside.branches above := by
        rw [branches, List.mem_append] at hb
        rw [Tree.toForest, branches, branches, List.append_nil]
        exact hb
      rcases hcases with hb | hb
      · have hsuffix : c :: above <:+ a :: up := by
          apply List.suffix_of_suffix_length_le (suffix_of_mem_branches_toForest hb) (List.suffix_append _ _)
          exact Nat.succ_le_succ hup.length_le
        rcases List.suffix_cons_iff.1 hsuffix with heq | hsuffix
        · obtain ⟨rfl, rfl⟩ := List.cons.inj heq
          exact ⟨⟨⟨c, below⟩, above⟩, by simp [sites], rfl, rfl, hb⟩
        · have hne : below ≠ nil := by
            rintro rfl
            rw [Tree.toForest, branches_cons_nil, branches, List.mem_singleton] at hb
            have hlen := congrArg List.length hb
            have hle := hsuffix.length_le
            simp only [List.length_append, List.length_cons] at hlen hle
            omega
          rw [Tree.toForest, branches_cons_of_ne hne, branches, List.append_nil] at hb
          obtain ⟨s, hs, hsite⟩ := ihb hb hsuffix
          exact ⟨s, by simp [sites, hs], hsite⟩
      · obtain ⟨s, hs, hsite⟩ := ihs hb hup
        exact ⟨s, by simp [sites, hs], hsite⟩

/-- From every place there is a branch upward. -/
theorem exists_branch_of_site {f : Forest α} {s : Site α} (hs : s ∈ f.sites []) :
    ∃ pre, pre ++ s.tree.root :: s.above ∈ f.branches [] := by
  obtain ⟨b, hb⟩ := List.exists_mem_of_ne_nil _
    (branches_ne_nil (f := s.tree.toForest) (fun h => by cases h) s.above)
  obtain ⟨pre, rfl⟩ := suffix_of_mem_branches_toForest hb
  exact ⟨pre, mem_branches_of_site hs hb⟩

theorem mem_labels_of_mem_branch {b : List α} {f : Forest α} (hb : b ∈ f.branches []) {a : α} (ha : a ∈ b) :
    a ∈ f.labels := by
  obtain ⟨pre, up, rfl⟩ := List.append_of_mem ha
  obtain ⟨s, hs, rfl, _⟩ := exists_site_of_mem_branches hb (List.nil_suffix)
  exact mem_labels_of_mem_sites hs

theorem exists_branch_of_mem_labels {f : Forest α} {a : α} (ha : a ∈ f.labels) : ∃ b ∈ f.branches [], a ∈ b := by
  obtain ⟨s, hs, rfl⟩ := exists_site_of_mem_labels ha []
  have hne : s.tree.toForest.branches s.above ≠ [] := branches_ne_nil (by simp [Tree.toForest]) _
  obtain ⟨b, hb⟩ := List.exists_mem_of_ne_nil _ hne
  exact ⟨b, mem_branches_of_site hs hb, (suffix_of_mem_branches_toForest hb).mem List.mem_cons_self⟩

/-! Grafting. -/

theorem isEmpty_graft (p : α → Bool) (new f : Forest α) : (graft p new f).isEmpty = f.isEmpty := by
  cases f <;> rfl

theorem graft_of_forall_not {p : α → Bool} {f : Forest α} (h : ∀ a ∈ f.labels, p a = false) (new : Forest α) :
    graft p new f = f := by
  induction f with
  | nil => rfl
  | cons a below beside ihb ihs =>
      simp only [labels, List.mem_cons, List.mem_append] at h
      have ha : p a = false := h a (Or.inl rfl)
      rw [graft, ha, ihb fun c hc => h c (Or.inr (Or.inl hc)), ihs fun c hc => h c (Or.inr (Or.inr hc))]
      simp

/-- Where only leaves are chosen, grafting prolongs the branches that end there. -/
theorem branches_graft {p : α → Bool} {above : List α} {f new : Forest α} (hnew : new ≠ nil)
    (hleaf : ∀ s ∈ f.sites above, p s.tree.root = true → s.tree.below = nil) :
    (graft p new f).branches above =
      (f.branches above).flatMap fun b => if b.head?.any p then new.branches b else [b] := by
  induction f generalizing above with
  | nil => rfl
  | cons a below beside ihb ihs =>
      have hbeside := @ihs above fun s hs => hleaf s (by simp [sites, hs])
      have hbelow := @ihb (a :: above) fun s hs => hleaf s (by simp [sites, hs])
      by_cases hne : below = nil
      · subst hne
        rw [branches_cons_nil, List.flatMap_cons, graft, ← hbeside]
        cases hp : p a with
        | true =>
            rw [if_pos rfl, append, branches_cons_of_ne hnew]
            simp [hp]
        | false =>
            rw [if_neg Bool.false_ne_true, graft, branches_cons_nil]
            simp [hp]
      · have hp : p a = false := by
          rw [← Bool.not_eq_true]
          intro hp
          exact hne (hleaf ⟨⟨a, below⟩, above⟩ (by simp [sites]) hp)
        have hgraft : graft p new below ≠ nil := by
          rw [← isEmpty_eq_false_iff, isEmpty_graft, isEmpty_eq_false_iff]
          exact hne
        rw [graft, hp, if_neg Bool.false_ne_true, branches_cons_of_ne hgraft, branches_cons_of_ne hne,
          List.flatMap_append, hbelow, hbeside]

theorem labels_graft_perm {p : α → Bool} {f new : Forest α} (h : (f.labels.filter p).length = 1) :
    (graft p new f).labels.Perm (f.labels ++ new.labels) := by
  induction f with
  | nil => simp [labels] at h
  | cons a below beside ihb ihs =>
      have hnone : ∀ {g : Forest α}, (g.labels.filter p).length = 0 → graft p new g = g := by
        intro g hg
        apply graft_of_forall_not
        intro c hc
        rw [List.length_eq_zero_iff, List.filter_eq_nil_iff] at hg
        exact Bool.not_eq_true _ ▸ hg c hc
      rw [labels, List.filter_cons, List.filter_append] at h
      rw [graft]
      cases hp : p a with
      | true =>
          simp only [hp, if_true, List.length_cons, List.length_append] at h
          rw [if_pos rfl, hnone (g := beside) (by omega), labels, labels, labels_append, List.cons_append]
          apply List.Perm.cons
          rw [List.append_assoc, List.append_assoc]
          exact List.perm_append_comm.append_left _
      | false =>
          simp only [hp, Bool.false_eq_true, if_false, List.length_append] at h
          rw [if_neg Bool.false_ne_true, labels, labels, List.cons_append]
          apply List.Perm.cons
          by_cases hb : (below.labels.filter p).length = 1
          · rw [hnone (g := beside) (by omega), List.append_assoc]
            exact ((ihb hb).append_right _).trans (by
              rw [List.append_assoc]
              exact List.perm_append_comm.append_left _)
          · rw [hnone (g := below) (by omega), List.append_assoc]
            exact (ihs (by omega)).append_left _

/-- Where only leaves are chosen, the leaves of what is grafted take their place. -/
theorem leaves_graft {p : α → Bool} {above : List α} {f new : Forest α} (hnew : new ≠ nil)
    (hleaf : ∀ s ∈ f.sites above, p s.tree.root = true → s.tree.below = nil) :
    (graft p new f).leaves = f.leaves.flatMap fun a => if p a then new.leaves else [a] := by
  induction f generalizing above with
  | nil => rfl
  | cons a below beside ihb ihs =>
      have hbeside := @ihs above fun s hs => hleaf s (by simp [sites, hs])
      have hbelow := @ihb (a :: above) fun s hs => hleaf s (by simp [sites, hs])
      by_cases hne : below = nil
      · subst hne
        cases hp : p a with
        | true => simp [graft, leaves, hp, append, isEmpty_eq_false_iff.2 hnew, hbeside]
        | false => simp [graft, leaves, hp, hbeside]
      · have hp : p a = false := by
          rw [← Bool.not_eq_true]
          intro hp
          exact hne (hleaf ⟨⟨a, below⟩, above⟩ (by simp [sites]) hp)
        simp [graft, leaves, hp, isEmpty_graft, isEmpty_eq_false_iff.2 hne, hbelow, hbeside]

/-! Forests of one shape. -/

/-- The forests have the same shape and related labels. -/
inductive Rel (R : α → β → Prop) : Forest α → Forest β → Prop
  | nil : Rel R nil nil
  | cons {a : α} {b : β} {f g : Forest α} {f' g' : Forest β} :
      R a b → Rel R f f' → Rel R g g' → Rel R (cons a f g) (cons b f' g')

namespace Rel

variable {R : α → β → Prop} {S : β → γ → Prop} {f : Forest α} {g : Forest β}

theorem refl {R : α → α → Prop} (hR : ∀ a, R a a) (f : Forest α) : Rel R f f := by
  induction f with
  | nil => exact .nil
  | cons a below beside ihb ihs => exact .cons (hR a) ihb ihs

theorem of_map {h : α → β} (hR : ∀ a, R a (h a)) (f : Forest α) : Rel R f (f.map h) := by
  induction f with
  | nil => exact nil
  | cons a below beside ihb ihs => exact cons (hR a) ihb ihs

theorem imp {T : α → β → Prop} (h : Rel R f g) (hRT : ∀ a b, R a b → T a b) : Rel T f g := by
  induction h with
  | nil => exact .nil
  | cons hab _ _ ihb ihs => exact .cons (hRT _ _ hab) ihb ihs

theorem trans {T : α → γ → Prop} {k : Forest γ} (h : Rel R f g) (h' : Rel S g k)
    (hT : ∀ a b c, R a b → S b c → T a c) : Rel T f k := by
  induction h generalizing k with
  | nil =>
      cases h'
      exact nil
  | cons hab _ _ ihb ihs =>
      cases h' with
      | cons hbc hb hs => exact cons (hT _ _ _ hab hbc) (ihb hb) (ihs hs)

theorem isEmpty_eq (h : Rel R f g) : g.isEmpty = f.isEmpty := by
  cases h <;> rfl

theorem roots (h : Rel R f g) : List.Forall₂ R f.roots g.roots := by
  induction h with
  | nil => exact .nil
  | cons hab _ _ _ ih => exact .cons hab ih

theorem labels (h : Rel R f g) : List.Forall₂ R f.labels g.labels := by
  induction h with
  | nil => exact .nil
  | cons hab _ _ ihb ihs => exact .cons hab (List.rel_append ihb ihs)

theorem map_eq {h : α → γ} {k : β → γ} (hrel : Rel R f g) (hR : ∀ a b, R a b → k b = h a) : g.map k = f.map h := by
  induction hrel with
  | nil => rfl
  | cons hab _ _ ihb ihs => rw [map, map, hR _ _ hab, ihb, ihs]

theorem branches (h : Rel R f g) {up : List α} {up' : List β} (hup : List.Forall₂ R up up') :
    List.Forall₂ (List.Forall₂ R) (f.branches up) (g.branches up') := by
  induction h generalizing up up' with
  | nil => exact .nil
  | cons hab hb _ ihb ihs =>
      simp only [Forest.branches, hb.isEmpty_eq]
      apply List.rel_append _ (ihs hup)
      split
      · exact .cons (.cons hab hup) .nil
      · exact ihb (.cons hab hup)

end Rel

/-- The trees of a forest, from left to right. -/
def trees : Forest α → List (Tree α)
  | nil => []
  | cons a below beside => ⟨a, below⟩ :: beside.trees

theorem ofTrees_trees (f : Forest α) : ofTrees f.trees = f := by
  induction f with
  | nil => rfl
  | cons a below beside _ ih => rw [trees, ofTrees, ih]

end Forest

/-- In related lists each element of one has its fellow in the other. -/
theorem exists_of_forall₂_left {α β : Type} {R : α → β → Prop} {l : List α} {l' : List β}
    (h : List.Forall₂ R l l') {a : α} (ha : a ∈ l) : ∃ b ∈ l', R a b := by
  induction h with
  | nil => simp at ha
  | cons hab _ ih =>
      rcases List.mem_cons.1 ha with rfl | ha
      · exact ⟨_, List.mem_cons_self, hab⟩
      · obtain ⟨b, hb, hR⟩ := ih ha
        exact ⟨b, List.mem_cons_of_mem _ hb, hR⟩

theorem exists_of_forall₂_right {α β : Type} {R : α → β → Prop} {l : List α} {l' : List β}
    (h : List.Forall₂ R l l') {b : β} (hb : b ∈ l') : ∃ a ∈ l, R a b :=
  exists_of_forall₂_left h.flip hb

theorem pairwise_of_forall₂ {α β : Type} {R : α → β → Prop} {S : α → α → Prop} {T : β → β → Prop} {l : List α}
    {l' : List β} (h : List.Forall₂ R l l') (hST : ∀ a b a' b', R a a' → R b b' → S a b → T a' b')
    (hl : l.Pairwise S) : l'.Pairwise T := by
  induction h with
  | nil => exact List.Pairwise.nil
  | cons hab hrest ih =>
      obtain ⟨hhead, htail⟩ := List.pairwise_cons.1 hl
      refine List.pairwise_cons.2 ⟨?_, ih htail⟩
      intro b' hb'
      obtain ⟨b, hb, hbb'⟩ := exists_of_forall₂_right hrest hb'
      exact hST _ b _ b' hab hbb' (hhead b hb)

namespace Tree

variable {α β γ : Type}

/-- The branches of a tree from left to right, each from its leaf upward. -/
def branches (t : Tree α) : List (List α) :=
  t.toForest.branches []

/-- The subtrees of a tree at their places, in depth-first order. -/
def sites (t : Tree α) : List (Site α) :=
  t.toForest.sites []

theorem eq_of_toForest {t u : Tree α} (h : t.toForest = u.toForest) : t = u := by
  injection h with hroot hbelow
  exact congrArg₂ Tree.mk hroot hbelow

theorem toForest_map (h : α → β) (t : Tree α) : (t.map h).toForest = t.toForest.map h := rfl

theorem toForest_graft (p : α → Bool) (new : Forest α) (t : Tree α) :
    (t.graft p new).toForest = .graft p new t.toForest := rfl

@[simp]
theorem labels_map (h : α → β) (t : Tree α) : (t.map h).labels = t.labels.map h := by
  rw [labels, labels, toForest_map, Forest.labels_map]

@[simp]
theorem branches_map (h : α → β) (t : Tree α) : (t.map h).branches = t.branches.map (List.map h) :=
  Forest.branches_map h [] t.toForest

theorem map_id (t : Tree α) : (t.map fun a => a) = t := by
  rw [map, Forest.map_id]

theorem map_map (h : α → β) (k : β → γ) (t : Tree α) : (t.map h).map k = t.map fun a => k (h a) := by
  rw [map, map, map, Forest.map_map]

@[simp]
theorem size_map (h : α → β) (t : Tree α) : (t.map h).size = t.size := by
  rw [size, size, toForest_map, Forest.size_map]

@[simp]
theorem length_labels (t : Tree α) : t.labels.length = t.size :=
  Forest.length_labels _

/-- Trees of one shape whose labels correspond are the same seen through what corresponds. -/
theorem map_eq_of_rel {R : α → β → Prop} {t : Tree α} {u : Tree β} {h : α → γ} {k : β → γ}
    (hrel : Forest.Rel R t.toForest u.toForest) (hR : ∀ a b, R a b → k b = h a) : u.map k = t.map h := by
  obtain ⟨hroot, hbelow, _⟩ := Forest.cons.inj (hrel.map_eq hR)
  rw [map, map, hroot, hbelow]

theorem root_mem_labels (t : Tree α) : t.root ∈ t.labels := by
  simp [labels, toForest, Forest.labels]

/-- Every branch comes up to the root. -/
theorem root_mem_of_mem_branches {t : Tree α} {b : List α} (hb : b ∈ t.branches) : t.root ∈ b :=
  (Forest.suffix_of_mem_branches_toForest hb).mem List.mem_cons_self

theorem branches_ne_nil (t : Tree α) : t.branches ≠ [] :=
  Forest.branches_ne_nil (by simp [toForest]) []

end Tree

end Tableaux
