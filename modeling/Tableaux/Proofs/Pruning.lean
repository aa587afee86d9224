import Mathlib
import Tableaux.Proofs.Forest

/-!
Deletion in forests. Pruning deletes labels with all that is below them, splicing deletes labels alone. Several
deletions come down to one pruning followed by one splicing. A branch of the pruned forest is the upper part of a
branch, a branch of the spliced forest is what is left of one; and a branch of which nothing is pruned and of which
only labels without siblings are spliced out is still there, without these.
-/

namespace Tableaux.Forest

variable {α : Type} {p q : α → Bool} {f g : Forest α}

theorem append_nil (f : Forest α) : f.append nil = f := by
  induction f with
  | nil => rfl
  | cons a below beside _ ih => rw [append, ih]

theorem append_assoc (f g h : Forest α) : (f.append g).append h = f.append (g.append h) := by
  induction f with
  | nil => rfl
  | cons a below beside _ ih => rw [append, append, append, ih]

/-! Deletions one after the other. -/

theorem splice_append (p : α → Bool) (f g : Forest α) : (f.append g).splice p = (f.splice p).append (g.splice p) := by
  induction f with
  | nil => rfl
  | cons a below beside _ ih =>
      rw [append, splice, splice, ih]
      split
      · rw [append_assoc]
      · rfl

theorem prune_append (p : α → Bool) (f g : Forest α) : (f.append g).prune p = (f.prune p).append (g.prune p) := by
  induction f with
  | nil => rfl
  | cons a below beside _ ih =>
      rw [append, prune, prune, ih]
      split <;> rfl

theorem splice_splice (p q : α → Bool) (f : Forest α) : (f.splice p).splice q = f.splice fun a => p a || q a := by
  induction f with
  | nil => rfl
  | cons a below beside ihb ihs =>
      cases hp : p a with
      | true => simp [splice, hp, splice_append, ihb, ihs]
      | false => simp [splice, hp, ihb, ihs]

theorem prune_prune (p q : α → Bool) (f : Forest α) : (f.prune p).prune q = f.prune fun a => p a || q a := by
  induction f with
  | nil => rfl
  | cons a below beside ihb ihs =>
      cases hp : p a with
      | true => simp [prune, hp, ihs]
      | false => simp [prune, hp, ihb, ihs]

/-- What is pruned after a splicing can be pruned before it, except for what is spliced out. -/
theorem prune_splice (p q : α → Bool) (f : Forest α) :
    (f.splice p).prune q = (f.prune fun a => q a && !p a).splice p := by
  induction f with
  | nil => rfl
  | cons a below beside ihb ihs =>
      cases hp : p a with
      | true => simp [splice, prune, hp, prune_append, ihb, ihs]
      | false =>
          cases hq : q a with
          | true => simp [splice, prune, hp, hq, ihs]
          | false => simp [splice, prune, hp, hq, ihb, ihs]

theorem splice_congr (h : ∀ a ∈ f.labels, p a = q a) : f.splice p = f.splice q := by
  induction f with
  | nil => rfl
  | cons a below beside ihb ihs =>
      simp only [labels, List.mem_cons, List.mem_append] at h
      rw [splice, splice, h a (Or.inl rfl), ihb fun c hc => h c (Or.inr (Or.inl hc)),
        ihs fun c hc => h c (Or.inr (Or.inr hc))]

theorem prune_congr (h : ∀ a ∈ f.labels, p a = q a) : f.prune p = f.prune q := by
  induction f with
  | nil => rfl
  | cons a below beside ihb ihs =>
      simp only [labels, List.mem_cons, List.mem_append] at h
      rw [prune, prune, h a (Or.inl rfl), ihb fun c hc => h c (Or.inr (Or.inl hc)),
        ihs fun c hc => h c (Or.inr (Or.inr hc))]

theorem splice_of_forall_not (h : ∀ a ∈ f.labels, p a = false) : f.splice p = f := by
  induction f with
  | nil => rfl
  | cons a below beside ihb ihs =>
      simp only [labels, List.mem_cons, List.mem_append] at h
      rw [splice, h a (Or.inl rfl), if_neg Bool.false_ne_true, ihb fun c hc => h c (Or.inr (Or.inl hc)),
        ihs fun c hc => h c (Or.inr (Or.inr hc))]

theorem prune_of_forall_not (h : ∀ a ∈ f.labels, p a = false) : f.prune p = f := by
  induction f with
  | nil => rfl
  | cons a below beside ihb ihs =>
      simp only [labels, List.mem_cons, List.mem_append] at h
      rw [prune, h a (Or.inl rfl), if_neg Bool.false_ne_true, ihb fun c hc => h c (Or.inr (Or.inl hc)),
        ihs fun c hc => h c (Or.inr (Or.inr hc))]

/-! Images. -/

theorem append_map {β : Type} (h : α → β) (f g : Forest α) : (f.append g).map h = (f.map h).append (g.map h) := by
  induction f with
  | nil => rfl
  | cons a below beside _ ihs => rw [append, map, ihs, map, append]

theorem prune_map {β : Type} (h : α → β) (p : β → Bool) (f : Forest α) :
    (f.map h).prune p = (f.prune fun a => p (h a)).map h := by
  induction f with
  | nil => rfl
  | cons a below beside ihb ihs =>
      rw [map, prune, prune, ihb, ihs]
      split <;> rfl

theorem splice_map {β : Type} (h : α → β) (p : β → Bool) (f : Forest α) :
    (f.map h).splice p = (f.splice fun a => p (h a)).map h := by
  induction f with
  | nil => rfl
  | cons a below beside ihb ihs =>
      rw [map, splice, splice, ihb, ihs]
      split
      · rw [append_map]
      · rfl

theorem Rel.prune {β : Type} {R : α → β → Prop} {q : β → Bool} {g : Forest β} (h : Rel R f g)
    (hR : ∀ a b, R a b → q b = p a) : Rel R (f.prune p) (g.prune q) := by
  induction h with
  | nil => exact .nil
  | cons hab _ _ ihb ihs =>
      rw [Forest.prune, Forest.prune, hR _ _ hab]
      split
      · exact ihs
      · exact .cons hab ihb ihs

/-! Labels and roots. -/

theorem labels_splice (p : α → Bool) (f : Forest α) : (f.splice p).labels = f.labels.filter fun a => !p a := by
  induction f with
  | nil => rfl
  | cons a below beside ihb ihs =>
      cases hp : p a with
      | true => simp [splice, labels, hp, ihb, ihs]
      | false => simp [splice, labels, hp, ihb, ihs]

theorem mem_labels_prune {a : α} (ha : a ∈ (f.prune p).labels) : a ∈ f.labels ∧ p a = false := by
  induction f with
  | nil => cases ha
  | cons c below beside ihb ihs =>
      rw [labels, List.mem_cons, List.mem_append]
      rw [prune] at ha
      split at ha
      · exact ⟨Or.inr (Or.inr (ihs ha).1), (ihs ha).2⟩
      · rename_i hc
        rw [labels, List.mem_cons, List.mem_append] at ha
        rcases ha with rfl | ha | ha
        · exact ⟨Or.inl rfl, Bool.not_eq_true _ ▸ hc⟩
        · exact ⟨Or.inr (Or.inl (ihb ha).1), (ihb ha).2⟩
        · exact ⟨Or.inr (Or.inr (ihs ha).1), (ihs ha).2⟩

theorem eq_nil_of_labels_eq_nil (h : f.labels = []) : f = nil := by
  cases f with
  | nil => rfl
  | cons a below beside => cases h

theorem prune_eq_nil (h : ∀ a ∈ f.labels, p a = true) : f.prune p = nil := by
  refine eq_nil_of_labels_eq_nil (List.eq_nil_iff_forall_not_mem.2 fun a ha => ?_)
  obtain ⟨hmem, hnot⟩ := mem_labels_prune ha
  rw [h a hmem] at hnot
  cases hnot

theorem splice_eq_nil (h : ∀ a ∈ f.labels, p a = true) : f.splice p = nil := by
  apply eq_nil_of_labels_eq_nil
  rw [labels_splice, List.filter_eq_nil_iff]
  intro a ha
  simp [h a ha]

/-- Pruning takes away again what was grafted. -/
theorem prune_graft {new : Forest α} (hnew : ∀ a ∈ new.labels, p a = true) (c : α → Bool) (f : Forest α) :
    (graft c new f).prune p = f.prune p := by
  induction f with
  | nil => rfl
  | cons a below beside ihb ihs =>
      rw [graft, prune, prune, ihs]
      split
      · rfl
      · split
        · rw [prune_append, prune_eq_nil hnew, append_nil]
        · rw [ihb]

theorem roots_prune (p : α → Bool) (f : Forest α) : (f.prune p).roots = f.roots.filter fun a => !p a := by
  induction f with
  | nil => rfl
  | cons a below beside _ ih =>
      cases hp : p a with
      | true => simp [prune, roots, hp, ih]
      | false => simp [prune, roots, hp, ih]

theorem roots_splice_of_not (h : ∀ a ∈ f.roots, p a = false) : (f.splice p).roots = f.roots := by
  induction f with
  | nil => rfl
  | cons a below beside _ ih =>
      simp only [roots, List.mem_cons] at h
      rw [splice, h a (Or.inl rfl), if_neg Bool.false_ne_true, roots, roots, ih fun c hc => h c (Or.inr hc)]

/-! Branches. -/

/-- The branches below a first root, the root at their end. -/
theorem mem_branches_cons {a : α} {below beside : Forest α} {b : List α} :
    b ∈ (cons a below beside).branches [] ↔
      (below = nil ∧ b = [a]) ∨ (∃ c ∈ below.branches [], b = c ++ [a]) ∨ b ∈ beside.branches [] := by
  by_cases hbelow : below = nil
  · subst hbelow
    simp [branches]
  · rw [branches_cons_of_ne hbelow, branches_eq_map [a] below, List.mem_append, List.mem_map]
    simp [hbelow, eq_comm]

theorem exists_suffix_of_mem_branches_prune {b : List α} (hb : b ∈ (f.prune p).branches []) :
    ∃ c ∈ f.branches [], b <:+ c := by
  induction f generalizing b with
  | nil => cases hb
  | cons a below beside ihb ihs =>
      have hbeside : b ∈ (beside.prune p).branches [] → ∃ c ∈ (cons a below beside).branches [], b <:+ c := by
        intro hb
        obtain ⟨c, hc, hsuffix⟩ := ihs hb
        exact ⟨c, mem_branches_cons.2 (Or.inr (Or.inr hc)), hsuffix⟩
      rw [prune] at hb
      split at hb
      · exact hbeside hb
      · rcases mem_branches_cons.1 hb with ⟨_, rfl⟩ | ⟨d, hd, rfl⟩ | hb
        · by_cases hbelow : below = nil
          · exact ⟨[a], mem_branches_cons.2 (Or.inl ⟨hbelow, rfl⟩), List.suffix_refl _⟩
          · obtain ⟨c, hc⟩ := List.exists_mem_of_ne_nil _ (branches_ne_nil hbelow [])
            exact ⟨c ++ [a], mem_branches_cons.2 (Or.inr (Or.inl ⟨c, hc, rfl⟩)), List.suffix_append _ _⟩
        · obtain ⟨c, hc, e, rfl⟩ := ihb hd
          refine ⟨e ++ d ++ [a], mem_branches_cons.2 (Or.inr (Or.inl ⟨_, hc, rfl⟩)), e, ?_⟩
          rw [List.append_assoc]
        · exact hbeside hb

/-- A branch of which nothing is pruned is kept. -/
theorem mem_branches_prune {b : List α} (hb : b ∈ f.branches []) (h : ∀ a ∈ b, p a = false) :
    b ∈ (f.prune p).branches [] := by
  induction f generalizing b with
  | nil => cases hb
  | cons a below beside ihb ihs =>
      have hroot : a ∈ b → (cons a below beside).prune p = cons a (below.prune p) (beside.prune p) := by
        intro ha
        rw [prune, h a ha, if_neg Bool.false_ne_true]
      rcases mem_branches_cons.1 hb with ⟨rfl, rfl⟩ | ⟨c, hc, rfl⟩ | hb
      · rw [hroot List.mem_cons_self]
        exact mem_branches_cons.2 (Or.inl ⟨rfl, rfl⟩)
      · rw [hroot (by simp)]
        exact mem_branches_cons.2 (Or.inr (Or.inl ⟨c, ihb hc fun d hd => h d (List.mem_append_left _ hd), rfl⟩))
      · have hb := ihs hb h
        rw [prune]
        split
        · exact hb
        · exact mem_branches_cons.2 (Or.inr (Or.inr hb))

theorem mem_labels_prune_of_branch {pre up : List α} {a : α} (hb : pre ++ a :: up ∈ f.branches [])
    (h : ∀ c ∈ a :: up, p c = false) : a ∈ (f.prune p).labels := by
  induction f generalizing up with
  | nil => cases hb
  | cons r below beside ihb ihs =>
      have hroot : r ∈ a :: up → (cons r below beside).prune p = cons r (below.prune p) (beside.prune p) := by
        intro hr
        rw [prune, h r hr, if_neg Bool.false_ne_true]
      rcases mem_branches_cons.1 hb with ⟨_, heq⟩ | ⟨c, hc, heq⟩ | hb
      · have hr : a = r ∧ up = [] := by
          cases pre with
          | nil => simpa using heq
          | cons k pre => simp at heq
        rw [hroot (by simp [hr.1])]
        simp [labels, hr.1]
      · rcases List.eq_nil_or_concat up with rfl | ⟨mid, top, rfl⟩
        · have hr : a = r := by simpa using (List.append_inj' heq rfl).2
          rw [hroot (by simp [hr])]
          simp [labels, hr]
        · have heq : (pre ++ a :: mid) ++ [top] = c ++ [r] := by simpa using heq
          obtain ⟨rfl, hr⟩ := List.append_inj' heq rfl
          rw [hroot (by simp [List.singleton_inj.1 hr]), labels, List.mem_cons, List.mem_append]
          refine Or.inr (Or.inl (ihb hc fun k hk => h k ?_))
          rw [List.concat_eq_append, ← List.cons_append]
          exact List.mem_append_left _ hk
      · have hmem := ihs hb h
        rw [prune]
        split
        · exact hmem
        · rw [labels, List.mem_cons, List.mem_append]
          exact Or.inr (Or.inr hmem)

/-- A branch of the spliced forest is what is left of a branch. -/
theorem exists_filter_of_mem_branches_splice {b : List α} (hb : b ∈ (f.splice p).branches []) :
    ∃ c ∈ f.branches [], b = c.filter fun a => !p a := by
  induction f generalizing b with
  | nil => cases hb
  | cons a below beside ihb ihs =>
      have hbelow : ∀ {d}, d ∈ (below.splice p).branches [] →
          ∃ c ∈ (cons a below beside).branches [], (d ++ [a]).filter (fun a => !p a) = c.filter fun a => !p a := by
        intro d hd
        obtain ⟨c, hc, rfl⟩ := ihb hd
        exact ⟨c ++ [a], mem_branches_cons.2 (Or.inr (Or.inl ⟨c, hc, rfl⟩)), by simp⟩
      have hleft : ∀ {d}, d ∈ (below.splice p).branches [] → d.filter (fun a => !p a) = d := by
        intro d hd
        obtain ⟨c, _, rfl⟩ := ihb hd
        simp
      have hbeside : ∀ {d}, d ∈ (beside.splice p).branches [] →
          ∃ c ∈ (cons a below beside).branches [], d = c.filter fun a => !p a := by
        intro d hd
        obtain ⟨c, hc, rfl⟩ := ihs hd
        exact ⟨c, mem_branches_cons.2 (Or.inr (Or.inr hc)), rfl⟩
      rw [splice] at hb
      split at hb
      · rename_i hp
        rw [branches_append, List.mem_append] at hb
        rcases hb with hb | hb
        · obtain ⟨c, hc, heq⟩ := hbelow hb
          refine ⟨c, hc, ?_⟩
          rw [← heq, List.filter_append, hleft hb]
          simp [hp]
        · exact hbeside hb
      · rename_i hp
        have ha : p a = false := Bool.not_eq_true _ ▸ hp
        rcases mem_branches_cons.1 hb with ⟨hnil, rfl⟩ | ⟨d, hd, rfl⟩ | hb
        · by_cases hne : below = nil
          · exact ⟨[a], mem_branches_cons.2 (Or.inl ⟨hne, rfl⟩), by simp [ha]⟩
          · -- everything below `a` is spliced out
            obtain ⟨c, hc⟩ := List.exists_mem_of_ne_nil _ (branches_ne_nil hne [])
            refine ⟨c ++ [a], mem_branches_cons.2 (Or.inr (Or.inl ⟨c, hc, rfl⟩)), ?_⟩
            have hlabels := labels_splice p below
            rw [hnil, labels, eq_comm, List.filter_eq_nil_iff] at hlabels
            have hgone : c.filter (fun a => !p a) = [] :=
              List.filter_eq_nil_iff.2 fun d hd => hlabels d (mem_labels_of_mem_branch hc hd)
            rw [List.filter_append, hgone]
            simp [ha]
        · obtain ⟨c, hc, heq⟩ := hbelow hd
          refine ⟨c, hc, ?_⟩
          rw [← heq, List.filter_append, hleft hd]
          simp [ha]
        · exact hbeside hb

/-! Families: the labels directly below one label. -/

/-- Every family has the property. -/
def Families (P : List α → Prop) : Forest α → Prop
  | nil => True
  | cons _ below beside => P below.roots ∧ below.Families P ∧ beside.Families P

/-- Whoever satisfies `p` has no siblings. -/
def Lone (p : α → Bool) (l : List α) : Prop :=
  ∀ a ∈ l, p a = true → l = [a]

theorem families_iff_sites {P : List α → Prop} (above : List α) :
    f.Families P ↔ ∀ s ∈ f.sites above, P s.tree.below.roots := by
  induction f generalizing above with
  | nil => simp [Families, sites]
  | cons a below beside ihb ihs =>
      rw [Families, ihb (a :: above), ihs above, sites]
      simp only [List.mem_cons, List.mem_append, or_imp, forall_and, forall_eq]

namespace Families

variable {P Q : List α → Prop}

theorem imp (h : f.Families P) (hPQ : ∀ l, (∀ a ∈ l, a ∈ f.labels) → P l → Q l) : f.Families Q := by
  induction f with
  | nil => trivial
  | cons a below beside ihb ihs =>
      obtain ⟨hroots, hbelow, hbeside⟩ := h
      have hsub : ∀ c ∈ below.labels, c ∈ (cons a below beside).labels := by
        intro c hc
        simp [labels, hc]
      refine ⟨hPQ _ (fun c hc => hsub c ((roots_sublist_labels below).mem hc)) hroots,
        ihb hbelow fun l hl => hPQ l fun c hc => hsub c (hl c hc),
        ihs hbeside fun l hl => hPQ l fun c hc => ?_⟩
      simp [labels, hl c hc]

theorem and (h : f.Families P) (h' : f.Families Q) : f.Families fun l => P l ∧ Q l :=
  (families_iff_sites []).2 fun s hs => ⟨(families_iff_sites []).1 h s hs, (families_iff_sites []).1 h' s hs⟩

theorem append (hf : f.Families P) (hg : g.Families P) : (f.append g).Families P := by
  induction f with
  | nil => exact hg
  | cons a below beside _ ih => exact ⟨hf.1, hf.2.1, ih hf.2.2⟩

theorem of_filter (h : f.Families fun l => P (l.filter fun a => !p a)) : (f.prune p).Families P := by
  induction f with
  | nil => trivial
  | cons a below beside ihb ihs =>
      rw [Forest.prune]
      split
      · exact ihs h.2.2
      · refine ⟨?_, ihb h.2.1, ihs h.2.2⟩
        rw [roots_prune]
        exact h.1

theorem prune (h : f.Families P) (hP : ∀ l, P l → P (l.filter fun a => !p a)) : (f.prune p).Families P :=
  (h.imp fun l _ => hP l).of_filter

end Families

/-- Whoever has no siblings has none when others are gone. -/
theorem Lone.filter {l : List α} (h : Lone p l) (q : α → Bool) : Lone p (l.filter q) := by
  intro a ha hp
  obtain ⟨hmem, hq⟩ := List.mem_filter.1 ha
  rw [h a hmem hp, List.filter_singleton, hq, cond_true]

theorem eq_nil_of_roots_eq_nil (h : f.roots = []) : f = nil := by
  cases f with
  | nil => rfl
  | cons a below beside => cases h

theorem exists_cons_of_roots_eq_cons {a : α} {l : List α} (h : f.roots = a :: l) :
    ∃ below beside, f = cons a below beside ∧ beside.roots = l := by
  cases f with
  | nil => cases h
  | cons c below beside =>
      obtain ⟨rfl, rfl⟩ := List.cons.inj h
      exact ⟨below, beside, rfl, rfl⟩

/-- Either the first root is spliced out and was the only one, or no root is. -/
theorem Lone.cases {a : α} {below beside : Forest α} (h : Lone p (cons a below beside).roots) :
    (p a = true ∧ beside = nil) ∨ ∀ c ∈ (cons a below beside).roots, p c = false := by
  cases hp : p a with
  | true => exact Or.inl ⟨rfl, eq_nil_of_roots_eq_nil (List.cons.inj (h a List.mem_cons_self hp)).2⟩
  | false =>
      refine Or.inr fun c hc => ?_
      by_contra hpc
      have heq := h c hc (Bool.not_eq_false _ ▸ hpc)
      rw [(List.cons.inj heq).1] at hp
      exact hpc hp

namespace Families

variable {P : List α → Prop}

/-- A root without siblings makes room for what is below it, any other root stays. -/
theorem roots_splice (h : f.Families P) (hlone : f.Families (Lone p)) (hnil : P []) (hroots : P f.roots)
    (hroot : Lone p f.roots) : P (f.splice p).roots := by
  induction f with
  | nil => exact hnil
  | cons a below beside ihb _ =>
      rcases hroot.cases with ⟨hp, rfl⟩ | hkept
      · rw [splice, hp, if_pos rfl, splice, append_nil]
        exact ihb h.2.1 hlone.2.1 h.1 hlone.1
      · rw [roots_splice_of_not hkept]
        exact hroots

theorem splice (h : f.Families P) (hlone : f.Families (Lone p)) (hnil : P []) : (f.splice p).Families P := by
  induction f with
  | nil => trivial
  | cons a below beside ihb ihs =>
      rw [Forest.splice]
      split
      · exact (ihb h.2.1 hlone.2.1).append (ihs h.2.2 hlone.2.2)
      · exact ⟨h.2.1.roots_splice hlone.2.1 hnil h.1 hlone.1, ihb h.2.1 hlone.2.1, ihs h.2.2 hlone.2.2⟩

end Families

/-- If only labels without siblings are spliced out, a branch is kept without these, unless nothing is left at all. -/
theorem mem_branches_splice {b : List α} (hlone : f.Families (Lone p)) (hroot : Lone p f.roots)
    (hb : b ∈ f.branches []) : b.filter (fun a => !p a) ∈ (f.splice p).branches [] ∨
      (b.filter (fun a => !p a) = [] ∧ f.splice p = nil) := by
  induction f generalizing b with
  | nil => cases hb
  | cons a below beside ihb ihs =>
      rcases hroot.cases with ⟨hp, rfl⟩ | hkept
      · rw [splice, hp, if_pos rfl, splice, append_nil]
        rcases mem_branches_cons.1 hb with ⟨rfl, rfl⟩ | ⟨c, hc, rfl⟩ | hb
        · exact Or.inr ⟨by simp [hp], rfl⟩
        · have hfilter : (c ++ [a]).filter (fun a => !p a) = c.filter fun a => !p a := by simp [hp]
          rw [hfilter]
          exact ihb hlone.2.1 hlone.1 hc
        · cases hb
      · have hp : p a = false := hkept a List.mem_cons_self
        have hbeside : Lone p beside.roots := by
          intro c hc hpc
          rw [hkept c (List.mem_cons_of_mem _ hc)] at hpc
          cases hpc
        left
        rw [splice, hp, if_neg Bool.false_ne_true]
        rcases mem_branches_cons.1 hb with ⟨rfl, rfl⟩ | ⟨c, hc, rfl⟩ | hb
        · exact mem_branches_cons.2 (Or.inl ⟨rfl, by simp [hp]⟩)
        · have hfilter : (c ++ [a]).filter (fun a => !p a) = c.filter (fun a => !p a) ++ [a] := by simp [hp]
          rw [hfilter]
          rcases ihb hlone.2.1 hlone.1 hc with hc | ⟨hempty, hnil⟩
          · exact mem_branches_cons.2 (Or.inr (Or.inl ⟨_, hc, rfl⟩))
          · rw [hempty]
            exact mem_branches_cons.2 (Or.inl ⟨hnil, rfl⟩)
        · refine mem_branches_cons.2 (Or.inr (Or.inr ?_))
          rcases ihs hlone.2.2 hbeside hb with hb | ⟨_, hnil⟩
          · exact hb
          · -- the roots beside stay, so something is left of them
            have hroots := roots_splice_of_not fun c hc => hkept c (List.mem_cons_of_mem _ hc)
            rw [hnil] at hroots
            rw [eq_nil_of_roots_eq_nil hroots.symm] at hb
            cases hb

end Tableaux.Forest
