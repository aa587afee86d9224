import Mathlib
import Tableaux.Proofs.Causes

/-!
What a step may change. A step other than a removal only adds nodes below open branches: without the new nodes the tree
is the old one, with marks added. A removal only takes nodes away, and what it leaves stands in the same order and above
and below the same as before. So of two trees one before and one after a step, one is always a part of the other, up to
marks.
-/

namespace Tableaux

/-- In a list without duplicates, and in a part of it, elements stand in the same order. -/
theorem pair_sublist_iff {α : Type} {l l' : List α} (hnodup : l.Nodup) (hsub : l'.Sublist l) {a b : α} (ha : a ∈ l')
    (hb : b ∈ l') : [a, b].Sublist l' ↔ [a, b].Sublist l := by
  classical
  refine ⟨fun h => h.trans hsub, fun h => ?_⟩
  have hpart : l.filter (fun c => decide (c ∈ l')) = l' := by
    have hself : l'.filter (fun c => decide (c ∈ l')) = l' := List.filter_eq_self.2 fun c hc => decide_eq_true hc
    have hfilter := hsub.filter fun c => decide (c ∈ l')
    rw [hself] at hfilter
    refine (hfilter.eq_of_length_le (List.subperm_of_subset (hnodup.filter _) fun c hc => ?_).length_le).symm
    exact of_decide_eq_true (List.mem_filter.1 hc).2
  have hpair := h.filter fun c => decide (c ∈ l')
  rwa [List.filter_eq_self.2 (by simp [ha, hb]), hpart] at hpair

namespace Forest

variable {f g k : Forest Node} {p : Node → Bool} {i j : Nat}

/-! Parts of a forest. -/

/-- Of what the second forest holds, nothing has lost what stood above it in the first. -/
def Retains (f g : Forest Node) : Prop :=
  ∀ a ∈ g.labels, ∀ n ∈ g.labels, f.Above a n → g.Above a n

namespace Retains

theorem refl (f : Forest Node) : f.Retains f :=
  fun _ _ _ _ h => h

theorem trans (h : f.Retains g) (h' : g.Retains k) (hshrinks : g.Shrinks k) : f.Retains k :=
  fun a ha n hn habove => h' a ha n hn (h a (hshrinks.labels.mem ha) n (hshrinks.labels.mem hn) habove)

section Cons

variable {r : Node} {f' g' : Forest Node} (hnodup : (Forest.cons r f g).labels.Nodup) (hf : f.Retains f')
  (hg : g.Retains g') (hff' : f.Shrinks f') (hgg' : g.Shrinks g')
include hnodup hf hg hff' hgg'

/-- When a root goes, what is left below it takes its place. -/
theorem lift : (Forest.cons r f g).Retains (f'.append g') := by
  rw [Forest.labels, List.nodup_cons, List.mem_append, not_or, List.nodup_append'] at hnodup
  obtain ⟨⟨hrf, hrg⟩, _, _, hdisjoint⟩ := hnodup
  intro a ha n hn habove
  rw [labels_append, List.mem_append] at ha hn
  rw [above_append]
  rcases above_cons.1 habove with ⟨rfl, _⟩ | habove | habove
  · exact ha.elim (fun ha => absurd (hff'.labels.mem ha) hrf) fun ha => absurd (hgg'.labels.mem ha) hrg
  · have hbelow : ∀ c, c ∈ f.labels → c ∈ f'.labels ∨ c ∈ g'.labels → c ∈ f'.labels :=
      fun c hc hmem => hmem.resolve_right fun hc' => hdisjoint hc (hgg'.labels.mem hc')
    exact Or.inl (hf a (hbelow a habove.mem_labels ha) n (hbelow n habove.below_mem_labels hn) habove)
  · have hbeside : ∀ c, c ∈ g.labels → c ∈ f'.labels ∨ c ∈ g'.labels → c ∈ g'.labels :=
      fun c hc hmem => hmem.resolve_left fun hc' => hdisjoint (hff'.labels.mem hc') hc
    exact Or.inr (hg a (hbeside a habove.mem_labels ha) n (hbeside n habove.below_mem_labels hn) habove)

theorem cons : (Forest.cons r f g).Retains (Forest.cons r f' g') := by
  intro a ha n hn habove
  have hlift := lift hnodup hf hg hff' hgg'
  rw [Forest.labels, List.nodup_cons, List.mem_append, not_or, List.nodup_append'] at hnodup
  obtain ⟨⟨hrf, hrg⟩, _, _, hdisjoint⟩ := hnodup
  have hne : ∀ {c d : Node}, f.Above c d ∨ g.Above c d → c ≠ r ∧ d ≠ r := by
    rintro c d (hcd | hcd)
    · exact ⟨fun hc => hrf (hc ▸ hcd.mem_labels), fun hd => hrf (hd ▸ hcd.below_mem_labels)⟩
    · exact ⟨fun hc => hrg (hc ▸ hcd.mem_labels), fun hd => hrg (hd ▸ hcd.below_mem_labels)⟩
  rw [Forest.labels, List.mem_cons, ← labels_append] at ha hn
  rw [above_cons, ← above_append]
  rcases above_cons.1 habove with ⟨rfl, hmem⟩ | hrest
  · refine Or.inl ⟨rfl, ?_⟩
    rw [labels_append, List.mem_append] at hn
    rcases hn with rfl | hn | hn
    · exact absurd hmem hrf
    · exact hn
    · exact absurd (hgg'.labels.mem hn) (hdisjoint hmem)
  · obtain ⟨hac, hnc⟩ := hne hrest
    exact Or.inr (hlift a (ha.resolve_left hac) n (hn.resolve_left hnc) habove)

end Cons

theorem nil : f.Retains nil :=
  fun _ ha => by cases ha

theorem prune (p : Node → Bool) (hnodup : f.labels.Nodup) : f.Retains (f.prune p) := by
  induction f with
  | nil => exact .nil
  | cons r f g ihf ihg =>
      have hnodup' := hnodup
      rw [Forest.labels, List.nodup_cons, List.nodup_append'] at hnodup'
      obtain ⟨_, hf, hg, _⟩ := hnodup'
      rw [Forest.prune]
      split
      · exact lift hnodup nil (ihg hg) ⟨List.nil_sublist _, fun _ hb => by cases hb⟩ (.prune p g)
      · exact cons hnodup (ihf hf) (ihg hg) (.prune p f) (.prune p g)

theorem splice (p : Node → Bool) (hnodup : f.labels.Nodup) : f.Retains (f.splice p) := by
  induction f with
  | nil => exact .nil
  | cons r f g ihf ihg =>
      have hnodup' := hnodup
      rw [Forest.labels, List.nodup_cons, List.nodup_append'] at hnodup'
      obtain ⟨_, hf, hg, _⟩ := hnodup'
      rw [Forest.splice]
      split
      · exact lift hnodup (ihf hf) (ihg hg) (.splice p f) (.splice p g)
      · exact cons hnodup (ihf hf) (ihg hg) (.splice p f) (.splice p g)

theorem exciseWithin (generations id : Nat) (hnodup : f.labels.Nodup) : f.Retains (f.exciseWithin generations id) := by
  induction generations generalizing f id with
  | zero => exact .refl f
  | succ generations ih =>
      rw [exciseWithin_succ]
      have hstrip : f.Retains (f.strip generations id) := by
        rcases strip_cases generations id f with ⟨heq, _⟩ | ⟨s, _, _, heq⟩
        · rw [heq]
          exact .refl f
        · rw [heq]
          refine (List.foldlRecOn (motive := fun g => f.Shrinks g ∧ f.Retains g) _ _
            ⟨.prune _ f, .prune _ hnodup⟩ ?_).2
          intro g ⟨hshrinks, hretains⟩ d _
          exact ⟨hshrinks.trans (.exciseWithin generations d g),
            hretains.trans (ih d (hshrinks.labels.nodup hnodup)) (.exciseWithin generations d g)⟩
      have hshrinks := Shrinks.strip generations id f
      exact hstrip.trans (.splice _ (hshrinks.labels.nodup hnodup)) (.splice _ _)

end Retains

/-- The first number stands above the second on some branch. -/
def Over (f : Forest Node) (i j : Nat) : Prop :=
  ∃ b ∈ f.branches [], [j, i].Sublist (b.map Node.id)

theorem over_iff_above : f.Over i j ↔ ∃ a n, f.Above a n ∧ a.id = i ∧ n.id = j := by
  constructor
  · rintro ⟨b, hb, hsub⟩
    obtain ⟨l, hl, heq⟩ := List.sublist_map_iff.1 hsub
    obtain ⟨n, _, rfl, hn, hrest⟩ := List.map_eq_cons_iff.1 heq.symm
    obtain ⟨a, _, rfl, ha, hnil⟩ := List.map_eq_cons_iff.1 hrest
    obtain rfl := List.map_eq_nil_iff.1 hnil
    exact ⟨a, n, ⟨b, hb, hl⟩, ha, hn⟩
  · rintro ⟨a, n, ⟨b, hb, hsub⟩, rfl, rfl⟩
    exact ⟨b, hb, hsub.map Node.id⟩

theorem over_congr (h : f.map Node.id = g.map Node.id) : f.Over i j ↔ g.Over i j := by
  have hbranches : (f.branches []).map (List.map Node.id) = (g.branches []).map (List.map Node.id) := by
    rw [← branches_map, ← branches_map, h]
  have hover : ∀ f : Forest Node,
      f.Over i j ↔ ∃ b ∈ (f.branches []).map (List.map Node.id), [j, i].Sublist b := fun f => by simp [Over]
  rw [hover, hover, hbranches]

/-- The second forest is a part of the first, up to marks. -/
def Part (f g : Forest Node) : Prop :=
  ∃ k, f.Shrinks k ∧ f.Retains k ∧ g.map Node.id = k.map Node.id

namespace Part

variable (h : f.Part g) (hnodup : (f.labels.map Node.id).Nodup)
include h

theorem ids_sublist : (g.labels.map Node.id).Sublist (f.labels.map Node.id) := by
  obtain ⟨k, hshrinks, _, heq⟩ := h
  rw [← labels_map, heq, labels_map]
  exact hshrinks.labels.map Node.id

include hnodup

/-- In a part the same stands above the same. -/
theorem over_iff (hi : i ∈ g.labels.map Node.id) (hj : j ∈ g.labels.map Node.id) : g.Over i j ↔ f.Over i j := by
  obtain ⟨k, hshrinks, hretains, heq⟩ := h
  rw [← labels_map, heq, labels_map, List.mem_map] at hi hj
  obtain ⟨c, hc, rfl⟩ := hi
  obtain ⟨d, hd, rfl⟩ := hj
  rw [over_congr heq, over_iff_above, over_iff_above]
  constructor
  · rintro ⟨a, n, habove, ha, hn⟩
    exact ⟨a, n, hshrinks.above habove, ha, hn⟩
  · rintro ⟨a, n, habove, ha, hn⟩
    rw [List.inj_on_of_nodup_map hnodup habove.mem_labels (hshrinks.labels.mem hc) ha,
      List.inj_on_of_nodup_map hnodup habove.below_mem_labels (hshrinks.labels.mem hd) hn] at habove
    exact ⟨c, d, hretains c hc d hd habove, rfl, rfl⟩

/-- In a part everything stands in the same order. -/
theorem order_iff (hi : i ∈ g.labels.map Node.id) (hj : j ∈ g.labels.map Node.id) :
    [i, j].Sublist (g.labels.map Node.id) ↔ [i, j].Sublist (f.labels.map Node.id) :=
  pair_sublist_iff hnodup h.ids_sublist hi hj

end Part

end Forest

/-- What a step other than a removal leaves of a node: all but marks, which are only added, and instances, which only
become more. -/
structure Node.Lasts (n m : Node) : Prop where
  id : m.id = n.id
  signed : m.signed = n.signed
  origin : m.origin = n.origin
  ticked : n.ticked = true → m.ticked = true
  instances : n.instances <+: m.instances
  closed : n.closed = true → m.closed = true
  branchClosed : n.branchClosed = true → m.branchClosed = true
  contradictory : n.contradictory = true → m.contradictory = true

namespace Node.Lasts

variable {n m k : Node}

theorem refl (n : Node) : n.Lasts n :=
  ⟨rfl, rfl, rfl, fun h => h, List.prefix_refl _, fun h => h, fun h => h, fun h => h⟩

theorem trans (h : n.Lasts m) (h' : m.Lasts k) : n.Lasts k where
  id := h'.id.trans h.id
  signed := h'.signed.trans h.signed
  origin := h'.origin.trans h.origin
  ticked := h'.ticked ∘ h.ticked
  instances := h.instances.trans h'.instances
  closed := h'.closed ∘ h.closed
  branchClosed := h'.branchClosed ∘ h.branchClosed
  contradictory := h'.contradictory ∘ h.contradictory

theorem of_markedTo (h : n.MarkedTo m) : n.Lasts m where
  id := h.id
  signed := h.signed
  origin := h.origin
  ticked hn := h.ticked.trans hn
  instances := h.instances ▸ List.prefix_refl _
  closed := h.closed
  branchClosed := h.branchClosed
  contradictory := h.contradictory

theorem touch (id : Nat) (x : Option Term) (done : Bool) (n : Node) : n.Lasts (Tableau.touch id x done n) := by
  rw [Tableau.touch]
  split
  · exact ⟨rfl, rfl, rfl, fun h => by simp [h], Term.prefix_elim_enter _ x, fun h => h, fun h => h, fun h => h⟩
  · exact .refl n

end Node.Lasts

namespace Tableau

variable {t t' t'' : Tableau}

/-- The second tableau comes of the first without a removal: without the nodes made since then its tree is the old one,
with marks added, and below a closed node there is nothing new. -/
structure Extends (t t' : Tableau) : Prop where
  tree : Forest.Rel Node.Lasts t.tree.toForest (t'.tree.toForest.prune fun m => decide (t.slots ≤ m.id))
  closed : ∀ n ∈ t.tree.labels, n.branchClosed = true → ∀ k, t'.tree.toForest.Over n.id k →
    k ∈ t.tree.labels.map Node.id
  slots_le : t.slots ≤ t'.slots
  terms : t.terms <+: t'.terms

namespace Extends

theorem exists_lasting (h : t.Extends t') {n : Node} (hn : n ∈ t.tree.labels) : ∃ m ∈ t'.tree.labels, n.Lasts m := by
  obtain ⟨m, hm, hlasts⟩ := exists_of_forall₂_left h.tree.labels hn
  exact ⟨m, (Forest.mem_labels_prune hm).1, hlasts⟩

/-- The old tree is a part of the new one. -/
theorem part (h : t.Extends t') (hi : Indexed t') : t'.tree.toForest.Part t.tree.toForest :=
  ⟨_, .prune _ _, .prune _ hi.numbered.of_map, (h.tree.map_eq fun _ _ hlasts => hlasts.id).symm⟩

/-- No number is given out again. -/
theorem old (h : t.Extends t') (hi : Indexed t') {m : Node} (hm : m ∈ t'.tree.labels) (hlt : m.id < t.slots) :
    m.id ∈ t.tree.labels.map Node.id := by
  by_cases hkept : m ∈ (t'.tree.toForest.prune fun m => decide (t.slots ≤ m.id)).labels
  · obtain ⟨n, hn, hlasts⟩ := exists_of_forall₂_right h.tree.labels hkept
    exact hlasts.id ▸ List.mem_map_of_mem hn
  · -- above an old node there is nothing new
    obtain ⟨k, _, hnew, hkm⟩ := Forest.exists_pruned hm hkept
    have hslots := of_decide_eq_true hnew
    rcases hkm with rfl | ⟨b, hb, hsub⟩
    · exact absurd hlt (Nat.not_lt.2 hslots)
    · have hyounger := List.rel_of_pairwise_cons ((hi.ordered b hb).sublist hsub) List.mem_cons_self
      omega

theorem refl (h : Indexed t) : t.Extends t where
  tree := by
    rw [Forest.prune_of_forall_not fun n hn => decide_eq_false (Nat.not_le.2 (h.id_lt n hn))]
    exact .refl Node.Lasts.refl _
  closed _ _ _ k hover := by
    obtain ⟨_, n, habove, _, rfl⟩ := Forest.over_iff_above.1 hover
    exact List.mem_map_of_mem habove.below_mem_labels
  slots_le := le_rfl
  terms := List.prefix_refl _

theorem trans (h : t.Extends t') (h' : t'.Extends t'') (hi : Indexed t'') : t.Extends t'' where
  tree := by
    have hrest := h'.tree.prune (p := fun m => decide (t.slots ≤ m.id)) (q := fun m => decide (t.slots ≤ m.id))
      fun n m hlasts => by rw [hlasts.id]
    rw [Forest.prune_prune] at hrest
    have hprune : t''.tree.toForest.prune (fun m => decide (t'.slots ≤ m.id) || decide (t.slots ≤ m.id)) =
        t''.tree.toForest.prune fun m => decide (t.slots ≤ m.id) := by
      refine Forest.prune_congr fun m _ => ?_
      have hslots := h.slots_le
      rw [Bool.eq_iff_iff, Bool.or_eq_true, decide_eq_true_eq, decide_eq_true_eq]
      omega
    rw [hprune] at hrest
    exact h.tree.trans hrest fun _ _ _ => Node.Lasts.trans
  closed n hn hclosed k hover := by
    obtain ⟨m, hm, hlasts⟩ := h.exists_lasting hn
    rw [← hlasts.id] at hover
    have hk := h'.closed m hm (hlasts.branchClosed hclosed) k hover
    have hover := ((h'.part hi).over_iff hi.numbered (List.mem_map_of_mem hm) hk).2 hover
    exact h.closed n hn hclosed k (hlasts.id ▸ hover)
  slots_le := h.slots_le.trans h'.slots_le
  terms := h.terms.trans h'.terms

theorem closesTo (hi : Indexed t) (h : t.ClosesTo t') : t.Extends t' where
  tree := by
    have hold : ∀ m ∈ t'.tree.labels, decide (t.slots ≤ m.id) = false := fun m hm =>
      decide_eq_false (Nat.not_le.2 (h.slots ▸ (h.indexed hi).id_lt m hm))
    rw [Forest.prune_of_forall_not hold]
    exact h.tree.imp fun _ _ => Node.Lasts.of_markedTo
  closed _ _ _ k hover := by
    obtain ⟨_, m, habove, _, rfl⟩ := Forest.over_iff_above.1 hover
    obtain ⟨n, hn, hmarked⟩ := h.exists_label habove.below_mem_labels
    exact hmarked.id ▸ List.mem_map_of_mem hn
  slots_le := h.slots.ge
  terms := h.terms ▸ List.prefix_refl _

theorem sendToBack (hi : Indexed t) (id : Nat) : t.Extends (t.sendToBack id) := by
  rw [sendToBack_eq]
  exact ⟨(refl hi).tree, (refl hi).closed, le_rfl, List.prefix_refl _⟩

end Extends

/-! Premises. -/

theorem prefix_seed (o : Options) (terms : List Term) (f : Formula) : terms <+: seed o terms f := by
  rw [seed]
  split
  · exact List.foldlRecOn (motive := fun l => terms <+: l) _ _ (List.prefix_refl _)
      fun l hl x _ => hl.trans (Term.prefix_enter l x)
  · exact List.prefix_refl _

theorem extends_stated (h : Valid t) (s : Signed) {leaf : Node} {up : List Node}
    (hpath : t.tree.branches = [leaf :: up]) (hopen : leaf.branchClosed = false) :
    t.Extends (t.stated s leaf.id) where
  tree := by
    rw [stated, attach, Tree.toForest_graft, Forest.prune_graft]
    · exact (Extends.refl h.toIndexed).tree
    · intro m hm
      rw [List.mem_singleton.1 hm]
      exact decide_eq_true le_rfl
  closed n hn hclosed := by
    -- a premise is only put on an open branch, which holds the whole tree
    obtain ⟨b, hb, hnb⟩ := Tree.exists_branch_of_mem_labels hn
    rw [hpath, List.mem_singleton] at hb
    have hopen := h.agree.openBranch (hpath ▸ List.mem_cons_self) hopen n (hb ▸ hnb)
    cases hopen.symm.trans hclosed
  slots_le := Nat.le_add_right _ _
  terms := prefix_seed _ _ _

theorem extends_assume (h : Valid t) (s : Signed) : t.Extends (t.assume s).2 := by
  rcases assume_cases t s with ⟨_, heq⟩ | ⟨leaf, up, hpath, hopen, heq⟩
  · rw [heq]
    exact .refl h.toIndexed
  · rw [heq]
    exact extends_stated h s hpath hopen

/-! Developments. -/

section Applied

variable {n : Node} {x : Option Term} {e : Expansion} {p : Node → Bool}

/-- Where everything new is pruned, the tree is as before. -/
theorem prune_grow (t : Tableau) {origin : Nat} (leaves : List Nat)
    (hnew : ∀ id m, t.slots ≤ id → m ∈ (e.toForest origin id).labels → p m = true) :
    (t.grow origin e leaves).tree.toForest.prune p = t.tree.toForest.prune p := by
  induction leaves generalizing t with
  | nil => rfl
  | cons leaf leaves ih =>
      have hnew' : ∀ id m, (t.extend origin e leaf).slots ≤ id → m ∈ (e.toForest origin id).labels → p m = true :=
        fun id m hle => hnew id m ((Nat.le_add_right _ _).trans hle)
      rw [grow_cons, ih _ hnew', extend, attach, Tree.toForest_graft, Forest.prune_graft]
      exact fun m hm => hnew t.slots m le_rfl hm

theorem prune_applied (leaves : List Nat)
    (hnew : ∀ id m, t.slots ≤ id → m ∈ (e.toForest n.id id).labels → p m = true)
    (hold : ∀ m ∈ t.tree.labels, p m = false) (htouch : ∀ y done m, p (touch n.id y done m) = p m) :
    (t.applied n x e leaves).tree.toForest.prune p = t.tree.toForest.map (touch n.id x !n.kind.isReusable) := by
  have hnew' : ∀ id m, (t.enterTerm n.id x).slots ≤ id → m ∈ (e.toForest n.id id).labels → p m = true := by
    rwa [slots_enterTerm]
  simp only [tree_applied, tree_enterTerm, Tree.toForest_map, Forest.prune_map, htouch, prune_grow _ leaves hnew',
    Forest.prune_of_forall_not hold, Forest.map_map, touch_touch]

theorem extends_applied (h : Valid t) (hn : n ∈ t.tree.labels)
    (happlied : Applied n x e (t.openLeavesBelow n.id) t (t.applied n x e (t.openLeavesBelow n.id))) :
    t.Extends (t.applied n x e (t.openLeavesBelow n.id)) where
  tree := by
    rw [prune_applied]
    · exact .of_map (fun m => .touch n.id x _ m) _
    · intro id m hle hm
      exact decide_eq_true (hle.trans ((e.numberedFrom_toForest n.id id).id_bounds hm).1)
    · exact fun m hm => decide_eq_false (Nat.not_le.2 (h.id_lt m hm))
    · exact fun y done m => by rw [(sameJudgement_touch n.id y done).id]
  closed m hm hclosed k hover := by
    have hids : ∀ b : List Node, (b.map (touch n.id x !n.kind.isReusable)).map Node.id = b.map Node.id := by
      intro b
      rw [List.map_map]
      exact List.map_congr_left fun c _ => (sameJudgement_touch _ _ _).id c
    obtain ⟨b', hb', hsub⟩ := hover
    obtain ⟨b, hb, ⟨_, rfl⟩ | ⟨hends, chain, _, id, hle, rfl⟩⟩ := happlied.source b' hb'
    · rw [hids] at hsub
      obtain ⟨c, hc, rfl⟩ := List.mem_map.1 (hsub.mem List.mem_cons_self)
      exact List.mem_map_of_mem (Tree.mem_labels_of_mem_branch hb hc)
    · -- new nodes are put below open branches only
      have hmem : m.id ∈ ((Node.ofChain n.id id chain).reverse ++
          b.map (touch n.id x !n.kind.isReusable)).map Node.id := hsub.mem (by simp)
      rw [List.map_append, hids, List.mem_append, List.mem_map, List.mem_map] at hmem
      rcases hmem with ⟨c, hc, hid⟩ | ⟨c, hc, hid⟩
      · have hbounds := Node.id_bounds_of_mem_ofChain (List.mem_reverse.1 hc)
        have hlt := h.id_lt m hm
        omega
      · have hopen := (mem_of_endsIn_openLeavesBelow h.toCoherent hn hb hends).2 c hc
        rw [h.numbered.eq_of_id_eq (Tree.mem_labels_of_mem_branch hb hc) hm hid, hclosed] at hopen
        cases hopen
  slots_le := happlied.slots_le
  terms := by
    rw [(applied_frame t n x e _).2.1]
    exact Term.prefix_elim_enter _ x

end Applied

theorem extends_develop (h : Valid t) (id : Nat) (term : Option Term) : t.Extends (t.develop id term).2 := by
  rcases develop_cases h id term with ⟨_, _, heq⟩ | ⟨_, _, _, heq⟩ | ⟨n, _, _, hnode, hticked, hclosed, _⟩
  · rw [heq]
    exact .refl h.toIndexed
  · rw [heq]
    exact .refl h.toIndexed
  · obtain ⟨hn, rfl⟩ := node_eq_ok hnode
    obtain ⟨e, he, happlied, hvalid⟩ := applied_waiting h hn hticked hclosed term
    rw [develop_eq h hnode hticked hclosed he]
    have hcloses := closesTo_closeBranches (t.applied n (t.given n term) e (t.openLeavesBelow n.id)) n.id
    exact (extends_applied h hn happlied).trans (.closesTo hvalid.toIndexed hcloses) (hcloses.indexed hvalid.toIndexed)

/-! Steps that remove nothing. -/

theorem extends_checkClosed (h : Valid t) (id : Nat) : t.Extends (t.checkClosed id).2 :=
  .closesTo h.toIndexed (closesTo_checkClosed t id)

theorem extends_defer (h : Valid t) (id : Nat) : t.Extends (t.defer id).2 := by
  rcases defer_cases t id with heq | heq
  · rw [heq]
    exact .refl h.toIndexed
  · rw [heq]
    exact .sendToBack h.toIndexed id

theorem extends_search (h : Valid t) (limits : Limits) : t.Extends (t.search limits).2 := by
  refine (search_induction (P := fun u => Valid u ∧ t.Extends u) ?_ ?_ ?_ limits ⟨h, .refl h.toIndexed⟩).2
  · rintro u id ⟨hu, hextends⟩
    have hvalid := valid_checkClosed hu id
    exact ⟨hvalid, hextends.trans (extends_checkClosed hu id) hvalid.toIndexed⟩
  · rintro u id ⟨hu, hextends⟩
    have hvalid := valid_develop hu id none
    exact ⟨hvalid, hextends.trans (extends_develop hu id none) hvalid.toIndexed⟩
  · rintro u id ⟨hu, hextends⟩
    have hvalid := valid_defer hu id
    exact ⟨hvalid, hextends.trans (extends_defer hu id) hvalid.toIndexed⟩

theorem extends_perform (h : Valid t) {step : Step} (hstep : ∀ id, step ≠ .remove id) :
    t.Extends (t.perform step).2 := by
  cases step with
  | assume s => exact extends_assume h s
  | develop id term => exact extends_develop h id term
  | remove id => exact absurd rfl (hstep id)
  | checkClosed id => exact extends_checkClosed h id
  | defer id => exact extends_defer h id
  | search limits => exact extends_search h limits

/-! Ancestors and order. -/

/-- The first node is above the second in the tree. -/
def Ancestor (t : Tableau) (i j : Nat) : Prop :=
  Relation.TransGen (fun p c => c ∈ t.children p) i j

/-- The first node comes before the second in the depth-first order from left to right. -/
def Precedes (t : Tableau) (i j : Nat) : Prop :=
  [i, j].Sublist (t.tree.labels.map Node.id)

theorem isLive_of_mem_children (h : t.tree.Numbered) {p c : Nat} (hc : c ∈ t.children p) : t.isLive p = true := by
  cases hlive : t.isLive p with
  | true => rfl
  | false =>
      rw [(forgotten h hlive).2] at hc
      cases hc

theorem above_of_mem_children (h : t.tree.Numbered) {p c : Nat} (hc : c ∈ t.children p) :
    ∃ a n, t.tree.toForest.Above a n ∧ a.id = p ∧ n.id = c := by
  obtain ⟨s, hs, rfl⟩ := exists_site_of_isLive h (isLive_of_mem_children h hc)
  rw [children_site h hs, List.mem_map] at hc
  obtain ⟨n, hn, rfl⟩ := hc
  exact ⟨s.tree.root, n, (Forest.above_iff h hs).2 ((Forest.roots_sublist_labels _).mem hn), rfl, rfl⟩

theorem ancestor_iff_over (h : Indexed t) {i j : Nat} : t.Ancestor i j ↔ t.tree.toForest.Over i j := by
  rw [Forest.over_iff_above]
  constructor
  · intro hdown
    induction hdown with
    | single hc => exact above_of_mem_children h.numbered hc
    | tail _ hc ih =>
        obtain ⟨a, m, ham, ha, hm⟩ := ih
        obtain ⟨m', n, hmn, hm', hn⟩ := above_of_mem_children h.numbered hc
        obtain rfl := h.numbered.eq_of_id_eq hmn.mem_labels ham.below_mem_labels (hm'.trans hm.symm)
        exact ⟨a, n, ham.trans h.numbered hmn, ha, hn⟩
  · rintro ⟨a, n, habove, rfl, rfl⟩
    exact transGen_of_above h habove

theorem mem_ids_iff (h : t.tree.Numbered) {id : Nat} :
    id ∈ t.tree.toForest.labels.map Node.id ↔ t.isLive id = true := by
  rw [isLive_iff h, List.mem_map]
  rfl

end Tableau

/-- What every step leaves as it was. -/
structure Persists (t t' : Tableau) : Prop where
  node : ∀ id n m, t.node id = .ok n → t'.node id = .ok m → m.signed = n.signed ∧ m.kind = n.kind ∧
    m.origin = n.origin ∧ (n.ticked = true → m.ticked = true) ∧ n.instances <+: m.instances
  ancestor : ∀ i j, t.isLive i = true → t.isLive j = true → t'.isLive i = true → t'.isLive j = true →
    (t'.Ancestor i j ↔ t.Ancestor i j)
  order : ∀ i j, t.isLive i = true → t.isLive j = true → t'.isLive i = true → t'.isLive j = true →
    (t'.Precedes i j ↔ t.Precedes i j)
  removed : ∀ id, id < t.slots → t.isLive id = false → t'.isLive id = false
  slots_le : t.slots ≤ t'.slots
  terms : t.terms <+: t'.terms

/-- What a step that removes nothing leaves as it was besides. -/
structure Preserves (t t' : Tableau) : Prop where
  live : ∀ id, t.isLive id = true → t'.isLive id = true
  marks : ∀ id n m, t.node id = .ok n → t'.node id = .ok m → (n.closed = true → m.closed = true) ∧
    (n.branchClosed = true → m.branchClosed = true) ∧ (n.contradictory = true → m.contradictory = true)
  /-- A node that was closed gets no child and no descendant. -/
  closed : ∀ id n, t.node id = .ok n → n.branchClosed = true →
    (∀ c ∈ t'.children id, c ∈ t.children id) ∧ ∀ j, t'.Ancestor id j → t.Ancestor id j

namespace Tableau

variable {t t' : Tableau}

namespace Extends

theorem lasts_of_node (h : t.Extends t') (hi' : Indexed t') {id : Nat} {n m : Node} (hnode : t.node id = .ok n)
    (hnode' : t'.node id = .ok m) : n.Lasts m := by
  obtain ⟨hn, rfl⟩ := node_eq_ok hnode
  obtain ⟨hm, hid⟩ := node_eq_ok hnode'
  obtain ⟨k, hk, hlasts⟩ := h.exists_lasting hn
  obtain rfl := hi'.numbered.eq_of_id_eq hk hm (hlasts.id.trans hid.symm)
  exact hlasts

variable (h : t.Extends t') (hi : Indexed t) (hi' : Indexed t')
include h hi hi'

theorem isLive {id : Nat} (hid : t.isLive id = true) : t'.isLive id = true := by
  obtain ⟨n, hn, rfl⟩ := (isLive_iff hi.numbered).1 hid
  obtain ⟨m, hm, hlasts⟩ := h.exists_lasting hn
  exact (isLive_iff hi'.numbered).2 ⟨m, hm, hlasts.id⟩

theorem ancestor_iff {i j : Nat} (hlivei : t.isLive i = true) (hlivej : t.isLive j = true) :
    t.Ancestor i j ↔ t'.Ancestor i j := by
  rw [ancestor_iff_over hi, ancestor_iff_over hi']
  exact (h.part hi').over_iff hi'.numbered ((mem_ids_iff hi.numbered).2 hlivei) ((mem_ids_iff hi.numbered).2 hlivej)

/-- Nothing comes between a node and its child. -/
theorem mem_children {p c : Nat} (hc : c ∈ t'.children p) (hlivep : t.isLive p = true) (hlivec : t.isLive c = true) :
    c ∈ t.children p := by
  have hdown := (h.ancestor_iff hi hi' hlivep hlivec).2 (.single hc)
  obtain ⟨q, hpq, hq⟩ := Relation.TransGen.tail'_iff.1 hdown
  rcases Relation.reflTransGen_iff_eq_or_transGen.1 hpq with rfl | hpq
  · exact hq
  · have hliveq := isLive_of_mem_children hi.numbered hq
    have hpq' := (h.ancestor_iff hi hi' hlivep hliveq).1 hpq
    obtain ⟨r, hqr, hr⟩ := Relation.TransGen.tail'_iff.1 ((h.ancestor_iff hi hi' hliveq hlivec).1 (.single hq))
    obtain rfl := Option.some.inj ((parent_of_mem_children hi'.numbered hr).1.symm.trans
      (parent_of_mem_children hi'.numbered hc).1)
    have hlt := lt_of_transGen_children hi' hpq'
    have hle := le_of_reflTransGen_children hi' hqr
    omega

theorem persists : Persists t t' where
  node id n m hnode hnode' := by
    have hlasts := h.lasts_of_node hi' hnode hnode'
    refine ⟨hlasts.signed, ?_, hlasts.origin, hlasts.ticked, hlasts.instances⟩
    rw [Node.kind, hlasts.signed, Node.kind]
  ancestor i j hlivei hlivej _ _ := (h.ancestor_iff hi hi' hlivei hlivej).symm
  order i j hlivei hlivej _ _ := ((h.part hi').order_iff hi'.numbered ((mem_ids_iff hi.numbered).2 hlivei)
    ((mem_ids_iff hi.numbered).2 hlivej)).symm
  removed id hlt hdead := by
    rw [← Bool.not_eq_true, isLive_iff hi'.numbered]
    rintro ⟨m, hm, rfl⟩
    have hlive := (mem_ids_iff hi.numbered).1 (h.old hi' hm hlt)
    cases hlive.symm.trans hdead
  slots_le := h.slots_le
  terms := h.terms

theorem preserves : Preserves t t' where
  live _ hid := h.isLive hi hi' hid
  marks id n m hnode hnode' := by
    have hlasts := h.lasts_of_node hi' hnode hnode'
    exact ⟨hlasts.closed, hlasts.branchClosed, hlasts.contradictory⟩
  closed id n hnode hclosed := by
    obtain ⟨hn, rfl⟩ := node_eq_ok hnode
    have hlive := (isLive_iff hi.numbered).2 ⟨n, hn, rfl⟩
    have hold : ∀ j, t'.Ancestor n.id j → t.isLive j = true := fun j hdown =>
      (mem_ids_iff hi.numbered).1 (h.closed n hn hclosed j ((ancestor_iff_over hi').1 hdown))
    refine ⟨fun c hc => h.mem_children hi hi' hc hlive (hold c (.single hc)), fun j hdown => ?_⟩
    exact (h.ancestor_iff hi hi' hlive (hold j hdown)).2 hdown

end Extends

/-! Removals. -/

/-- What a removal leaves is a part of the tree. -/
theorem part_remove (h : t.tree.Numbered) (id : Nat) : t.tree.toForest.Part (t.remove id).2.tree.toForest := by
  rcases remove_cases t id with ⟨_, _, heq⟩ | ⟨_, heq⟩ | ⟨n, hnode, hroot, _⟩
  · rw [heq]
    exact ⟨_, .refl _, .refl _, rfl⟩
  · rw [heq]
    exact ⟨_, .refl _, .refl _, rfl⟩
  · refine ⟨(t.excised id).tree.toForest, shrinks_excised t id, ?_, ?_⟩
    · rw [toForest_excised h hroot]
      exact .exciseWithin _ _ h.of_map
    · rw [← Tree.toForest_map, ← Tree.toForest_map, ids_remove hnode hroot]

theorem terms_remove (t : Tableau) (id : Nat) : (t.remove id).2.terms = t.terms := by
  rcases remove_cases t id with ⟨_, _, heq⟩ | ⟨_, heq⟩ | ⟨_, _, _, heq⟩
  · rw [heq]
  · rw [heq]
  · rw [heq]
    exact (closesTo_closeBranches _ _).terms

theorem persists_remove (h : Valid t) (id : Nat) : Persists t (t.remove id).2 where
  node i n m hnode hnode' := by
    obtain ⟨hn, rfl⟩ := node_eq_ok hnode
    obtain ⟨hm, hid⟩ := node_eq_ok hnode'
    obtain ⟨k, hk, hkid, hticked, hsigned, horigin, hinstances⟩ := exists_of_mem_remove hm
    obtain rfl := h.numbered.eq_of_id_eq hk hn (hkid.symm.trans hid)
    refine ⟨hsigned, ?_, horigin, fun hk => hticked.trans hk, hinstances ▸ List.prefix_refl _⟩
    rw [Node.kind, hsigned, Node.kind]
  ancestor i j _ _ hlivei hlivej := by
    have hvalid := valid_remove h id
    rw [ancestor_iff_over h.toIndexed, ancestor_iff_over hvalid.toIndexed]
    exact (part_remove h.numbered id).over_iff h.numbered ((mem_ids_iff hvalid.numbered).2 hlivei)
      ((mem_ids_iff hvalid.numbered).2 hlivej)
  order i j _ _ hlivei hlivej := by
    have hvalid := valid_remove h id
    exact (part_remove h.numbered id).order_iff h.numbered ((mem_ids_iff hvalid.numbered).2 hlivei)
      ((mem_ids_iff hvalid.numbered).2 hlivej)
  removed i _ hdead := by
    rw [← Bool.not_eq_true]
    intro hlive
    cases (isLive_of_isLive_remove h id hlive).symm.trans hdead
  slots_le := (slots_remove t id).ge
  terms := terms_remove t id ▸ List.prefix_refl _

/-! All steps. -/

theorem persists_perform (h : Valid t) (step : Step) : Persists t (t.perform step).2 := by
  by_cases hstep : ∃ id, step = .remove id
  · obtain ⟨id, rfl⟩ := hstep
    exact persists_remove h id
  · have hextends : t.Extends (t.perform step).2 := extends_perform h fun id heq => hstep ⟨id, heq⟩
    exact hextends.persists h.toIndexed (valid_perform h step).toIndexed

/-- A removed node never comes back, and its number is not given to another. -/
theorem removed_run (h : Valid t) {id : Nat} (hlt : id < t.slots) (hdead : t.isLive id = false) (steps : List Step) :
    (t.run steps).isLive id = false := by
  induction steps generalizing t with
  | nil => exact hdead
  | cons step steps ih =>
      have hpersists := persists_perform h step
      exact ih (valid_perform h step) (hlt.trans_le hpersists.slots_le) (hpersists.removed id hlt hdead)

/-- What a step may change. Whatever steps were taken before, a step leaves what it does not remove: each node says the
same, comes from the same development and does not lose a tick or an instance, and it stands above, below, before and
after the same nodes. Nothing that was removed comes back. Steps other than removals remove no node and no mark, and do
not add to what is closed. -/
theorem run_persists (o : Options) (s : Signed) (steps : List Step) (step : Step) :
    Persists ((start o s).run steps) (((start o s).run steps).perform step).2 ∧
    ((∀ id, step ≠ .remove id) → Preserves ((start o s).run steps) (((start o s).run steps).perform step).2) ∧
    ∀ id < ((start o s).run steps).slots, ((start o s).run steps).isLive id = false →
      ∀ later, (((start o s).run steps).run later).isLive id = false := by
  have hvalid := valid_run o s steps
  refine ⟨persists_perform hvalid step, fun hstep => ?_, fun id hlt hdead => removed_run hvalid hlt hdead⟩
  exact (extends_perform hvalid hstep).preserves hvalid.toIndexed (valid_perform hvalid step).toIndexed

end Tableau

end Tableaux
