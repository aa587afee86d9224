import Mathlib
import Tableaux.Proofs.Siblings

/-!
A removal as one sweep from the top. The removal of a node looks for what was developed from it, prunes, removes the
dependents one after the other and splices the node out last. Where siblings belong together all this comes to a single
walk downward from the node that carries along what it has taken out so far. For a dependent stands below what it
depends on, so the walk knows what a node was developed from before it comes to the node.
-/

namespace Tableaux

namespace Forest

mutual

/-- Sweeps the children of a node, given what has been taken out so far. If they were developed from something that was
taken out, the second goes with all that is below it, and the first is taken out too: what the sweep leaves below it
takes its place. Otherwise the children stay, and the sweep goes on below each. Also gives what is out in the end. -/
def sweep (out : List Nat) : Forest Node → Forest Node × List Nat
  | nil => (nil, out)
  | cons first below beside =>
      if first.origin.any out.contains then below.sweep (first.id :: out)
      else
        let swept := below.sweep out
        let rest := beside.sweepBelow swept.2
        (cons first swept.1 rest.1, rest.2)

/-- Sweeps below each of the given siblings, which stay. -/
def sweepBelow (out : List Nat) : Forest Node → Forest Node × List Nat
  | nil => (nil, out)
  | cons n below beside =>
      let swept := below.sweep out
      let rest := beside.sweepBelow swept.2
      (cons n swept.1 rest.1, rest.2)

end

/-- Takes a node out, sweeps below it and leaves the rest alone. -/
def sweepAt (id : Nat) : Forest Node → Forest Node
  | nil => nil
  | cons n below beside =>
      if n.id = id then (below.sweep [id]).1.append beside
      else cons n (below.sweepAt id) (beside.sweepAt id)

variable {f g : Forest Node} {source : Nat → Option Nat} {second : Nat → Bool} {U : Nat → Prop} {id : Nat} {n : Node}
  {above : List Node} {out : List Nat}

/-! A cut that takes everything developed from what it takes out. -/

section Cut

variable (hclosed : ∀ k m, source k = some m → U m → U k)
include hclosed

theorem secondOf_eq_false_of_not (hn : ¬ U n.id) : secondOf source second U n = false :=
  secondOf_eq_false_iff.2 fun _ m hsource hm => hn (hclosed n.id m hsource hm)

/-- What is not concerned stays where it is. -/
theorem cut_cons_of_not (hn : ¬ U n.id) :
    (cons n f g).cut source second U U = cons n (f.cut source second U U) (g.cut source second U U) := by
  simp only [cut, prune, secondOf_eq_false_of_not hclosed hn, splice, among_eq_false_iff.2 hn, Bool.false_eq_true,
    if_false]

theorem cut_of_forall_not (h : ∀ k ∈ f.labels, ¬ U k.id) : f.cut source second U U = f :=
  cut_eq_self (fun k hk _ m hsource hm => h k hk (hclosed k.id m hsource hm)) h

end Cut

/-- A node that is spliced out makes room for what is left below it. -/
theorem cut_cons_of_among (hn : U n.id) (hkept : secondOf source second U n = false) :
    (cons n f g).cut source second U U = (f.cut source second U U).append (g.cut source second U U) := by
  simp only [cut, prune, hkept, splice, among_iff.2 hn, Bool.false_eq_true, if_false, if_true]

/-! The sweep below a node. -/

/-- What a sweep for the removal of `id` meets: everything has its source above it, is not `id` itself, and has a
sibling only from the same development. -/
structure Sweepable (source : Nat → Option Nat) (second : Nat → Bool) (id : Nat) (above : List Node)
    (f : Forest Node) : Prop where
  source_above : ∀ s ∈ f.sites above, ∀ m, source s.tree.root.id = some m → ∃ a ∈ s.above, a.id = m
  origin : ∀ n ∈ f.labels, n.origin = source n.id
  other : ∀ n ∈ f.labels, n.id ≠ id
  split : f.Families (Split second)

/-- Of the nodes above, those are out that depend on the removed one, and nothing is out that does not. -/
structure Outcast (source : Nat → Option Nat) (id : Nat) (above : List Node) (out : List Nat) : Prop where
  depends : ∀ k ∈ out, Depends source [id] k
  mem : ∀ a ∈ above, Depends source [id] a.id → a.id ∈ out

namespace Sweepable

theorem below (h : (cons n f g).Sweepable source second id above) : f.Sweepable source second id (n :: above) where
  source_above s hs := h.source_above s (by simp [sites, hs])
  origin k hk := h.origin k (by simp [labels, hk])
  other k hk := h.other k (by simp [labels, hk])
  split := h.split.2.1

theorem beside (h : (cons n f g).Sweepable source second id above) : g.Sweepable source second id above where
  source_above s hs := h.source_above s (by simp [sites, hs])
  origin k hk := h.origin k (by simp [labels, hk])
  other k hk := h.other k (by simp [labels, hk])
  split := h.split.2.2

/-- Besides the removed node, what depends on it is what was developed from something that depends on it. -/
theorem depends_iff (h : f.Sweepable source second id above) (hn : n ∈ f.labels) :
    Depends source [id] n.id ↔ ∃ m, n.origin = some m ∧ Depends source [id] m := by
  rw [h.origin n hn]
  constructor
  · intro hdepends
    cases hdepends with
    | start hid => exact absurd (List.mem_singleton.1 hid) (h.other n hn)
    | step hsource hm => exact ⟨_, hsource, hm⟩
  · rintro ⟨m, hsource, hm⟩
    exact .step hsource hm

/-- The sweep knows of a node that it depends on the removed one from what it has taken out so far. -/
theorem any_origin_iff (h : (cons n f g).Sweepable source second id above) (hout : Outcast source id above out) :
    n.origin.any out.contains = true ↔ Depends source [id] n.id := by
  have hn : n ∈ (cons n f g).labels := by simp [labels]
  rw [h.depends_iff hn, Option.any_eq_true]
  constructor
  · rintro ⟨m, hm, hmem⟩
    exact ⟨m, hm, hout.depends m (List.contains_iff_mem.1 hmem)⟩
  · rintro ⟨m, hm, hdepends⟩
    obtain ⟨a, ha, rfl⟩ := h.source_above ⟨⟨n, f⟩, above⟩ (by simp [sites]) m ((h.origin n hn).symm.trans hm)
    exact ⟨a.id, hm, List.contains_iff_mem.2 (hout.mem a ha hdepends)⟩

end Sweepable

namespace Outcast

/-- A node that depends on the removed one is taken out before the sweep goes on below it. -/
theorem take (h : Outcast source id above out) (hn : Depends source [id] n.id) :
    Outcast source id (n :: above) (n.id :: out) where
  depends k hk := by
    rcases List.mem_cons.1 hk with rfl | hk
    · exact hn
    · exact h.depends k hk
  mem a ha hdepends := by
    rcases List.mem_cons.1 ha with rfl | ha
    · exact List.mem_cons_self
    · exact List.mem_cons_of_mem _ (h.mem a ha hdepends)

theorem keep (h : Outcast source id above out) (hn : ¬ Depends source [id] n.id) :
    Outcast source id (n :: above) out where
  depends := h.depends
  mem a ha hdepends := by
    rcases List.mem_cons.1 ha with rfl | ha
    · exact absurd hdepends hn
    · exact h.mem a ha hdepends

theorem forget (h : Outcast source id (n :: above) out) : Outcast source id above out where
  depends := h.depends
  mem a ha := h.mem a (List.mem_cons_of_mem _ ha)

end Outcast

/-- The result of a sweep is that of a cut, and it has the right nodes out in the end. -/
def Sweeps (source : Nat → Option Nat) (second : Nat → Bool) (id : Nat) (above : List Node) (f : Forest Node)
    (result : Forest Node × List Nat) : Prop :=
  result.1 = f.cut source second (Depends source [id]) (Depends source [id]) ∧ Outcast source id above result.2

/-- Below siblings that stay. -/
theorem sweeps_cons_of_not (hn : ¬ Depends source [id] n.id) {swept rest : Forest Node × List Nat}
    (hswept : f.Sweeps source second id (n :: above) swept) (hrest : g.Sweeps source second id above rest) :
    (cons n f g).Sweeps source second id above (cons n swept.1 rest.1, rest.2) := by
  refine ⟨?_, hrest.2⟩
  rw [cut_cons_of_not (fun _ _ hsource hm => .step hsource hm) hn, hswept.1, hrest.1]

namespace Sweepable

/-- Of siblings the first of which depends on the removed node, nothing is left but what is left below this one. -/
theorem cut_cons_of_depends (h : (cons n f g).Sweepable source second id above)
    (hsplit : Split second (cons n f g).roots) (hn : Depends source [id] n.id) :
    (cons n f g).cut source second (Depends source [id]) (Depends source [id]) =
      f.cut source second (Depends source [id]) (Depends source [id]) := by
  rcases hsplit with hnil | ⟨x, hroots, hx⟩ | ⟨x, y, hroots, horigin, hx, hy⟩
  · cases hnil
  · obtain ⟨rfl, hnil⟩ := List.cons.inj hroots
    obtain rfl := eq_nil_of_roots_eq_nil hnil
    rw [cut_cons_of_among hn (by rw [secondOf, hx, Bool.false_and])]
    exact append_nil _
  · obtain ⟨rfl, hrest⟩ := List.cons.inj hroots
    obtain ⟨below, beside, rfl, hnil⟩ := exists_cons_of_roots_eq_cons hrest
    obtain rfl := eq_nil_of_roots_eq_nil hnil
    obtain ⟨m, hm, hdepends⟩ := (h.depends_iff (by simp [labels])).1 hn
    have hsecond : secondOf source second (Depends source [id]) y = true := by
      refine secondOf_iff.2 ⟨hy, m, ?_, hdepends⟩
      rw [← h.origin y (by simp [labels]), ← horigin, hm]
    have hnone : (cons y below nil).cut source second (Depends source [id]) (Depends source [id]) = nil := by
      rw [cut, prune, hsecond, if_pos rfl]
      rfl
    rw [cut_cons_of_among hn (by rw [secondOf, hx, Bool.false_and]), hnone, append_nil]

/-- Siblings depend on the removed node together. -/
theorem not_depends_beside (h : (cons n f g).Sweepable source second id above)
    (hsplit : Split second (cons n f g).roots) (hn : ¬ Depends source [id] n.id) :
    ∀ r ∈ g.roots, ¬ Depends source [id] r.id := by
  intro r hr hdepends
  have hmem : r ∈ (cons n f g).labels := by simp [labels, (roots_sublist_labels g).mem hr]
  have hmatched : Matched (fun origin => origin) (cons n f g).roots := .of_split hsplit
  rw [h.depends_iff hmem, hmatched.alike r (by simp [roots, hr]) n (by simp [roots]),
    ← h.depends_iff (by simp [labels])] at hdepends
  exact hn hdepends

end Sweepable

/-- The sweep below a node takes away what depends on the removed node, and with it the second siblings. -/
theorem sweeps_sweep (h : f.Sweepable source second id above) (hout : Outcast source id above out) :
    (Split second f.roots → f.Sweeps source second id above (f.sweep out)) ∧
    ((∀ r ∈ f.roots, ¬ Depends source [id] r.id) → f.Sweeps source second id above (f.sweepBelow out)) := by
  induction f generalizing above out with
  | nil => exact ⟨fun _ => ⟨by rw [sweep]; rfl, hout⟩, fun _ => ⟨by rw [sweepBelow]; rfl, hout⟩⟩
  | cons n f g ihf ihg =>
      have hstay : ¬ Depends source [id] n.id → (∀ r ∈ g.roots, ¬ Depends source [id] r.id) →
          (cons n f g).Sweeps source second id above ((cons n f g).sweepBelow out) := by
        intro hn hroots
        have hswept := (ihf h.below (hout.keep hn)).1 h.split.1
        rw [sweepBelow]
        exact sweeps_cons_of_not hn hswept ((ihg h.beside hswept.2.forget).2 hroots)
      refine ⟨fun hsplit => ?_, fun hroots => ?_⟩
      · rw [sweep]
        split
        · rename_i hany
          have hn := (h.any_origin_iff hout).1 hany
          have hswept := (ihf h.below (hout.take hn)).1 h.split.1
          exact ⟨hswept.1.trans (h.cut_cons_of_depends hsplit hn).symm, hswept.2.forget⟩
        · rename_i hany
          have hn := (h.any_origin_iff hout).not.1 hany
          have hstays := hstay hn (h.not_depends_beside hsplit hn)
          rwa [sweepBelow] at hstays
      · exact hstay (hroots n (by simp [roots])) fun r hr => hroots r (by simp [roots, hr])

/-! The sweep in a whole forest. -/

theorem sweepAt_of_forall_ne (h : ∀ k ∈ f.labels, k.id ≠ id) : f.sweepAt id = f := by
  induction f with
  | nil => rfl
  | cons n f g ihf ihg =>
      simp only [labels, List.mem_cons, List.mem_append] at h
      rw [sweepAt, if_neg (h n (Or.inl rfl)), ihf fun k hk => h k (Or.inr (Or.inl hk)),
        ihg fun k hk => h k (Or.inr (Or.inr hk))]

/-- Where only the node at one place and things below it are concerned, the cut is a sweep at this place if it is one
below it. -/
theorem cut_eq_sweepAt {s : Site Node} (hs : s ∈ f.sites above) (hnodup : (f.labels.map Node.id).Nodup)
    (hclosed : ∀ k m, source k = some m → U m → U k) (hself : U s.tree.root.id)
    (hkept : secondOf source second U s.tree.root = false)
    (hbelow : ∀ k ∈ f.labels, U k.id → k.id = s.tree.root.id ∨ k ∈ s.tree.below.labels)
    (hsweep : (s.tree.below.sweep [s.tree.root.id]).1 = s.tree.below.cut source second U U) :
    f.cut source second U U = f.sweepAt s.tree.root.id := by
  induction f generalizing above with
  | nil => cases hs
  | cons n f g ihf ihg =>
      have hlabels : (cons n f g).labels = n :: (f.labels ++ g.labels) := rfl
      rw [hlabels, List.map_cons, List.map_append, List.nodup_cons, List.mem_append, not_or,
        List.nodup_append'] at hnodup
      obtain ⟨⟨hnf, hng⟩, hf, hg, hdisjoint⟩ := hnodup
      -- what is not at the place or below it is not concerned
      have houtside : ∀ k ∈ (cons n f g).labels, k.id ∉ s.tree.labels.map Node.id →
          ¬ U k.id ∧ k.id ≠ s.tree.root.id := by
        intro k hk hout
        have hne : k.id ≠ s.tree.root.id := fun heq => hout (heq ▸ List.mem_map_of_mem s.tree.root_mem_labels)
        refine ⟨fun hU => (hbelow k hk hU).elim hne fun hmem => hout (List.mem_map_of_mem ?_), hne⟩
        simp [Tree.labels, Tree.toForest, labels, hmem]
      have hrest : ∀ {h : Forest Node}, (∀ k ∈ h.labels, ¬ U k.id ∧ k.id ≠ s.tree.root.id) →
          h.cut source second U U = h.sweepAt s.tree.root.id := by
        intro h hout
        rw [cut_of_forall_not hclosed fun k hk => (hout k hk).1, sweepAt_of_forall_ne fun k hk => (hout k hk).2]
      rcases List.mem_cons.1 hs with rfl | hs
      · have hbeside : ∀ k ∈ g.labels, ¬ U k.id := fun k hk => by
          refine (houtside k (by simp [hlabels, hk]) ?_).1
          simp only [Tree.labels, Tree.toForest, labels, List.append_nil, List.map_cons, List.mem_cons, not_or]
          exact ⟨fun heq => hng (heq ▸ List.mem_map_of_mem hk), fun hmem => hdisjoint hmem (List.mem_map_of_mem hk)⟩
        rw [cut_cons_of_among hself hkept, sweepAt, if_pos rfl, hsweep, cut_of_forall_not hclosed hbeside]
      · rcases List.mem_append.1 hs with hs | hs
        · have hsub := (labels_sublist_of_mem_sites hs).map Node.id
          obtain ⟨hn, hne⟩ := houtside n (by simp [hlabels]) fun hmem => hnf (hsub.mem hmem)
          rw [cut_cons_of_not hclosed hn, sweepAt, if_neg hne,
            ihf hs hf (fun k hk => hbelow k (by simp [hlabels, hk])), hrest fun k hk => ?_]
          exact houtside k (by simp [hlabels, hk]) fun hmem => hdisjoint (hsub.mem hmem) (List.mem_map_of_mem hk)
        · have hsub := (labels_sublist_of_mem_sites hs).map Node.id
          obtain ⟨hn, hne⟩ := houtside n (by simp [hlabels]) fun hmem => hng (hsub.mem hmem)
          rw [cut_cons_of_not hclosed hn, sweepAt, if_neg hne,
            ihg hs hg (fun k hk => hbelow k (by simp [hlabels, hk])), hrest fun k hk => ?_]
          exact houtside k (by simp [hlabels, hk]) fun hmem => hdisjoint (List.mem_map_of_mem hk) (hsub.mem hmem)

theorem not_above_self (h : (f.labels.map Node.id).Nodup) : ¬ f.Above n n := by
  rintro ⟨b, hb, hsub⟩
  have hnodup := (reverse_sublist_labels hb).nodup h.of_map
  exact absurd ((hsub.reverse).nodup hnodup) (by simp)

namespace Linked

/-- What depends on a node is as young as the node, at least. -/
theorem le_of_depends (h : f.Linked source) {k : Nat} (hk : Depends source [id] k) :
    ∀ n ∈ f.labels, n.id = k → id ≤ k := by
  induction hk with
  | start hk => exact fun _ _ _ => (List.mem_singleton.1 hk).ge
  | step hsource _ ih =>
      rintro n hn rfl
      obtain ⟨a, ha, rfl, _, hlt⟩ := h.exists_source hn hsource
      exact (ih a ha rfl).trans hlt.le

/-- What depends on a node is the node itself or stands below it. -/
theorem mem_below_of_depends (h : f.Linked source) {s : Site Node} (hs : s ∈ f.sites []) {k : Nat}
    (hk : Depends source [s.tree.root.id] k) :
    ∀ n ∈ f.labels, n.id = k → k = s.tree.root.id ∨ n ∈ s.tree.below.labels := by
  induction hk with
  | start hk => exact fun _ _ _ => Or.inl (List.mem_singleton.1 hk)
  | step hsource _ ih =>
      rintro n hn rfl
      obtain ⟨b, hb, hnb⟩ := exists_branch_of_mem_labels hn
      obtain ⟨pre, up, rfl⟩ := List.append_of_mem hnb
      obtain ⟨a, ha, rfl, _⟩ := h.sourced pre n up hb _ ((h.origin n hn).trans hsource)
      have habove : f.Above a n := above_of_mem_branch hb ha
      rcases ih a habove.mem_labels rfl with hid | hmem
      · exact Or.inr (h.mem_below hs hn (hid ▸ hsource))
      · exact Or.inr ((above_iff h.nodup hs).1 (((above_iff h.nodup hs).2 hmem).trans h.nodup habove))

theorem sweepable (h : f.Linked source) (hsplit : f.Families (Split second)) {s : Site Node} (hs : s ∈ f.sites []) :
    s.tree.below.Sweepable source second s.tree.root.id (s.tree.root :: s.above) where
  source_above r hr m hm := by
    have hr := sites_below_subset hs r hr
    obtain ⟨pre, hb⟩ := exists_branch_of_site hr
    obtain ⟨a, ha, hid, _⟩ := h.sourced pre _ _ hb m ((h.origin _ (mem_labels_of_mem_sites hr)).trans hm)
    exact ⟨a, ha, hid⟩
  origin n hn := h.origin n ((labels_below_sublist_of_mem_sites hs).mem hn)
  other n hn hid := by
    have hnodup := ((labels_sublist_of_mem_sites hs).map Node.id).nodup h.nodup
    simp only [Tree.labels, Tree.toForest, labels, List.append_nil, List.map_cons, List.nodup_cons] at hnodup
    exact hnodup.1 (hid ▸ List.mem_map_of_mem hn)
  split := (families_iff_sites (s.tree.root :: s.above)).2 fun r hr =>
    (families_iff_sites []).1 hsplit r (sites_below_subset hs r hr)

/-- What a removal leaves is what a sweep from the removed node leaves. -/
theorem exciseWithin_eq_sweepAt (h : f.Linked source) (hsplit : f.Families (Split second)) (hn : n ∈ f.labels)
    {generations : Nat} (hg : f.youngerCount n.id ≤ generations) :
    f.exciseWithin generations n.id = f.sweepAt n.id := by
  obtain ⟨s, hs, rfl⟩ := exists_site_of_mem_labels hn []
  have hself : Depends source [s.tree.root.id] s.tree.root.id := .start List.mem_cons_self
  have hout : Outcast source s.tree.root.id (s.tree.root :: s.above) [s.tree.root.id] := by
    obtain ⟨pre, hb⟩ := exists_branch_of_site hs
    refine ⟨fun k hk => .start hk, fun a ha hdepends => ?_⟩
    rcases List.mem_cons.1 ha with rfl | ha
    · exact List.mem_cons_self
    · -- nothing above a node depends on it, since this would have to stand below it as well
      have habove : f.Above a s.tree.root := above_of_mem_branch hb ha
      rcases h.mem_below_of_depends hs hdepends a habove.mem_labels rfl with hid | hmem
      · exact List.mem_singleton.2 hid
      · exact absurd (habove.trans h.nodup ((above_iff h.nodup hs).2 hmem)) (not_above_self h.nodup)
  have hsweep := (sweeps_sweep (h.sweepable hsplit hs) hout).1 ((families_iff_sites []).1 hsplit s hs)
  have hkept : secondOf source second (Depends source [s.tree.root.id]) s.tree.root = false := by
    refine secondOf_eq_false_iff.2 fun _ m hsource hm => ?_
    obtain ⟨a, ha, rfl, _, hlt⟩ := h.exists_source hn hsource
    exact absurd (h.le_of_depends hm a ha rfl) (Nat.not_le.2 hlt)
  rw [exciseWithin_eq h hsplit hg]
  exact cut_eq_sweepAt hs h.nodup (fun _ _ hsource hm => .step hsource hm) hself hkept
    (fun k hk hdepends => h.mem_below_of_depends hs hdepends k hk rfl) hsweep.1

end Linked

/-- A node has its place in one family only. -/
theorem site_eq_of_root_id_eq (h : (f.labels.map Node.id).Nodup) {r s : Site Node} (hr : r ∈ f.sites [])
    (hs : s ∈ f.sites []) {x y : Node} (hx : x ∈ r.tree.below.roots) (hy : y ∈ s.tree.below.roots)
    (hid : x.id = y.id) : r = s := by
  obtain ⟨p, hp, rfl, hpabove⟩ := exists_site_of_mem_roots hx (r.tree.root :: r.above)
  obtain ⟨q, hq, rfl, hqabove⟩ := exists_site_of_mem_roots hy (s.tree.root :: s.above)
  obtain rfl := site_eq_of_id_eq h (sites_below_subset hr p hp) (sites_below_subset hs q hq) hid
  exact site_eq_of_id_eq h hr hs (congrArg Node.id (List.cons.inj (hpabove.symm.trans hqabove)).1)

/-- Where siblings match, the second ones can be told from the others. -/
theorem exists_split (h : (f.labels.map Node.id).Nodup) (hmatched : f.Families (Matched fun origin => origin)) :
    ∃ second, f.Families (Split second) := by
  classical
  let second : Nat → Bool := fun k => decide (∃ s ∈ f.sites [], ∃ x y, s.tree.below.roots = [x, y] ∧ y.id = k)
  refine ⟨second, (families_iff_sites []).2 fun s hs => ?_⟩
  have hmatch := (families_iff_sites []).1 hmatched s hs
  have hsecond : ∀ {k : Nat}, second k = true ↔
      ∃ s ∈ f.sites [], ∃ x y, s.tree.below.roots = [x, y] ∧ y.id = k := decide_eq_true_iff
  match hroots : s.tree.below.roots with
  | [] => exact Or.inl rfl
  | [x] =>
      refine Or.inr (Or.inl ⟨x, rfl, ?_⟩)
      rw [← Bool.not_eq_true, hsecond]
      rintro ⟨r, hr, a, b, hpair, hid⟩
      obtain rfl := site_eq_of_root_id_eq h hr hs (x := b) (y := x) (by simp [hpair]) (by simp [hroots]) hid
      simp [hroots] at hpair
  | [x, y] =>
      have horigin : x.origin = y.origin := hmatch.alike x (by simp [hroots]) y (by simp [hroots])
      refine Or.inr (Or.inr ⟨x, y, rfl, horigin, ?_, hsecond.2 ⟨s, hs, x, y, hroots, rfl⟩⟩)
      rw [← Bool.not_eq_true, hsecond]
      rintro ⟨r, hr, a, b, hpair, hid⟩
      obtain rfl := site_eq_of_root_id_eq h hr hs (x := b) (y := x) (by simp [hpair]) (by simp [hroots]) hid
      obtain ⟨rfl, rfl⟩ : a = x ∧ b = y := by simpa using hpair.symm.trans hroots
      have hsub := (roots_sublist_labels r.tree.below).trans (labels_below_sublist_of_mem_sites hr)
      have hnodup := (hsub.map Node.id).nodup h
      simp [hroots, hid] at hnodup
  | x :: y :: z :: rest =>
      have hle := hmatch.two
      simp [hroots] at hle

end Forest

/-- The tree without a node, as one sweep from the node leaves it. -/
def Tree.sweepAt (id : Nat) (t : Tree Node) : Tree Node :=
  ⟨t.root, t.below.sweepAt id⟩

namespace Tableau

variable {t : Tableau} {id : Nat}

/-- A step that, if it removes a node, removes the only child of its parent. -/
def RemovesLone (t : Tableau) : Step → Prop
  | .remove id => (t.remove id).1 = .ok true → ∃ p, t.parent id = some p ∧ t.children p = [id]
  | _ => True

theorem seamless_of_removesLone {β : Type} {key : Option Nat → β} (h : Valid t) {step : Step}
    (hstep : t.RemovesLone step) : t.Seamless key step := by
  cases step with
  | remove id =>
      refine Or.inl fun p hp => ?_
      rcases remove_cases t id with ⟨_, hnode, _⟩ | ⟨hroot, _⟩ | ⟨_, _, _, heq⟩
      · have hlive : t.isLive id = false := by
          rw [isLive, hnode]
          rfl
        rw [(forgotten h.numbered hlive).1] at hp
        cases hp
      · rw [hroot, parent_root h.numbered] at hp
        cases hp
      · obtain ⟨q, hq, hchildren⟩ := hstep (by rw [heq])
        obtain rfl := Option.some.inj (hq.symm.trans hp)
        exact hchildren
  | assume | develop | checkClosed | defer | search => trivial

/-- What holds of the steps of a run when the bookkeeping is right. -/
theorem throughout_imp {p q : Tableau → Step → Prop} {steps : List Step} (h : Valid t)
    (hpq : ∀ t step, Valid t → p t step → q t step) (hsteps : t.Throughout p steps) : t.Throughout q steps := by
  induction steps generalizing t with
  | nil => trivial
  | cons step steps ih => exact ⟨hpq t step h hsteps.1, ih (valid_perform h step) hsteps.2⟩

/-- Where siblings match, a removal leaves what a sweep leaves. -/
theorem tree_excised_eq_sweepAt (hvalid : Valid t) (hcaused : Caused t) (horderly : Orderly (fun origin => origin) t)
    {n : Node} (hn : n ∈ t.tree.labels) (hroot : n.id ≠ t.tree.root.id) :
    (t.excised n.id).tree = t.tree.sweepAt n.id := by
  obtain ⟨second, hsplit⟩ := Forest.exists_split hvalid.numbered horderly
  have hsweep := (hcaused.linked hvalid).exciseWithin_eq_sweepAt hsplit hn
    (youngerCount_le_size hvalid.toIndexed hn hroot)
  rw [← toForest_excised hvalid.numbered hroot, Tree.toForest, Tree.toForest, Forest.sweepAt,
    if_neg (Ne.symm hroot)] at hsweep
  obtain ⟨hlabel, hbelow, _⟩ := Forest.cons.inj hsweep
  rw [Tree.sweepAt, ← hlabel, ← hbelow]

end Tableau

/-- The outcome of a removal is that of one sweep from the top: it takes the node out, and on the way down whatever was
developed from something it has taken out, with the second of two siblings and all that is below this one. This needs
that every node removed before was the only child of its parent, so that siblings come from one development. -/
theorem Tableau.run_removal_swept (o : Options) (s : Signed) (steps : List Step)
    (hsteps : (start o s).Throughout RemovesLone steps) (id : Nat) (hid : ((start o s).run steps).isLive id = true)
    (hroot : id ≠ ((start o s).run steps).tree.root.id) :
    (((start o s).run steps).remove id).1 = .ok true ∧
    (((start o s).run steps).remove id).2.tree.map Node.id = (((start o s).run steps).tree.sweepAt id).map Node.id := by
  have hvalid := valid_run o s steps
  have hseamless : (start o s).Throughout (Seamless fun origin => origin) steps :=
    throughout_imp (valid_start o s) (fun _ _ hvalid => seamless_of_removesLone hvalid) hsteps
  have horderly := (Orderly.start o s).run (valid_start o s) (Caused.start o s) hseamless
  obtain ⟨n, hn, rfl⟩ := (isLive_iff hvalid.numbered).1 hid
  rw [← tree_excised_eq_sweepAt hvalid (Caused.run o s steps) horderly hn hroot]
  exact ⟨by rw [remove_eq (node_of_mem hvalid.numbered hn) hroot], ids_remove (node_of_mem hvalid.numbered hn) hroot⟩

/-- Two premises besides `A` or `B`; the second is developed, the first is taken back, and `A` or `B` is developed on
both sides of the second. -/
def relocation : List Step :=
  [.assume ⟨.binary .conjunction (letter "C") (letter "D"), true⟩,
    .assume ⟨.binary .disjunction (letter "E") (.binary .conjunction (letter "G") (letter "H")), true⟩,
    .develop 2 none, .remove 1, .develop 0 none, .develop 4 none]

/-- When the second premise is removed, its right side goes with all that is below it, and `A` and `B` come up in the
place of its left side. -/
theorem Tableau.run_removal_swept_witness :
    (start {} eitherLetter).Throughout RemovesLone relocation ∧
    ((start {} eitherLetter).run relocation).isLive 2 = true ∧
    2 ≠ ((start {} eitherLetter).run relocation).tree.root.id ∧
    (((start {} eitherLetter).run relocation).remove 2).1 = .ok true ∧
    (((start {} eitherLetter).run relocation).remove 2).2.tree.map Node.id =
      (((start {} eitherLetter).run relocation).tree.sweepAt 2).map Node.id ∧
    (((start {} eitherLetter).run relocation).tree.sweepAt 2).map Node.id = ⟨0, .cons 5 .nil (.cons 6 .nil .nil)⟩ := by
  have hsteps : (start {} eitherLetter).Throughout RemovesLone relocation := by
    have honly : ((start {} eitherLetter).run (relocation.take 3)).parent 1 = some 0 ∧
        ((start {} eitherLetter).run (relocation.take 3)).children 0 = [1] := by decide +kernel
    exact ⟨trivial, trivial, trivial, fun _ => ⟨0, honly⟩, trivial, trivial, trivial⟩
  have hlive : ((start {} eitherLetter).run relocation).isLive 2 = true := by decide +kernel
  have hroot : 2 ≠ ((start {} eitherLetter).run relocation).tree.root.id := by decide +kernel
  obtain ⟨hok, htree⟩ := run_removal_swept {} eitherLetter relocation hsteps 2 hlive hroot
  exact ⟨hsteps, hlive, hroot, hok, htree, by decide +kernel⟩

end Tableaux
