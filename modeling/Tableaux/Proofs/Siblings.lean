import Mathlib
import Tableaux.Proofs.Causes
import Tableaux.Proofs.Undoing

/-!
Siblings. A rule puts two nodes at most next to each other, both developed from the same node. A removal takes every
node that was developed from the removed one out of a place where it has no sibling left, so that what is below comes
up without company. The removed node itself may have a sibling; then what is below takes its place beside that
sibling, and the two need not belong together. So a removal keeps siblings in order if the node has no sibling, or if
no more than one node takes its place.
-/

namespace Tableaux

namespace Forest

section Thinned

variable {α : Type} {f g k : Forest α} {p q : α → Bool}

/-- Every family that is left is part of a family that was there. -/
def Thinned (f g : Forest α) : Prop :=
  g.Families fun l => ∃ s ∈ f.sites [], l.Sublist s.tree.below.roots

namespace Thinned

theorem refl (f : Forest α) : f.Thinned f :=
  (families_iff_sites []).2 fun s hs => ⟨s, hs, .refl _⟩

/-- What holds of every part of a family goes over. -/
theorem families {P : List α → Prop} (h : f.Thinned g) (hf : f.Families P)
    (hP : ∀ l l', l'.Sublist l → P l → P l') : g.Families P :=
  h.imp fun l _ ⟨s, hs, hsub⟩ => hP _ l hsub ((families_iff_sites []).1 hf s hs)

theorem trans (h : f.Thinned g) (h' : g.Thinned k) : f.Thinned k :=
  h'.families h fun _ _ hsub ⟨s, hs, hl⟩ => ⟨s, hs, hsub.trans hl⟩

theorem prune (p : α → Bool) (f : Forest α) : f.Thinned (f.prune p) :=
  Families.prune (refl f) fun _ ⟨s, hs, hl⟩ => ⟨s, hs, List.filter_sublist.trans hl⟩

/-- Whoever has no siblings makes room for what is below. -/
theorem splice (hlone : f.Families (Lone p)) : f.Thinned (f.splice p) := by
  cases f with
  | nil => trivial
  | cons a below beside => exact Families.splice (refl _) hlone ⟨_, List.mem_cons_self, List.nil_sublist _⟩

theorem lone (h : f.Thinned g) (hlone : f.Families (Lone p)) : g.Families (Lone p) := by
  refine h.families hlone fun l l' hsub hl a ha hp => ?_
  have hle : l'.length ≤ 1 := by
    rw [hl a (hsub.mem ha) hp] at hsub
    exact hsub.length_le
  obtain ⟨b, rfl⟩ := List.length_eq_one_iff.1 (le_antisymm hle (List.length_pos_of_mem ha))
  rw [List.mem_singleton.1 ha]

end Thinned

theorem Lone.mono {l : List α} (h : Lone p l) (hqp : ∀ a, q a = true → p a = true) : Lone q l :=
  fun a ha hq => h a ha (hqp a hq)

/-- Of two at most, one is left if the second goes. -/
theorem Lone.filter_second {l : List α} (hlength : l.length ≤ 2)
    (h : ∀ x y a, l = [x, y] → a ∈ l → p a = true → q y = true) : Lone p (l.filter fun a => !q a) := by
  intro a ha hp
  obtain ⟨hmem, hkept⟩ := List.mem_filter.1 ha
  match l, hlength with
  | [], _ => cases hmem
  | [x], _ =>
      obtain rfl := List.mem_singleton.1 hmem
      simpa using hkept
  | [x, y], _ =>
      have hy := h x y a rfl hmem hp
      rcases List.mem_pair.1 hmem with rfl | rfl
      · have ha : q a = false := by simpa using hkept
        simp [ha, hy]
      · simp [hy] at hkept

end Thinned

section Lifted

variable {α β : Type} {f : Forest α} {p : α → Bool} {key : α → β} {above : List α}

/-! Where a node that is spliced out has one node below it at most, and this is of its kind, a family changes no more
than that single nodes are replaced or go. -/

theorem roots_splice_sublist (h : ∀ s ∈ f.sites above, p s.tree.root = true →
    (s.tree.below.roots.map key).Sublist [key s.tree.root]) :
    ((f.splice p).roots.map key).Sublist (f.roots.map key) := by
  induction f generalizing above with
  | nil => exact .refl _
  | cons a below beside ihb ihs =>
      simp only [sites, List.mem_cons, List.mem_append] at h
      have hbelow := ihb fun s hs => h s (Or.inr (Or.inl hs))
      have hbeside := ihs fun s hs => h s (Or.inr (Or.inr hs))
      rw [splice]
      split
      · rename_i hp
        rw [roots_append, List.map_append]
        exact (hbelow.trans (h ⟨⟨a, below⟩, above⟩ (Or.inl rfl) hp)).append hbeside
      · exact hbeside.cons_cons _

theorem Families.splice_of_heirs {P : List α → Prop} (hf : f.Families P) (key : α → β) (above : List α)
    (hP : ∀ l l', (l'.map key).Sublist (l.map key) → P l → P l')
    (h : ∀ s ∈ f.sites above, p s.tree.root = true → (s.tree.below.roots.map key).Sublist [key s.tree.root]) :
    (f.splice p).Families P := by
  induction f generalizing above with
  | nil => trivial
  | cons a below beside ihb ihs =>
      simp only [sites, List.mem_cons, List.mem_append] at h
      have hbelow := fun s hs => h s (Or.inr (Or.inl hs))
      have hbeside := fun s hs => h s (Or.inr (Or.inr hs))
      rw [Forest.splice]
      split
      · exact (ihb hf.2.1 _ hbelow).append (ihs hf.2.2 _ hbeside)
      · exact ⟨hP _ _ (roots_splice_sublist hbelow) hf.1, ihb hf.2.1 _ hbelow, ihs hf.2.2 _ hbeside⟩

end Lifted

variable {f g k : Forest Node} {source : Nat → Option Nat} {id generations : Nat}

/-! The dependents of a node. -/

/-- Where there are no more than two siblings, the second goes if one of them was developed from the node. -/
theorem mem_doomed_of_dependent (hnodup : (f.labels.map Node.id).Nodup) {s r : Site Node} (hs : s ∈ f.sites [])
    (hr : r ∈ f.sites []) {x y a : Node} (hroots : r.tree.below.roots = [x, y]) (ha : a ∈ r.tree.below.roots)
    (hdep : a.id ∈ s.tree.below.dependents s.tree.root.id) :
    y.id ∈ s.tree.below.doomed s.tree.root.id s.tree.below.secondOfTwo := by
  obtain ⟨below, beside, hbelow, hrest⟩ := exists_cons_of_roots_eq_cons hroots
  obtain ⟨below', beside', rfl, hnil⟩ := exists_cons_of_roots_eq_cons hrest
  have hsecond : r.tree.below.secondOfTwo = some y.id := by
    rw [hbelow, eq_nil_of_roots_eq_nil hnil, secondOfTwo]
  obtain ⟨n, hn, hid, horigin⟩ := mem_dependents.1 hdep
  obtain ⟨t, ht, rfl⟩ := exists_site_of_mem_labels hn (s.tree.root :: s.above)
  obtain ⟨t', ht', rfl, habove⟩ := exists_site_of_mem_roots ha (r.tree.root :: r.above)
  -- numbers tell nodes apart, so this is the place of the dependent, and its family is the one below `r`
  obtain rfl := site_eq_of_id_eq hnodup (sites_below_subset hr t' ht') (sites_below_subset hs t ht) hid.symm
  have hfamily : ∃ c ∈ r.tree.below.roots, c.origin = some s.tree.root.id := ⟨_, ha, horigin⟩
  rw [mem_doomed_iff_sites (s.tree.root :: s.above)]
  rcases root_or_below ht with ⟨heq, _⟩ | ⟨q, hq, heq, _⟩
  · obtain rfl := site_eq_of_id_eq hnodup hr hs (congrArg Node.id (List.cons.inj (habove.symm.trans heq)).1)
    exact Or.inl ⟨hsecond, hfamily⟩
  · obtain rfl := site_eq_of_id_eq hnodup hr (sites_below_subset hs q hq)
      (congrArg Node.id (List.cons.inj (habove.symm.trans heq)).1)
    exact Or.inr ⟨r, hq, hsecond, hfamily⟩

/-- Once the second siblings that go with a node are gone, its dependents have no siblings. -/
theorem lone_pruneDoomed (hnodup : (f.labels.map Node.id).Nodup) (htwo : f.Families fun l => l.length ≤ 2)
    {s : Site Node} (hs : s ∈ f.sites []) : (f.pruneDoomed s).Families
      (Lone fun n => (s.tree.below.dependents s.tree.root.id).contains n.id) := by
  refine Families.of_filter ((families_iff_sites []).2 fun r hr => ?_)
  refine .filter_second ((families_iff_sites []).1 htwo r hr) fun x y a hroots ha hdep => ?_
  exact List.contains_iff_mem.2 (mem_doomed_of_dependent hnodup hs hr hroots ha (List.contains_iff_mem.1 hdep))

/-- This stays so while families are thinned out. -/
theorem Thinned.lone_dependent (hnodup : (f.labels.map Node.id).Nodup) (htwo : f.Families fun l => l.length ≤ 2)
    {s : Site Node} (hs : s ∈ f.sites []) (h : (f.pruneDoomed s).Thinned g) {d : Nat}
    (hd : d ∈ s.tree.below.dependents s.tree.root.id) : g.Families (Lone fun n => n.id == d) := by
  refine (h.lone (lone_pruneDoomed hnodup htwo hs)).imp fun l _ hl => hl.mono fun n hn => ?_
  rw [beq_iff_eq.1 hn]
  exact List.contains_iff_mem.2 hd

/-- If removals of nodes without siblings only thin the families out, then so does the removal of the dependents of
any node. -/
theorem Thinned.strip_of_exciseWithin (hnodup : (f.labels.map Node.id).Nodup) (htwo : f.Families fun l => l.length ≤ 2)
    (hexcise : ∀ {g : Forest Node} {d : Nat}, (g.labels.map Node.id).Nodup → (g.Families fun l => l.length ≤ 2) →
      g.Families (Lone fun n => n.id == d) → g.Thinned (g.exciseWithin generations d)) :
    f.Thinned (f.strip generations id) := by
  rcases strip_cases generations id f with ⟨heq, _⟩ | ⟨s, hs, rfl, heq⟩
  · rw [heq]
    exact .refl f
  · rw [heq]
    have hpruned : f.Thinned (f.pruneDoomed s) := .prune _ f
    refine hpruned.trans (List.foldlRecOn
      (motive := fun g => (f.pruneDoomed s).Thinned g ∧ f.Shrinks g) _ _ ⟨.refl _, .prune _ f⟩ ?_).1
    intro g ⟨hthinned, hshrinks⟩ d hd
    refine ⟨hthinned.trans (hexcise ((hshrinks.labels.map Node.id).nodup hnodup) ?_
      (hthinned.lone_dependent hnodup htwo hs hd)), hshrinks.trans (.exciseWithin generations d g)⟩
    exact (hpruned.trans hthinned).families htwo fun _ _ hsub hle => hsub.length_le.trans hle

/-- The removal of a node without siblings only thins the families out. -/
theorem Thinned.exciseWithin (hnodup : (f.labels.map Node.id).Nodup) (htwo : f.Families fun l => l.length ≤ 2)
    (hlone : f.Families (Lone fun n => n.id == id)) (generations : Nat) :
    f.Thinned (f.exciseWithin generations id) := by
  induction generations generalizing f id with
  | zero => exact .refl f
  | succ generations ih =>
      have hstrip : f.Thinned (f.strip generations id) :=
        .strip_of_exciseWithin hnodup htwo fun hnodup htwo hlone => ih hnodup htwo hlone
      rw [exciseWithin_succ]
      exact hstrip.trans (.splice (hstrip.lone hlone))

theorem Thinned.strip (hnodup : (f.labels.map Node.id).Nodup) (htwo : f.Families fun l => l.length ≤ 2)
    (generations id : Nat) : f.Thinned (f.strip generations id) :=
  .strip_of_exciseWithin hnodup htwo fun hnodup htwo hlone => .exciseWithin hnodup htwo hlone generations

/-! Steps down. -/

/-- The second node stands directly below the first. -/
def Child (f : Forest Node) (p c : Node) : Prop :=
  ∃ pre up, pre ++ c :: p :: up ∈ f.branches []

/-- A step down that is left was a step down before, or several, and the nodes in between are among those that `U`
lets go. -/
def Contracts (U : Nat → Prop) (f g : Forest Node) : Prop :=
  ∀ p c, g.Child p c → ∃ q, Relation.ReflTransGen (fun a b => f.Child a b ∧ U b.id) p q ∧ f.Child q c

theorem child_of_mem_roots {s : Site Node} (hs : s ∈ f.sites []) {c : Node} (hc : c ∈ s.tree.below.roots) :
    f.Child s.tree.root c := by
  obtain ⟨r, hr, rfl, habove⟩ := exists_site_of_mem_roots hc (s.tree.root :: s.above)
  obtain ⟨pre, hb⟩ := exists_branch_of_site (sites_below_subset hs r hr)
  rw [habove] at hb
  exact ⟨pre, s.above, hb⟩

/-- Down a branch over nodes that `U` lets go. -/
theorem exists_path_of_branch {U : Nat → Prop} {pre mid up : List Node} {a c : Node}
    (hb : pre ++ c :: (mid ++ a :: up) ∈ f.branches []) (hmid : ∀ n ∈ mid, U n.id) :
    ∃ q, Relation.ReflTransGen (fun a b => f.Child a b ∧ U b.id) a q ∧ f.Child q c := by
  induction mid generalizing pre c with
  | nil => exact ⟨a, .refl, pre, up, hb⟩
  | cons n mid ih =>
      have hb' : (pre ++ [c]) ++ n :: (mid ++ a :: up) ∈ f.branches [] := by simpa using hb
      obtain ⟨q, hpath, hchild⟩ := ih hb' fun k hk => hmid k (List.mem_cons_of_mem _ hk)
      exact ⟨n, hpath.tail ⟨hchild, hmid n List.mem_cons_self⟩, pre, mid ++ a :: up, hb⟩

namespace Contracts

variable {U V : Nat → Prop}

theorem refl (U : Nat → Prop) (f : Forest Node) : f.Contracts U f :=
  fun p _ hc => ⟨p, .refl, hc⟩

theorem mono (h : f.Contracts U g) (hUV : ∀ n, U n → V n) : f.Contracts V g := by
  intro p c hc
  obtain ⟨q, hpath, hq⟩ := h p c hc
  exact ⟨q, Relation.ReflTransGen.mono (fun _ _ hstep => ⟨hstep.1, hUV _ hstep.2⟩) _ _ hpath, hq⟩

theorem trans (h : f.Contracts U g) (h' : g.Contracts U k) : f.Contracts U k := by
  intro p c hc
  have hunfold : ∀ {q}, Relation.ReflTransGen (fun a b => g.Child a b ∧ U b.id) p q →
      Relation.ReflTransGen (fun a b => f.Child a b ∧ U b.id) p q := by
    intro q hpath
    induction hpath with
    | refl => exact .refl
    | tail _ hstep ih =>
        obtain ⟨m, hm, hmb⟩ := h _ _ hstep.1
        exact ih.trans (hm.tail ⟨hmb, hstep.2⟩)
  obtain ⟨q, hpath, hq⟩ := h' p c hc
  obtain ⟨r, hpath', hr⟩ := h q c hq
  exact ⟨r, (hunfold hpath).trans hpath', hr⟩

theorem prune (U : Nat → Prop) (p : Node → Bool) (f : Forest Node) : f.Contracts U (f.prune p) := by
  rintro a c ⟨pre, up, hb⟩
  obtain ⟨b, hb', e, rfl⟩ := exists_suffix_of_mem_branches_prune hb
  exact ⟨a, .refl, e ++ pre, up, by simpa using hb'⟩

theorem splice {p : Node → Bool} (hU : ∀ n, p n = true → U n.id) (f : Forest Node) : f.Contracts U (f.splice p) := by
  rintro a c ⟨pre, up, hb⟩
  obtain ⟨b, hb', heq⟩ := exists_filter_of_mem_branches_splice hb
  obtain ⟨b₁, b₂, rfl, _, hb₂⟩ := List.filter_eq_append_iff.1 heq.symm
  obtain ⟨d₁, d₂, rfl, _, _, hd₂⟩ := List.filter_eq_cons_iff.1 hb₂
  obtain ⟨mid, top, rfl, hmid, _, _⟩ := List.filter_eq_cons_iff.1 hd₂
  rw [← List.append_assoc] at hb'
  exact exists_path_of_branch hb' fun n hn => hU n (by simpa using hmid n hn)

/-- What goes from between a node and what is left below it depends on the removed node. -/
theorem strip_of_exciseWithin (horigin : ∀ n ∈ f.labels, n.origin = source n.id)
    (hexcise : ∀ {g : Forest Node} {d : Nat}, (∀ n ∈ g.labels, n.origin = source n.id) →
      g.Contracts (Depends source [d]) (g.exciseWithin generations d)) :
    f.Contracts (Depends source [id]) (f.strip generations id) := by
  rcases strip_cases generations id f with ⟨heq, _⟩ | ⟨s, hs, rfl, heq⟩
  · rw [heq]
    exact .refl _ f
  · rw [heq]
    refine (List.foldlRecOn (motive := fun g => f.Contracts (Depends source [s.tree.root.id]) g ∧ f.Shrinks g) _ _
      ⟨.prune _ _ f, .prune _ f⟩ ?_).1
    intro g ⟨hcontracts, hshrinks⟩ d hd
    refine ⟨hcontracts.trans (mono (hexcise fun n hn => horigin n (hshrinks.labels.mem hn)) fun k hk => ?_),
      hshrinks.trans (.exciseWithin generations d g)⟩
    obtain ⟨n, hn, rfl, hsource⟩ := mem_dependents.1 hd
    rw [horigin n ((labels_below_sublist_of_mem_sites hs).mem hn)] at hsource
    exact hk.mono fun i hi => List.mem_singleton.1 hi ▸ .step hsource (.start List.mem_cons_self)

theorem exciseWithin (horigin : ∀ n ∈ f.labels, n.origin = source n.id) (generations id : Nat) :
    f.Contracts (Depends source [id]) (f.exciseWithin generations id) := by
  induction generations generalizing f id with
  | zero => exact .refl _ f
  | succ generations ih =>
      rw [exciseWithin_succ]
      refine (strip_of_exciseWithin horigin fun horigin => ih horigin _).trans (.splice (fun n hn => ?_) _)
      exact .start (List.mem_singleton.2 (beq_iff_eq.1 hn))

theorem strip (horigin : ∀ n ∈ f.labels, n.origin = source n.id) (generations id : Nat) :
    f.Contracts (Depends source [id]) (f.strip generations id) :=
  strip_of_exciseWithin horigin fun horigin => exciseWithin horigin generations _

end Contracts

/-! Siblings that belong together. -/

/-- Siblings that match: two at most, and alike in what `key` tells of where they come from. -/
structure Matched {β : Type} (key : Option Nat → β) (l : List Node) : Prop where
  two : l.length ≤ 2
  alike : ∀ x ∈ l, ∀ y ∈ l, key x.origin = key y.origin

namespace Matched

variable {β : Type} {key : Option Nat → β} {l l' : List Node}

theorem of_sublist_map (hsub : (l'.map fun n => key n.origin).Sublist (l.map fun n => key n.origin))
    (h : Matched key l) : Matched key l' where
  two := by
    have hle := hsub.length_le
    rw [List.length_map, List.length_map] at hle
    exact hle.trans h.two
  alike x hx y hy := by
    obtain ⟨x', hx', hxx'⟩ := List.mem_map.1 (hsub.mem (List.mem_map_of_mem hx))
    obtain ⟨y', hy', hyy'⟩ := List.mem_map.1 (hsub.mem (List.mem_map_of_mem hy))
    exact (hxx'.symm.trans (h.alike x' hx' y' hy')).trans hyy'

theorem sublist (hsub : l'.Sublist l) (h : Matched key l) : Matched key l' :=
  h.of_sublist_map (hsub.map _)

theorem of_rel {R : Node → Node → Prop} (hR : ∀ n m, R n m → m.origin = n.origin) (hl : List.Forall₂ R l l')
    (h : Matched key l) : Matched key l' := by
  have heq : (l'.map fun n => key n.origin) = l.map fun n => key n.origin := by
    clear h
    induction hl with
    | nil => rfl
    | cons hnm _ ih => rw [List.map_cons, List.map_cons, ih, hR _ _ hnm]
  exact h.of_sublist_map (heq ▸ .refl _)

theorem nil : Matched key [] :=
  ⟨by simp, by simp⟩

theorem singleton (n : Node) : Matched key [n] :=
  ⟨by simp, by simp⟩

theorem of_split {second : Nat → Bool} (h : Split second l) : Matched key l := by
  rcases h with rfl | ⟨x, rfl, _⟩ | ⟨x, y, rfl, horigin, _⟩
  · exact nil
  · exact singleton x
  · exact ⟨by simp, by simp [horigin]⟩

end Matched

end Forest

/-- What holds of all siblings, and does not depend on marks, still holds when a rule has been applied, if it holds of
the siblings that the rule makes. -/
theorem Tableau.families_applied {t : Tableau} {P : List Node → Prop} {n : Node} {x : Option Term} {e : Expansion}
    (hvalid : Valid t) (he : n.signed.expansion x = some e)
    (hP : ∀ l l', List.Forall₂ (fun n m : Node => m.origin = n.origin) l l' → P l → P l')
    (hnew : ∀ id, P (e.toForest n.id id).roots ∧ (e.toForest n.id id).Families P)
    (h : t.tree.toForest.Families P) : (t.applied n x e (t.openLeavesBelow n.id)).tree.toForest.Families P := by
  have hmap : ∀ {f : Forest Node} (y : Option Term) (done : Bool), f.Families P →
      (f.map (touch n.id y done)).Families P := by
    intro f y done hf
    exact hf.of_rel (R := fun n m => m.origin = n.origin)
      (.of_map (R := fun n m : Node => m.origin = n.origin) (fun m => (Node.continues_touch n.id y done m).origin) f) hP
  have hstep : ∀ (t : Tableau) (leaf : Node) (up : List Node), Indexed t → leaf :: up ∈ t.tree.branches →
      leaf.branchClosed = false → t.tree.toForest.Families P → (t.extend n.id e leaf.id).tree.toForest.Families P := by
    intro t leaf up hi hleaf _ h
    obtain ⟨hroots, hbelow⟩ := hnew t.slots
    rw [extend, attach, Tree.toForest_graft]
    exact h.graft hroots hbelow (hi.numbered.leaf_chosen_below hleaf)
  have hentered : (t.enterTerm n.id x).tree.toForest.Families P := by
    rw [tree_enterTerm, Tree.toForest_map]
    exact hmap x false h
  have hgrown := (foldl_extend_induction (P := fun t => t.tree.toForest.Families P) (Signed.chain_ne_nil he) hstep
    (indexed_enterTerm hvalid.toIndexed n.id x) (nodup_openLeavesBelow hvalid.numbered n.id)
    (openLeaves_enterTerm (openLeaves_openLeavesBelow hvalid.toCoherent n.id) n.id x) hentered).2
  rw [tree_applied, Tree.toForest_map]
  exact hmap none _ hgrown

/-- Wherever siblings stand, they match. -/
def Orderly {β : Type} (key : Option Nat → β) (t : Tableau) : Prop :=
  t.tree.toForest.Families (Forest.Matched key)

namespace Orderly

variable {β : Type} {key : Option Nat → β} {t t' : Tableau}

theorem of_rel (h : Orderly key t) {R : Node → Node → Prop} (hrel : Forest.Rel R t.tree.toForest t'.tree.toForest)
    (hR : ∀ n m, R n m → m.origin = n.origin) : Orderly key t' :=
  Forest.Families.of_rel h hrel fun _ _ hl hmatched => hmatched.of_rel hR hl

theorem map (h : Orderly key t) {g : Node → Node} (htree : t'.tree = t.tree.map g)
    (hg : ∀ n, (g n).origin = n.origin) : Orderly key t' := by
  refine h.of_rel (R := fun n m => m = g n) ?_ ?_
  · rw [htree, Tree.toForest_map]
    exact .of_map (R := fun n m => m = g n) (fun _ => rfl) _
  · rintro n _ rfl
    exact hg n

theorem closesTo (h : Orderly key t) (hcloses : t.ClosesTo t') : Orderly key t' :=
  h.of_rel hcloses.tree fun _ _ hnm => hnm.origin

theorem start (o : Options) (s : Signed) : Orderly key (.start o s) :=
  ⟨.nil, trivial, trivial⟩

/-- New nodes below a leaf. -/
theorem attach (hi : Indexed t) (h : Orderly key t) {leaf : Node} {up : List Node}
    (hleaf : leaf :: up ∈ t.tree.branches) {new : Forest Node} (hroots : Forest.Matched key new.roots)
    (hnew : new.Families (Forest.Matched key)) : Orderly key (t.attach leaf.id new) := by
  rw [Orderly, Tableau.attach, Tree.toForest_graft]
  exact Forest.Families.graft h hroots hnew (hi.numbered.leaf_chosen_below hleaf)

theorem assume (hvalid : Valid t) (h : Orderly key t) (s : Signed) : Orderly key (t.assume s).2 := by
  rcases Tableau.assume_cases t s with ⟨_, heq⟩ | ⟨leaf, up, hpath, _, heq⟩
  · rw [heq]
    exact h
  · rw [heq]
    have hleaf : leaf :: up ∈ t.tree.branches := hpath ▸ List.mem_cons_self
    have hseeded : Orderly key { t with terms := Tableau.seed t.options t.terms s.formula } := h
    exact hseeded.attach ⟨hvalid.numbered, hvalid.id_lt, hvalid.ordered, hvalid.count⟩ hleaf (.singleton _)
      ⟨.nil, trivial, trivial⟩

/-- The result of a rule below the open leaves under its node. -/
theorem applied {n : Node} {x : Option Term} {e : Expansion} (hvalid : Valid t) (h : Orderly key t)
    (he : n.signed.expansion x = some e) : Orderly key (t.applied n x e (t.openLeavesBelow n.id)) := by
  refine Tableau.families_applied hvalid he (fun _ _ hl hmatched => hmatched.of_rel (fun _ _ heq => heq) hl) ?_ h
  intro id
  obtain ⟨hroots, hsplit⟩ : Forest.Split (e.headsRight id) (e.toForest n.id id).roots ∧
      (e.toForest n.id id).Families (Forest.Split (e.headsRight id)) :=
    Forest.split_toForest (Signed.chain_ne_nil he) n.id fun _ _ => rfl
  exact ⟨.of_split hroots, hsplit.imp fun _ _ hl => .of_split hl⟩

theorem develop (hvalid : Valid t) (h : Orderly key t) (id : Nat) (term : Option Term) :
    Orderly key (t.develop id term).2 := by
  rcases Tableau.develop_cases hvalid id term with
    ⟨_, _, heq⟩ | ⟨_, _, _, heq⟩ | ⟨n, e, _, hnode, hticked, hclosed, he, _⟩
  · rw [heq]
    exact h
  · rw [heq]
    exact h
  · rw [Tableau.develop_eq hvalid hnode hticked hclosed he]
    obtain ⟨_, rfl⟩ := Tableau.node_eq_ok hnode
    exact (h.applied hvalid he).closesTo (Tableau.closesTo_closeBranches _ n.id)

theorem checkClosed (h : Orderly key t) (id : Nat) : Orderly key (t.checkClosed id).2 :=
  h.closesTo (Tableau.closesTo_checkClosed t id)

theorem defer (h : Orderly key t) (id : Nat) : Orderly key (t.defer id).2 := by
  rcases Tableau.defer_cases t id with heq | heq
  · rw [heq]
    exact h
  · rw [heq, Tableau.sendToBack_eq]
    exact h

theorem search (hvalid : Valid t) (h : Orderly key t) (limits : Limits) : Orderly key (t.search limits).2 := by
  refine (Tableau.search_induction (P := fun t => Valid t ∧ Orderly key t) ?_ ?_ ?_ limits ⟨hvalid, h⟩).2
  · exact fun t id h => ⟨Tableau.valid_checkClosed h.1 id, h.2.checkClosed id⟩
  · exact fun t id h => ⟨Tableau.valid_develop h.1 id none, h.2.develop h.1 id none⟩
  · exact fun t id h => ⟨Tableau.valid_defer h.1 id, h.2.defer id⟩

end Orderly

namespace Tableau

variable {t : Tableau} {id : Nat}

/-- Following the nodes that things were developed from leads from the first to the second, in one step or more. -/
def GoesBack (t : Tableau) (c id : Nat) : Prop :=
  Relation.TransGen (fun c m => t.source c = some m) c id

/-- What takes the place of a node that is removed: it does not go back to the node, and everything between the two
does. -/
def Heir (t : Tableau) (id c : Nat) : Prop :=
  ¬ t.GoesBack c id ∧
    ∃ p, Relation.ReflTransGen (fun a b => b ∈ t.children a ∧ t.GoesBack b id) id p ∧ c ∈ t.children p

theorem goesBack_iff {c : Nat} : t.GoesBack c id ↔ ∃ m, t.source c = some m ∧ (m = id ∨ t.GoesBack m id) := by
  rw [GoesBack, Relation.TransGen.head'_iff]
  simp only [Relation.reflTransGen_iff_eq_or_transGen, eq_comm, GoesBack]

/-- Where nothing directly below a node goes back to it, this is what takes its place. -/
theorem Heir.mem_children {c : Nat} (h : t.Heir id c) (hbelow : ∀ b ∈ t.children id, ¬ t.GoesBack b id) :
    c ∈ t.children id := by
  obtain ⟨_, p, hpath, hc⟩ := h
  rcases Relation.ReflTransGen.cases_head hpath with rfl | ⟨b, ⟨hb, hback⟩, _⟩
  · exact hc
  · exact absurd hback (hbelow b hb)

theorem goesBack_of_depends {c : Nat} (h : Depends t.source [id] c) : c = id ∨ t.GoesBack c id := by
  induction h with
  | start hc => exact Or.inl (List.mem_singleton.1 hc)
  | step hsource _ ih =>
      rcases ih with rfl | hback
      · exact Or.inr (.single hsource)
      · exact Or.inr (.head hsource hback)

/-- Steps down over what depends on a node are steps from parent to child, over nodes that go back to it. -/
theorem goesBack_of_path (h : Indexed t) {p q : Node} (hpath : Relation.ReflTransGen
      (fun a b => t.tree.toForest.Child a b ∧ Depends t.source [p.id] b.id) p q) :
    p.id ≤ q.id ∧ Relation.ReflTransGen (fun a b => b ∈ t.children a ∧ t.GoesBack b p.id) p.id q.id := by
  induction hpath with
  | refl => exact ⟨le_rfl, .refl⟩
  | tail _ hstep ih =>
      obtain ⟨⟨pre, up, hb⟩, hdepends⟩ := hstep
      have hchild := mem_children_of_branch h hb
      -- numbers grow downward, so the way down does not come back to `p`
      have hlt := lt_of_mem_children h hchild
      exact ⟨ih.1.trans hlt.le, ih.2.tail ⟨hchild, (goesBack_of_depends hdepends).resolve_left (ih.1.trans_lt hlt).ne'⟩⟩

/-- No two nodes that take the place of a removed one are siblings. -/
def Unforked (t : Tableau) (id : Nat) : Prop :=
  ∀ c d, t.Heir id c → t.Heir id d → t.parent c = t.parent d → c = d

/-- A step that keeps siblings in order. A node may be removed that has no sibling; if it has one, then no two nodes
that take its place may be siblings, and they must be like it in what `key` tells of where they come from. -/
def Seamless {β : Type} (key : Option Nat → β) (t : Tableau) : Step → Prop
  | .remove id => (∀ p ∈ t.parent id, t.children p = [id]) ∨
      (t.Unforked id ∧ ∀ c, t.Heir id c → key (t.source c) = key (t.source id))
  | _ => True

section Strip

variable {n : Node} {generations : Nat} (hvalid : Valid t) (hcaused : Caused t) (hn : n ∈ t.tree.labels)
  (hroot : n.id ≠ t.tree.root.id) (hsize : t.tree.below.size = generations + 1)
include hvalid hcaused hn hroot hsize

/-- Before a node is spliced out, nothing is left that goes back to it. -/
theorem not_goesBack_of_mem_strip {m : Node} (hm : m ∈ (t.tree.toForest.strip generations n.id).labels) :
    ¬ t.GoesBack m.id n.id := by
  obtain ⟨hlinked, hnone⟩ := (hcaused.linked hvalid).strip
    (hsize ▸ youngerCount_le_size hvalid.toIndexed hn hroot)
  intro hback
  generalize hid : m.id = c at hback
  induction hback using Relation.TransGen.head_induction_on generalizing m with
  | single hsource => exact hnone m hm (hid ▸ hsource)
  | head hsource _ ih =>
      obtain ⟨a, ha, heq, _⟩ := hlinked.exists_source hm (hid ▸ hsource)
      exact ih ha heq

theorem heir_of_child_strip {a c : Node} (hc : (t.tree.toForest.strip generations n.id).Child a c)
    (ha : a.id = n.id) : t.Heir n.id c.id := by
  obtain ⟨pre, up, hb⟩ := hc
  have hmem := Forest.mem_labels_of_mem_branch hb (by simp : c ∈ pre ++ c :: a :: up)
  refine ⟨not_goesBack_of_mem_strip hvalid hcaused hn hroot hsize hmem, ?_⟩
  obtain ⟨q, hpath, pre', up', hb'⟩ := Forest.Contracts.strip (hcaused.linked hvalid).origin generations n.id
    a c ⟨pre, up, hb⟩
  rw [← ha] at hpath ⊢
  exact ⟨q.id, (goesBack_of_path hvalid.toIndexed hpath).2, mem_children_of_branch hvalid.toIndexed hb'⟩

/-- Where no two heirs are siblings, one node at most is below the node when it is spliced out. -/
theorem roots_strip_sublist {β : Type} {key : Option Nat → β} (htwo : t.tree.toForest.Families fun l => l.length ≤ 2)
    (hunforked : t.Unforked n.id) (hkey : ∀ c, t.Heir n.id c → key (t.source c) = key (t.source n.id))
    {s : Site Node} (hs : s ∈ (t.tree.toForest.strip generations n.id).sites []) (hid : s.tree.root.id = n.id) :
    (s.tree.below.roots.map fun m => key m.origin).Sublist [key s.tree.root.origin] := by
  have hsub := (Forest.Shrinks.strip generations n.id t.tree.toForest).labels
  have horigin : ∀ m ∈ (t.tree.toForest.strip generations n.id).labels, m.origin = t.source m.id := fun m hm =>
    (source_id hvalid.numbered (hsub.mem hm)).symm
  have hbelow := (Forest.roots_sublist_labels _).trans (Forest.labels_below_sublist_of_mem_sites hs)
  have hheir : ∀ c ∈ s.tree.below.roots, t.Heir n.id c.id := fun c hc =>
    heir_of_child_strip hvalid hcaused hn hroot hsize (Forest.child_of_mem_roots hs hc) hid
  obtain ⟨r, hr, hfamily⟩ := (Forest.families_iff_sites []).1
    (Forest.Thinned.strip hvalid.numbered htwo generations n.id) s hs
  have hparent : ∀ c ∈ s.tree.below.roots, t.parent c.id = some r.tree.root.id := by
    intro c hc
    refine (parent_of_mem_children hvalid.numbered ?_).1
    rw [children_site hvalid.numbered hr]
    exact List.mem_map_of_mem (hfamily.mem hc)
  match hroots : s.tree.below.roots with
  | [] => exact List.nil_sublist _
  | [c] =>
      have hc : c ∈ s.tree.below.roots := by simp [hroots]
      rw [List.map_singleton, horigin c (hbelow.mem hc), hkey c.id (hheir c hc),
        horigin _ (Forest.mem_labels_of_mem_sites hs), hid]
  | c :: d :: rest =>
      have hc : c ∈ s.tree.below.roots := by simp [hroots]
      have hd : d ∈ s.tree.below.roots := by simp [hroots]
      have hcd := hunforked c.id d.id (hheir c hc) (hheir d hd) ((hparent c hc).trans (hparent d hd).symm)
      have hnodup := ((hbelow.trans hsub).map Node.id).nodup hvalid.numbered
      rw [hroots] at hnodup
      simp [hcd] at hnodup

end Strip

end Tableau

namespace Orderly

variable {β : Type} {key : Option Nat → β} {t : Tableau} {id : Nat}

theorem two (h : Orderly key t) : t.tree.toForest.Families fun l => l.length ≤ 2 :=
  h.imp fun _ _ hmatched => hmatched.two

theorem excised {n : Node} (hvalid : Valid t) (hcaused : Caused t) (h : Orderly key t) (hn : n ∈ t.tree.labels)
    (hroot : n.id ≠ t.tree.root.id) (hseamless : t.Seamless key (.remove n.id)) : Orderly key (t.excised n.id) := by
  obtain ⟨generations, hsize⟩ := Tableau.exists_size_eq hvalid.toIndexed hn hroot
  have hthinned := Forest.Thinned.strip hvalid.numbered h.two generations n.id
  have hstrip := hthinned.families h fun _ _ hsub hmatched => hmatched.sublist hsub
  rw [Orderly, Tableau.toForest_excised hvalid.numbered hroot, hsize, Forest.exciseWithin_succ]
  rcases hseamless with honly | ⟨hunforked, hkey⟩
  · exact hstrip.splice (hthinned.lone (Tableau.families_lone hvalid.numbered honly)) .nil
  · refine hstrip.splice_of_heirs (fun m => key m.origin) [] (fun _ _ hsub hmatched =>
      hmatched.of_sublist_map hsub) fun s hs hid => ?_
    exact Tableau.roots_strip_sublist hvalid hcaused hn hroot hsize h.two hunforked hkey hs (beq_iff_eq.1 hid)

theorem remove (hvalid : Valid t) (hcaused : Caused t) (h : Orderly key t) (hseamless : t.Seamless key (.remove id)) :
    Orderly key (t.remove id).2 := by
  rcases Tableau.remove_cases t id with ⟨_, _, heq⟩ | ⟨_, heq⟩ | ⟨n, hnode, hroot, heq⟩
  · rw [heq]
    exact h
  · rw [heq]
    exact h
  · rw [heq]
    obtain ⟨hn, rfl⟩ := Tableau.node_eq_ok hnode
    refine closesTo (t := (t.excised n.id).cleared) ?_ (Tableau.closesTo_closeBranches _ _)
    exact (h.excised hvalid hcaused hn hroot hseamless).map (g := Tableau.clearMarks) rfl fun _ => rfl

theorem perform (hvalid : Valid t) (hcaused : Caused t) (h : Orderly key t) {step : Step}
    (hseamless : t.Seamless key step) : Orderly key (t.perform step).2 := by
  cases step with
  | assume s => exact h.assume hvalid s
  | develop id term => exact h.develop hvalid id term
  | remove id => exact h.remove hvalid hcaused hseamless
  | checkClosed id => exact h.checkClosed id
  | defer id => exact h.defer id
  | search limits => exact h.search hvalid limits

theorem run {steps : List Step} (hvalid : Valid t) (hcaused : Caused t) (h : Orderly key t)
    (hsteps : t.Throughout (Tableau.Seamless key) steps) : Orderly key (t.run steps) := by
  induction steps generalizing t with
  | nil => exact h
  | cons step steps ih =>
      exact ih (Tableau.valid_perform hvalid step) (hcaused.perform hvalid step) (h.perform hvalid hcaused hsteps.1)
        hsteps.2

theorem length_children (hvalid : Valid t) (h : Orderly key t) (id : Nat) : (t.children id).length ≤ 2 := by
  cases hlive : t.isLive id with
  | false =>
      rw [(Tableau.forgotten hvalid.numbered hlive).2]
      exact Nat.zero_le 2
  | true =>
      obtain ⟨s, hs, rfl⟩ := Tableau.exists_site_of_isLive hvalid.numbered hlive
      rw [Tableau.children_site hvalid.numbered hs, List.length_map]
      exact (Forest.families_iff_sites []).1 h.two s hs

end Orderly

/-- No node ever has more than two children, provided that two siblings never take the place of a removed node that
has a sibling itself; where what takes its place comes from does not matter. -/
theorem Tableau.run_binary (o : Options) (s : Signed) (steps : List Step)
    (hsteps : (start o s).Throughout (Seamless fun _ => ()) steps) (id : Nat) :
    (((start o s).run steps).children id).length ≤ 2 :=
  ((Orderly.start o s).run (valid_start o s) (Caused.start o s) hsteps).length_children (valid_run o s steps) id

/-- Both `C` and `D` are stated and developed on both sides of `A` or `B`; then the side `A` is removed. -/
def promotion : List Step :=
  [.assume ⟨.binary .conjunction (letter "C") (letter "D"), true⟩, .develop 0 none, .develop 1 none, .remove 2]

/-- The single node below the removed one takes its place, next to the other side. -/
theorem Tableau.run_binary_witness :
    (start {} eitherLetter).Throughout (Seamless fun _ => ()) promotion ∧
    ((start {} eitherLetter).run promotion).children 1 = [4, 3] ∧
    ∀ id, (((start {} eitherLetter).run promotion).children id).length ≤ 2 := by
  have hsteps : (start {} eitherLetter).Throughout (Seamless fun _ => ()) promotion := by
    refine ⟨trivial, trivial, trivial, Or.inr ⟨?_, fun _ _ => rfl⟩, trivial⟩
    have hbelow : ((start {} eitherLetter).run (promotion.take 3)).children 2 = [4] := by decide +kernel
    have hsource : ((start {} eitherLetter).run (promotion.take 3)).source 4 = some 1 ∧
        ((start {} eitherLetter).run (promotion.take 3)).source 1 = none := by decide +kernel
    have hback : ¬ ((start {} eitherLetter).run (promotion.take 3)).GoesBack 4 2 := by
      rw [goesBack_iff, hsource.1]
      rintro ⟨_, ⟨⟩, heq | hback⟩
      · cases heq
      · rw [goesBack_iff, hsource.2] at hback
        obtain ⟨_, ⟨⟩, _⟩ := hback
    have honly : ∀ c, ((start {} eitherLetter).run (promotion.take 3)).Heir 2 c → c = 4 := by
      intro c hc
      have hmem := hc.mem_children (by simpa [hbelow] using hback)
      rw [hbelow] at hmem
      exact List.mem_singleton.1 hmem
    exact fun c d hc hd _ => (honly c hc).trans (honly d hd).symm
  exact ⟨hsteps, by decide +kernel, run_binary {} eitherLetter promotion hsteps⟩

/-- Two siblings must not take the place of a node that has a sibling: the side `A` of `A` or `B` makes room for `C`
and `D`, and then there are three sides. -/
theorem Tableau.three_children_after_removal_of_side :
    ((start {} eitherLetter).run [.assume ⟨.binary .disjunction (letter "C") (letter "D"), true⟩, .develop 0 none,
      .develop 1 none, .remove 2]).children 1 = [4, 5, 3] := by
  decide +kernel

end Tableaux
