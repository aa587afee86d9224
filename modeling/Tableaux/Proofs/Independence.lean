import Mathlib
import Tableaux.Proofs.Siblings

/-!
What a removal takes away. Where siblings are developed from the same node, the second of two siblings that goes with
a removed node goes back to the node as the first does. So whatever is lost is the node itself, or on the way down to
it there is something that goes back to the node.
-/

namespace Tableaux

namespace Forest

variable {f : Forest Node} {source : Nat → Option Nat} {generations id : Nat} {n : Node}

/-- On the way from the node with the given number down to `n`, or at its end, stands something that goes back to this
node. -/
def Entails (source : Nat → Option Nat) (f : Forest Node) (id : Nat) (n : Node) : Prop :=
  ∃ a m, a.id = id ∧ f.Above a m ∧ (m = n ∨ f.Above m n) ∧ Relation.TransGen (fun c k => source c = some k) m.id id

/-- Where siblings come from the same node, the doomed are developed from the node. -/
theorem origin_of_mem_doomed (hmatched : f.Families (Matched fun origin => origin)) {s : Site Node}
    (hs : s ∈ f.sites []) {k : Nat} (hk : k ∈ s.tree.below.doomed id s.tree.below.secondOfTwo) :
    ∃ m ∈ s.tree.below.labels, m.id = k ∧ m.origin = some id := by
  obtain ⟨r, hr, hbelow, hsecond, x, hx, horigin⟩ := exists_family_of_mem_doomed hs hk
  obtain ⟨m, hm, hid⟩ := exists_root_of_secondOfTwo hsecond
  exact ⟨m, hbelow m hm, hid, (((families_iff_sites []).1 hmatched r hr).alike m hm x hx).trans horigin⟩

theorem Shrinks.mono_entails {g : Forest Node} (h : f.Shrinks g) (he : g.Entails source id n) :
    f.Entails source id n := by
  obtain ⟨a, m, ha, ham, hmn, hback⟩ := he
  exact ⟨a, m, ha, h.above ham, hmn.imp_right h.above, hback⟩

/-- What goes back to a dependent of a node goes back to the node. -/
theorem Entails.of_dependent (hnodup : (f.labels.map Node.id).Nodup) {s : Site Node} (hs : s ∈ f.sites [])
    {d : Node} (hd : d ∈ s.tree.below.labels) (hsource : source d.id = some s.tree.root.id)
    (h : d = n ∨ f.Entails source d.id n) : f.Entails source s.tree.root.id n := by
  have habove := (above_iff hnodup hs).2 hd
  rcases h with rfl | ⟨a, m, hid, ham, hmn, hback⟩
  · exact ⟨s.tree.root, d, rfl, habove, Or.inl rfl, .single hsource⟩
  · rw [List.inj_on_of_nodup_map hnodup ham.mem_labels ((labels_below_sublist_of_mem_sites hs).mem hd) hid] at ham
    exact ⟨s.tree.root, m, rfl, habove.trans hnodup ham, hmn, hback.tail hsource⟩

theorem Entails.of_strip (hnodup : (f.labels.map Node.id).Nodup) (horigin : ∀ n ∈ f.labels, n.origin = source n.id)
    (hmatched : f.Families (Matched fun origin => origin))
    (hexcise : ∀ {g : Forest Node} {d : Nat} {n : Node}, (g.labels.map Node.id).Nodup →
      (∀ n ∈ g.labels, n.origin = source n.id) → g.Families (Matched fun origin => origin) → n ∈ g.labels →
      n ∉ (g.exciseWithin generations d).labels → n.id = d ∨ g.Entails source d n)
    (hn : n ∈ f.labels) (hgone : n ∉ (f.strip generations id).labels) : f.Entails source id n := by
  have htwo : f.Families fun l => l.length ≤ 2 := hmatched.imp fun _ _ hl => hl.two
  rcases strip_cases generations id f with ⟨heq, _⟩ | ⟨s, hs, rfl, heq⟩
  · rw [heq] at hgone
    exact absurd hn hgone
  · rw [heq] at hgone
    have hpruned : f.Thinned (f.pruneDoomed s) := .prune _ f
    have hbelow := labels_below_sublist_of_mem_sites hs
    refine (List.foldlRecOn (motive := fun g => (f.pruneDoomed s).Thinned g ∧ f.Shrinks g ∧
      ∀ n ∈ f.labels, n ∉ g.labels → f.Entails source s.tree.root.id n) _ _ ⟨.refl _, .prune _ f, ?_⟩ ?_).2.2 n hn hgone
    · intro n hn hgone
      obtain ⟨k, hk, hdoomed, hkn⟩ := exists_pruned hn hgone
      obtain ⟨m, hm, hid, hsource⟩ := origin_of_mem_doomed hmatched hs (List.contains_iff_mem.1 hdoomed)
      obtain rfl := List.inj_on_of_nodup_map hnodup (hbelow.mem hm) hk hid
      rw [horigin m hk] at hsource
      exact ⟨s.tree.root, m, rfl, (above_iff hnodup hs).2 hm, hkn, .single hsource⟩
    · intro g ⟨hthinned, hshrinks, hlost⟩ d hd
      have hnodup' := (hshrinks.labels.map Node.id).nodup hnodup
      have hmatched' := (hpruned.trans hthinned).families hmatched fun _ _ hsub hl => hl.sublist hsub
      refine ⟨hthinned.trans (.exciseWithin hnodup' (hmatched'.imp fun _ _ hl => hl.two)
        (hthinned.lone_dependent hnodup htwo hs hd) generations), hshrinks.trans (.exciseWithin generations d g), ?_⟩
      intro n hn hgone
      by_cases hng : n ∈ g.labels
      · obtain ⟨m, hm, rfl, hsource⟩ := mem_dependents.1 hd
        rw [horigin m (hbelow.mem hm)] at hsource
        refine .of_dependent hnodup hs hm hsource ?_
        rcases hexcise hnodup' (fun k hk => horigin k (hshrinks.labels.mem hk)) hmatched' hng hgone with hid | hentails
        · exact Or.inl (List.inj_on_of_nodup_map hnodup (hbelow.mem hm) hn hid.symm)
        · exact Or.inr (hshrinks.mono_entails hentails)
      · exact hlost n hn hng

/-- Whatever is lost is the node itself or goes with something that goes back to it. -/
theorem entails_of_exciseWithin (hnodup : (f.labels.map Node.id).Nodup)
    (horigin : ∀ n ∈ f.labels, n.origin = source n.id) (hmatched : f.Families (Matched fun origin => origin))
    (hn : n ∈ f.labels) (hgone : n ∉ (f.exciseWithin generations id).labels) :
    n.id = id ∨ f.Entails source id n := by
  induction generations generalizing f id n with
  | zero => exact absurd hn hgone
  | succ generations ih =>
      rw [exciseWithin_succ, labels_splice, List.mem_filter] at hgone
      by_cases hid : n.id = id
      · exact Or.inl hid
      · refine Or.inr (.of_strip hnodup horigin hmatched (fun hnodup horigin hmatched hn hgone =>
          ih hnodup horigin hmatched hn hgone) hn fun hmem => hgone ⟨hmem, ?_⟩)
        simpa using hid

end Forest

namespace Tableau

variable {t : Tableau} {id : Nat}

/-- A node that is cut out is in the tree no more, and only such nodes are lost. -/
theorem not_mem_excised_of_lost (h : Valid t) {n : Node} (hn : n ∈ t.tree.labels)
    (hgone : (t.remove id).2.isLive n.id = false) :
    id ≠ t.tree.root.id ∧ n ∉ (t.excised id).tree.labels := by
  have hlive := (isLive_iff h.numbered).2 ⟨n, hn, rfl⟩
  rcases remove_cases t id with ⟨_, _, heq⟩ | ⟨_, heq⟩ | ⟨_, _, hroot, heq⟩
  · rw [heq, hlive] at hgone
    cases hgone
  · rw [heq, hlive] at hgone
    cases hgone
  · refine ⟨hroot, fun hmem => ?_⟩
    have hcleared : clearMarks n ∈ (t.excised id).cleared.tree.labels := by
      rw [cleared, Tree.labels_map]
      exact List.mem_map_of_mem hmem
    obtain ⟨m, hm, hnm⟩ := exists_of_forall₂_left
      (closesTo_closeBranches (t.excised id).cleared t.tree.root.id).tree.labels hcleared
    have hvalid := valid_remove h id
    rw [heq] at hgone hvalid
    exact Bool.false_ne_true (hgone.symm.trans ((isLive_iff hvalid.numbered).2 ⟨m, hm, hnm.id⟩))

end Tableau

/-- A removal takes away nothing that is independent of the removed node: whatever is lost is the node itself, or on
the way down to it, or at its end, stands another node that goes back to the removed one. This needs that siblings are
developed from the same node, so that the second of two goes back to whatever the first goes back to; and siblings
stay so if no removal puts something else in the place of a node that has a sibling. -/
theorem Tableau.run_removal_entailed (o : Options) (s : Signed) (steps : List Step)
    (hsteps : (start o s).Throughout (Seamless fun origin => origin) steps) (id n : Nat)
    (hn : ((start o s).run steps).isLive n = true) (hgone : (((start o s).run steps).remove id).2.isLive n = false) :
    n = id ∨ ∃ m, m ≠ id ∧ Relation.ReflTransGen (fun p c => c ∈ ((start o s).run steps).children p) id m ∧
      Relation.ReflTransGen (fun p c => c ∈ ((start o s).run steps).children p) m n ∧
      ((start o s).run steps).GoesBack m id := by
  have hvalid := valid_run o s steps
  have horderly := (Orderly.start o s).run (valid_start o s) (Caused.start o s) hsteps
  obtain ⟨k, hk, rfl⟩ := (isLive_iff hvalid.numbered).1 hn
  obtain ⟨hroot, hlost⟩ := not_mem_excised_of_lost hvalid hk hgone
  have hlost : k ∉ (((start o s).run steps).excised id).tree.toForest.labels := hlost
  rw [toForest_excised hvalid.numbered hroot] at hlost
  have horigin : ∀ m ∈ ((start o s).run steps).tree.toForest.labels,
      m.origin = ((start o s).run steps).source m.id := fun m hm => (source_id hvalid.numbered hm).symm
  rcases Forest.entails_of_exciseWithin hvalid.numbered horigin horderly hk hlost with
    hid | ⟨a, m, rfl, ham, hmk, hback⟩
  · exact Or.inl hid
  · have hdown := transGen_of_above hvalid.toIndexed ham
    refine Or.inr ⟨m.id, (lt_of_transGen_children hvalid.toIndexed hdown).ne', hdown.to_reflTransGen, ?_, hback⟩
    rcases hmk with rfl | hmk
    · exact .refl
    · exact (transGen_of_above hvalid.toIndexed hmk).to_reflTransGen

/-- Two premises besides `A` or `B`; the first of them is developed, then the split is made, and the second is taken
back. -/
def retraction : List Step :=
  [.assume ⟨.binary .conjunction (letter "C") (letter "D"), true⟩,
    .assume ⟨.binary .conjunction (letter "E") (letter "F"), true⟩, .develop 1 none, .develop 0 none, .remove 2]

/-- When the other premise is removed as well, `D` goes, which was developed from it. -/
theorem Tableau.run_removal_entailed_witness :
    (start {} eitherLetter).Throughout (Seamless fun origin => origin) retraction ∧
    ((start {} eitherLetter).run retraction).isLive 4 = true ∧
    (((start {} eitherLetter).run retraction).remove 1).2.isLive 4 = false ∧
    (4 = 1 ∨ ∃ m, m ≠ 1 ∧
      Relation.ReflTransGen (fun p c => c ∈ ((start {} eitherLetter).run retraction).children p) 1 m ∧
      Relation.ReflTransGen (fun p c => c ∈ ((start {} eitherLetter).run retraction).children p) m 4 ∧
      ((start {} eitherLetter).run retraction).GoesBack m 1) := by
  have hsteps : (start {} eitherLetter).Throughout (Seamless fun origin => origin) retraction := by
    have honly : ∀ p ∈ ((start {} eitherLetter).run (retraction.take 4)).parent 2,
        ((start {} eitherLetter).run (retraction.take 4)).children p = [2] := by decide +kernel
    exact ⟨trivial, trivial, trivial, trivial, Or.inl honly, trivial⟩
  have hlive : ((start {} eitherLetter).run retraction).isLive 4 = true := by decide +kernel
  have hgone : (((start {} eitherLetter).run retraction).remove 1).2.isLive 4 = false := by decide +kernel
  exact ⟨hsteps, hlive, hgone, run_removal_entailed {} eitherLetter retraction hsteps 1 4 hlive hgone⟩

/-- Once `C` stands in the place of the side `A`, next to the side `B`, the removal of what `C` was developed from takes
`B` away, although nothing on the way down to `B` goes back to it. -/
theorem Tableau.independent_node_lost :
    ((start {} eitherLetter).run promotion).isLive 3 = true ∧
    (((start {} eitherLetter).run promotion).remove 1).2.isLive 3 = false ∧
    ¬ ∃ m, m ≠ 1 ∧ Relation.ReflTransGen (fun p c => c ∈ ((start {} eitherLetter).run promotion).children p) 1 m ∧
      Relation.ReflTransGen (fun p c => c ∈ ((start {} eitherLetter).run promotion).children p) m 3 ∧
      ((start {} eitherLetter).run promotion).GoesBack m 1 := by
  refine ⟨by decide +kernel, by decide +kernel, ?_⟩
  rintro ⟨m, _, _, hdown, hback⟩
  have hle : m ≤ 3 := le_of_reflTransGen_children (valid_run {} eitherLetter promotion).toIndexed hdown
  have hsource : ∀ k < 4, ∀ i ∈ ((start {} eitherLetter).run promotion).source k, i = 0 := by decide +kernel
  have hroot : ((start {} eitherLetter).run promotion).source 0 = none := by decide +kernel
  obtain ⟨i, hi, hrest⟩ := goesBack_iff.1 hback
  obtain rfl := hsource m (Nat.lt_succ_of_le hle) i hi
  rcases hrest with heq | hback
  · cases heq
  · rw [goesBack_iff, hroot] at hback
    obtain ⟨_, ⟨⟩, _⟩ := hback

end Tableaux
