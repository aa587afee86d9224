import Mathlib
import Tableaux.Proofs.Arena.Burial

/-!
What a removal collects. From each leaf below the node a climb passes all nodes on the way up to it, and enters what was
developed from it unless an earlier climb has done so. So each climb adds what is on its own strand, and the siblings
that go are those of the nodes entered.
-/

namespace Tableaux

/-- The second of exactly two numbers. -/
def secondOfPair : List Nat → Option Nat
  | [_, second] => some second
  | _ => none

theorem Forest.secondOfTwo_eq (f : Forest Node) : f.secondOfTwo = secondOfPair (f.roots.map Node.id) := by
  match f with
  | nil => rfl
  | cons _ _ nil => rfl
  | cons _ _ (cons _ _ nil) => rfl
  | cons _ _ (cons _ _ (cons _ _ _)) => rfl

theorem Forest.strands_ne_nil {α : Type} {f : Forest α} (h : f ≠ .nil) : f.strands ≠ [] := by
  cases f with
  | nil => exact absurd rfl h
  | cons a below beside =>
      rw [strands]
      split <;> exact List.cons_ne_nil _ _

/-- The strands share out the nodes of the forest. -/
theorem Forest.flatten_strands_perm {α : Type} (f : Forest α) : f.strands.flatten.Perm f.labels := by
  induction f with
  | nil => exact .refl _
  | cons a below beside ihb ihs =>
      rw [strands, labels]
      cases hstrands : below.strands with
      | nil =>
          rw [hstrands] at ihb
          rw [List.nil_perm.1 ihb]
          exact ihs.cons a
      | cons strand others =>
          rw [hstrands] at ihb
          change (strand ++ [a] ++ (others ++ beside.strands).flatten).Perm _
          rw [List.flatten_append, List.append_assoc, List.singleton_append]
          refine List.perm_middle.trans (List.Perm.cons a ?_)
          rw [← List.append_assoc]
          exact ihb.append ihs

namespace Haul

variable {h : Haul} {id k : Nat} {siblings : Nat → List Nat} {n : Node} {l : List Node}

theorem dependents_doom (h : Haul) (l : List Nat) : (h.doom l).dependents = h.dependents := by
  unfold doom
  split
  · split <;> rfl
  · rfl

theorem mem_doomed_doom {l : List Nat} : k ∈ (h.doom l).doomed ↔ k ∈ h.doomed ∨ secondOfPair l = some k := by
  unfold doom secondOfPair
  split
  · rename_i second
    rw [Option.some_inj]
    split
    · rename_i hmem
      rw [List.contains_iff_mem] at hmem
      constructor
      · exact Or.inl
      · rintro (hk | rfl)
        · exact hk
        · exact hmem
    · rw [List.mem_append, List.mem_singleton, eq_comm]
  · simp

/-- A node on a climb is met: what was developed from `id` is entered, unless it was met before. -/
def meet (id : Nat) (siblings : Nat → List Nat) (h : Haul) (n : Node) : Haul :=
  if n.origin = some id ∧ n.id ∉ h.dependents then
    { h with dependents := h.dependents ++ [n.id] }.doom (siblings n.id)
  else h

theorem dependents_meet (h : Haul) (n : Node) : (h.meet id siblings n).dependents =
    if n.origin = some id ∧ n.id ∉ h.dependents then h.dependents ++ [n.id] else h.dependents := by
  rw [meet]
  split
  · rw [dependents_doom]
  · rfl

/-- All nodes of a climb are met. -/
def climb (id : Nat) (siblings : Nat → List Nat) (h : Haul) (b : List Node) : Haul :=
  b.foldl (meet id siblings) h

theorem climb_append (h : Haul) (b c : List Node) :
    h.climb id siblings (b ++ c) = (h.climb id siblings b).climb id siblings c :=
  List.foldl_append

theorem subset_climb (l : List Node) (h : Haul) : h.dependents ⊆ (h.climb id siblings l).dependents := by
  induction l generalizing h with
  | nil => exact fun _ hi => hi
  | cons n l ih =>
      refine fun i hi => ih _ ?_
      rw [dependents_meet]
      split
      · exact List.mem_append_left _ hi
      · exact hi

theorem mem_climb (hn : n ∈ l) (horigin : n.origin = some id) (h : Haul) :
    n.id ∈ (h.climb id siblings l).dependents := by
  induction l generalizing h with
  | nil => cases hn
  | cons m l ih =>
      rcases List.mem_cons.1 hn with rfl | hn
      · refine subset_climb l _ ?_
        rw [dependents_meet]
        split
        · exact List.mem_append_right _ (List.mem_singleton.2 rfl)
        · rename_i hnot
          exact not_not.1 fun hmem => hnot ⟨horigin, hmem⟩
      · exact ih hn _

/-- Nodes that were met before add nothing. -/
theorem climb_of_met (hmet : ∀ n ∈ l, n.origin = some id → n.id ∈ h.dependents) : h.climb id siblings l = h := by
  induction l with
  | nil => rfl
  | cons n l ih =>
      have hn : h.meet id siblings n = h := if_neg fun hnew => hnew.2 (hmet n List.mem_cons_self hnew.1)
      rw [climb, List.foldl_cons, hn]
      exact ih fun m hm => hmet m (List.mem_cons_of_mem _ hm)

/-- Nodes with different numbers that were not met before are entered in their order. -/
theorem dependents_climb (hids : (l.map Node.id).Nodup) (hnew : ∀ n ∈ l, n.id ∉ h.dependents) :
    (h.climb id siblings l).dependents = h.dependents ++ (l.filter fun n => n.origin == some id).map Node.id := by
  induction l generalizing h with
  | nil => exact (List.append_nil _).symm
  | cons n l ih =>
      rw [List.map_cons, List.nodup_cons] at hids
      have hnew' : ∀ m ∈ l, m.id ∉ (h.meet id siblings n).dependents := by
        intro m hm
        have hm' := hnew m (List.mem_cons_of_mem _ hm)
        rw [dependents_meet]
        split
        · rw [List.mem_append, List.mem_singleton, not_or]
          exact ⟨hm', fun heq => hids.1 (heq ▸ List.mem_map_of_mem hm)⟩
        · exact hm'
      refine (ih hids.2 hnew').trans ?_
      rw [dependents_meet]
      by_cases horigin : n.origin = some id
      · rw [if_pos ⟨horigin, hnew n List.mem_cons_self⟩, List.filter_cons_of_pos (by simpa using horigin),
          List.map_cons, List.append_assoc]
        rfl
      · rw [if_neg fun hboth => horigin hboth.1, List.filter_cons_of_neg (by simpa using horigin)]

/-- The doomed are the second ones beside the dependents. -/
def Paired (siblings : Nat → List Nat) (h : Haul) : Prop :=
  ∀ k, k ∈ h.doomed ↔ ∃ d ∈ h.dependents, secondOfPair (siblings d) = some k

theorem Paired.meet (hp : h.Paired siblings) (n : Node) : (h.meet id siblings n).Paired siblings := by
  intro k
  rw [Haul.meet]
  split
  · rw [mem_doomed_doom, dependents_doom]
    simp only [List.mem_append, List.mem_singleton, or_and_right, exists_or, exists_eq_left]
    rw [hp k]
  · exact hp k

theorem Paired.climb (hp : h.Paired siblings) (l : List Node) : (h.climb id siblings l).Paired siblings := by
  induction l generalizing h with
  | nil => exact hp
  | cons n l ih => exact ih (hp.meet n)

/-- The climbs along the branches of a forest, with what is above it, come to one walk along its strands, the first of
them prolonged by what is above. -/
theorem climb_branches (f : Forest Node) (up : List Node) (h : Haul) :
    (f.branches up).foldl (climb id siblings) h =
      match f.strands with
      | [] => h
      | strand :: others => (h.climb id siblings (strand ++ up)).climb id siblings others.flatten := by
  induction f generalizing up h with
  | nil => rfl
  | cons a below beside ihb ihs =>
      -- once what is above has been met, the climbs from beside add what is on their own strands
      have hbeside : ∀ h : Haul, (∀ n ∈ up, n.origin = some id → n.id ∈ h.dependents) →
          (beside.branches up).foldl (climb id siblings) h = h.climb id siblings beside.strands.flatten := by
        intro h hmet
        rw [ihs up h]
        cases beside.strands with
        | nil => rfl
        | cons strand others =>
            change (h.climb id siblings (strand ++ up)).climb id siblings others.flatten = _
            rw [climb_append, climb_of_met fun n hn horigin => subset_climb strand h (hmet n hn horigin),
              List.flatten_cons, climb_append]
      by_cases hne : below = .nil
      · subst hne
        rw [Forest.branches_cons_nil, List.foldl_cons,
          hbeside _ fun n hn horigin => mem_climb (List.mem_cons_of_mem _ hn) horigin h]
        rfl
      · rw [Forest.branches_cons_of_ne hne, List.foldl_append, ihb, Forest.strands]
        cases hstrands : below.strands with
        | nil => exact absurd hstrands (Forest.strands_ne_nil hne)
        | cons strand others =>
            change (beside.branches up).foldl _ ((h.climb id siblings (strand ++ a :: up)).climb id siblings
              others.flatten) = (h.climb id siblings (strand ++ [a] ++ up)).climb id siblings
                (others ++ beside.strands).flatten
            rw [hbeside _ fun n hn horigin => subset_climb _ _ (mem_climb
              (List.mem_append_right _ (List.mem_cons_of_mem _ hn)) horigin h), List.flatten_append, climb_append _ _
              beside.strands.flatten, List.append_assoc strand [a] up]
            rfl

/-- The climbs from all leaves of a forest enter what was developed from `id`, strand by strand, and the second ones
beside it. -/
theorem climb_branches_spec {f : Forest Node} (hids : (f.labels.map Node.id).Nodup) (id : Nat)
    (siblings : Nat → List Nat) :
    ((f.branches []).foldl (climb id siblings) ({} : Haul)).dependents = f.dependents id ∧
      ((f.branches []).foldl (climb id siblings) ({} : Haul)).Paired siblings := by
  have hfold : (f.branches []).foldl (climb id siblings) ({} : Haul) =
      ({} : Haul).climb id siblings f.strands.flatten := by
    rw [climb_branches]
    cases f.strands with
    | nil => rfl
    | cons strand others =>
        change (({} : Haul).climb id siblings (strand ++ [])).climb id siblings others.flatten = _
        rw [List.append_nil, List.flatten_cons, climb_append]
  rw [hfold]
  constructor
  · exact dependents_climb ((f.flatten_strands_perm.map Node.id).nodup_iff.2 hids) fun _ _ => List.not_mem_nil
  · exact Paired.climb (fun k => by simp) _

end Haul

namespace Arena

variable {a : Arena} {t : Tableau} {id : Nat} {n m : Node}

/-- The children of the parent of a node. -/
def siblings (a : Arena) (i : Nat) : List Nat :=
  match (a.slot i).bind Slot.parent with
  | some up => ((a.slot up).map Slot.children).getD []
  | none => []

theorem collect_eq {s p : Slot} {up : Nat} (hslot : a.slot n.id = some s) (hnode : s.node = n)
    (hparent : s.parent = some up) (hp : a.slot up = some p) (haul : Haul) :
    a.collect id n.id s haul = some (haul.meet id a.siblings n) := by
  have hsiblings : a.siblings n.id = p.children := by
    rw [siblings, hslot, Option.bind_some, hparent]
    change ((a.slot up).map Slot.children).getD [] = _
    rw [hp]
    rfl
  rw [collect, hnode, Haul.meet, hparent, hsiblings]
  split
  · change (a.slot up).bind _ = _
    rw [hp]
    rfl
  · rfl

/-- The climb up to the node meets all that is below it on the branch. -/
theorem collectUpward_eq {b up : List Node} {rounds : Nat} (h : a.Chained (b ++ m :: up)) (hid : m.id = id)
    (hne : ∀ n ∈ b, n.id ≠ id) (hrounds : b.length < rounds) {current : Nat}
    (hcurrent : (b ++ m :: up).head?.map Node.id = some current) (haul : Haul) :
    a.collectUpward id rounds current haul = some (haul.climb id a.siblings b) := by
  induction b generalizing rounds current haul with
  | nil =>
      obtain ⟨rounds, rfl⟩ : ∃ r, rounds = r + 1 := Nat.exists_eq_add_one.2 hrounds
      rw [List.nil_append, List.head?_cons, Option.map_some, Option.some_inj, hid] at hcurrent
      subst hcurrent
      rw [collectUpward, if_pos rfl]
      rfl
  | cons n b ih =>
      obtain ⟨rounds, rfl⟩ : ∃ r, rounds = r + 1 := Nat.exists_eq_add_one.2 (Nat.zero_lt_of_lt hrounds)
      rw [List.cons_append, List.head?_cons, Option.map_some, Option.some_inj] at hcurrent
      subst hcurrent
      obtain ⟨next, rest, hnext⟩ : ∃ next rest, b ++ m :: up = next :: rest := by
        cases b <;> exact ⟨_, _, rfl⟩
      have hrest := h.2
      rw [List.cons_append, hnext] at h
      obtain ⟨⟨children, hslot⟩, ⟨children', hslot'⟩, _⟩ := h
      have hcurrent : (b ++ m :: up).head?.map Node.id = some next.id := congrArg (fun l => l.head?.map Node.id) hnext
      rw [collectUpward, if_neg (hne n List.mem_cons_self), hslot]
      simp only [Option.bind_eq_bind, Option.bind_some, collect_eq hslot rfl rfl hslot']
      exact ih hrest (fun k hk => hne k (List.mem_cons_of_mem _ hk)) (Nat.lt_of_succ_lt_succ hrounds) hcurrent _

/-- The climbs from the ends of the given branches. -/
theorem collectAll_eq {bs : List (List Node)} {up : List Node} (hid : m.id = id)
    (hbs : ∀ b ∈ bs, b ≠ [] ∧ a.Chained (b ++ m :: up) ∧ (∀ n ∈ b, n.id ≠ id) ∧ b.length ≤ a.slots.length)
    (haul : Haul) : a.collectAll id ((bs.filterMap List.head?).map Node.id) haul =
      some (bs.foldl (Haul.climb id a.siblings) haul) := by
  induction bs generalizing haul with
  | nil => rfl
  | cons b bs ih =>
      obtain ⟨hne, hchain, hids, hlength⟩ := hbs b List.mem_cons_self
      obtain ⟨leaf, rest, rfl⟩ := List.exists_cons_of_ne_nil hne
      rw [List.filterMap_cons]
      change (a.collectUpward id (a.slots.length + 1) leaf.id haul).bind _ = _
      rw [collectUpward_eq hchain hid hids (Nat.lt_succ_of_le hlength) rfl]
      exact ih (fun b hb => hbs b (List.mem_cons_of_mem _ hb)) _

namespace Represents

variable (h : a.Represents t) (hi : Indexed t) {r q : Site Node} (hr : r ∈ t.tree.sites)

include h

theorem siblings_eq (hq : q ∈ t.tree.sites) {x : Node} (hx : x ∈ q.tree.below.roots) :
    a.siblings x.id = q.tree.below.roots.map Node.id := by
  obtain ⟨s, hs, rfl, habove⟩ := Forest.exists_site_of_mem_roots hx (q.tree.root :: q.above)
  rw [siblings, h.slot_site (Forest.sites_below_subset hq s hs), Option.bind_some, habove]
  change ((a.slot q.tree.root.id).map Slot.children).getD [] = _
  rw [h.slot_site hq]
  rfl

include hr

/-- The second ones beside the dependents of a node are those that its removal dooms. -/
theorem mem_doomed_iff {k : Nat} :
    (∃ d ∈ r.tree.below.dependents r.tree.root.id, secondOfPair (a.siblings d) = some k) ↔
      k ∈ r.tree.below.doomed r.tree.root.id r.tree.below.secondOfTwo := by
  have hsites := Forest.sites_below_subset hr
  rw [Forest.mem_doomed_iff_sites (r.tree.root :: r.above)]
  simp only [Forest.mem_dependents]
  constructor
  · rintro ⟨_, ⟨n, hn, rfl, horigin⟩, hk⟩
    obtain ⟨s, hs, rfl⟩ := Forest.exists_site_of_mem_labels hn (r.tree.root :: r.above)
    rcases Forest.root_or_below hs with ⟨_, hmem⟩ | ⟨p, hp, _, hmem⟩
    · rw [h.siblings_eq hr hmem, ← Forest.secondOfTwo_eq] at hk
      exact Or.inl ⟨hk, _, hmem, horigin⟩
    · rw [h.siblings_eq (hsites p hp) hmem, ← Forest.secondOfTwo_eq] at hk
      exact Or.inr ⟨p, hp, hk, _, hmem, horigin⟩
  · rintro (⟨hk, x, hx, horigin⟩ | ⟨p, hp, hk, x, hx, horigin⟩)
    · refine ⟨x.id, ⟨x, (Forest.roots_sublist_labels _).mem hx, rfl, horigin⟩, ?_⟩
      rw [h.siblings_eq hr hx, ← Forest.secondOfTwo_eq, hk]
    · refine ⟨x.id, ⟨x, ?_, rfl, horigin⟩, ?_⟩
      · exact (Forest.labels_below_sublist_of_mem_sites hp).mem ((Forest.roots_sublist_labels _).mem hx)
      · rw [h.siblings_eq (hsites p hp) hx, ← Forest.secondOfTwo_eq, hk]

include hi

/-- All climbs from the leaves below a node up to it. -/
theorem collectAll_site : a.collectAll r.tree.root.id (r.tree.toForest.leaves.map Node.id) {} =
    some ((r.tree.below.branches []).foldl (Haul.climb r.tree.root.id a.siblings) {}) := by
  by_cases hne : r.tree.below = .nil
  · rw [Tree.toForest, hne]
    change (a.collectUpward r.tree.root.id (a.slots.length + 1) r.tree.root.id {}).bind _ = _
    rw [collectUpward, if_pos rfl]
    rfl
  · have hleaves : r.tree.toForest.leaves = (r.tree.below.branches []).filterMap List.head? := by
      rw [Forest.leaves_eq_heads, Tree.toForest, Forest.leaves, if_neg (fun he => hne (Forest.isEmpty_iff.1 he))]
      exact List.append_nil _
    have hclimbs : ∀ b ∈ r.tree.below.branches [], b ≠ [] ∧ a.Chained (b ++ r.tree.root :: r.above) ∧
        (∀ n ∈ b, n.id ≠ r.tree.root.id) ∧ b.length ≤ a.slots.length := by
      intro b hb
      have hbranch : b ++ r.tree.root :: r.above ∈ t.tree.branches := by
        refine Forest.mem_branches_of_site hr ?_
        rw [Tree.toForest, Forest.branches_cons_of_ne hne, Forest.branches_eq_map]
        exact List.mem_append_left _ (List.mem_map_of_mem hb)
      obtain ⟨leaf, up, hcons, _⟩ := Forest.exists_cons_of_mem_branches hb
      have hb' := hbranch
      rw [hcons, List.cons_append] at hb'
      obtain ⟨s, hs, hroot, habove, _⟩ := Tree.exists_site_of_leaf hb'
      have hchain := h.chained_site hs
      have hlength := hi.length_site_le hs
      rw [hroot, habove, ← List.cons_append, ← hcons] at hchain hlength
      refine ⟨hcons ▸ List.cons_ne_nil _ _, hchain, fun n hn => ?_, ?_⟩
      · exact Nat.ne_of_gt (hi.lt_of_mem_below hr (Forest.mem_labels_of_mem_branch hb hn))
      · rw [h.length]
        exact (List.sublist_append_left _ _).length_le.trans hlength
    rw [hleaves]
    exact collectAll_eq rfl hclimbs {}

/-- What a removal collects: nothing for a literal; otherwise what was developed from the node, strand by strand, and
the second ones beside it. -/
theorem haul_spec : ∃ haul, a.haul r.tree.root.id = some haul ∧
    (r.tree.root.kind.isLiteral = true → haul = {}) ∧
    (r.tree.root.kind.isLiteral = false → haul.dependents = r.tree.below.dependents r.tree.root.id ∧
      ∀ k, k ∈ haul.doomed ↔ k ∈ r.tree.below.doomed r.tree.root.id r.tree.below.secondOfTwo) := by
  rw [haul, h.slot_site hr]
  simp only [Option.bind_eq_bind, Option.bind_some]
  cases hliteral : r.tree.root.kind.isLiteral with
  | true => exact ⟨{}, rfl, fun _ => rfl, fun heq => absurd heq.symm Bool.false_ne_true⟩
  | false =>
      have hleaves := h.leavesBelow_site hi hr false
      have hall : r.tree.toForest.leavesOutside (fun n => false && n.branchClosed) = r.tree.toForest.leaves :=
        Forest.leavesOutside_none _
      rw [if_neg Bool.false_ne_true, hleaves, Option.bind_some, hall, h.collectAll_site hi hr]
      have hids := ((Forest.labels_below_sublist_of_mem_sites hr).map Node.id).nodup hi.numbered
      obtain ⟨hdependents, hpaired⟩ := Haul.climb_branches_spec hids r.tree.root.id a.siblings
      refine ⟨_, rfl, fun heq => absurd heq Bool.false_ne_true, fun _ => ⟨hdependents, fun k => ?_⟩⟩
      rw [hpaired k, hdependents]
      exact h.mem_doomed_iff hr

end Represents

end Arena

end Tableaux
