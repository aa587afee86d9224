import Mathlib
import Tableaux.Proofs.Pruning
import Tableaux.Proofs.Removal

/-!
What a removal leaves. Where everything developed from a node lies below it and siblings come in pairs developed from
the same node, the step by step removal of a node and its dependents comes to this: of each pair developed from the
node or from one of its dependents the second is pruned, and then the node and its dependents are spliced out.
-/

namespace Tableaux

/-- What depends on the given numbers: themselves, and whatever has one of these for its source. -/
inductive Depends (source : Nat → Option Nat) (ids : List Nat) : Nat → Prop
  | start {k : Nat} : k ∈ ids → Depends source ids k
  | step {k m : Nat} : source k = some m → Depends source ids m → Depends source ids k

theorem Depends.mono {source : Nat → Option Nat} {ids ids' : List Nat} (h : ∀ k ∈ ids, Depends source ids' k) {k : Nat}
    (hk : Depends source ids k) : Depends source ids' k := by
  induction hk with
  | start hk => exact h _ hk
  | step hsource _ ih => exact .step hsource ih

theorem Depends.cons_iff {source : Nat → Option Nat} {id : Nat} {ids : List Nat} {k : Nat} :
    Depends source (id :: ids) k ↔ Depends source ids k ∨ Depends source [id] k := by
  constructor
  · intro hk
    induction hk with
    | start hk =>
        rcases List.mem_cons.1 hk with rfl | hk
        · exact Or.inr (.start List.mem_cons_self)
        · exact Or.inl (.start hk)
    | step hsource _ ih => exact ih.imp (.step hsource) (.step hsource)
  · rintro (hk | hk)
    · exact hk.mono fun i hi => .start (List.mem_cons_of_mem _ hi)
    · exact hk.mono fun i hi => .start (List.mem_cons.2 (Or.inl (List.mem_singleton.1 hi)))

namespace Forest

variable {f : Forest Node} {source : Nat → Option Nat} {second : Nat → Bool} {T U T' U' : Nat → Prop}

open Classical in
/-- The number of the node is among the given ones. -/
noncomputable def among (U : Nat → Prop) (n : Node) : Bool :=
  decide (U n.id)

open Classical in
/-- The node is a second sibling, and its source is among the given ones. -/
noncomputable def secondOf (source : Nat → Option Nat) (second : Nat → Bool) (T : Nat → Prop) (n : Node) : Bool :=
  second n.id && decide (∃ m, source n.id = some m ∧ T m)

/-- Prunes the second siblings with a source in `T`, then splices out the nodes in `U`. -/
noncomputable def cut (source : Nat → Option Nat) (second : Nat → Bool) (T U : Nat → Prop) (f : Forest Node) :
    Forest Node :=
  (f.prune (secondOf source second T)).splice (among U)

open Classical in
theorem among_iff {n : Node} : among U n = true ↔ U n.id := by
  rw [among, decide_eq_true_iff]

theorem among_eq_false_iff {n : Node} : among U n = false ↔ ¬ U n.id := by
  rw [← Bool.not_eq_true, among_iff]

open Classical in
theorem secondOf_iff {n : Node} :
    secondOf source second T n = true ↔ second n.id = true ∧ ∃ m, source n.id = some m ∧ T m := by
  rw [secondOf, Bool.and_eq_true, decide_eq_true_iff]

theorem secondOf_eq_false_iff {n : Node} : secondOf source second T n = false ↔
    (second n.id = true → ∀ m, source n.id = some m → ¬ T m) := by
  rw [← Bool.not_eq_true, secondOf_iff]
  push Not
  rfl

theorem shrinks_cut (source : Nat → Option Nat) (second : Nat → Bool) (T U : Nat → Prop) (f : Forest Node) :
    f.Shrinks (f.cut source second T U) :=
  (Shrinks.prune _ f).trans (Shrinks.splice _ _)

theorem cut_congr (hT : ∀ n ∈ f.labels, second n.id = true → ∀ m, source n.id = some m → (T m ↔ T' m))
    (hU : ∀ n ∈ f.labels, U n.id ↔ U' n.id) : f.cut source second T U = f.cut source second T' U' := by
  have hprune : f.prune (secondOf source second T) = f.prune (secondOf source second T') := by
    refine prune_congr fun n hn => ?_
    rw [Bool.eq_iff_iff, secondOf_iff, secondOf_iff]
    refine and_congr_right fun hsecond => exists_congr fun m => and_congr_right fun hsource => ?_
    exact hT n hn hsecond m hsource
  rw [cut, cut, hprune]
  refine splice_congr fun n hn => ?_
  rw [Bool.eq_iff_iff, among_iff, among_iff]
  exact hU n (mem_labels_prune hn).1

/-- Nothing changes if no node is concerned. -/
theorem cut_eq_self (hT : ∀ n ∈ f.labels, second n.id = true → ∀ m, source n.id = some m → ¬ T m)
    (hU : ∀ n ∈ f.labels, ¬ U n.id) : f.cut source second T U = f := by
  rw [cut, prune_of_forall_not fun n hn => secondOf_eq_false_iff.2 (hT n hn),
    splice_of_forall_not fun n hn => among_eq_false_iff.2 (hU n hn)]

/-- Two cuts one after the other are one, if a node that the first splices out and the second prunes would have been
pruned by the first. -/
theorem cut_cut (h : ∀ n ∈ f.labels, second n.id = true → U n.id → ∀ m, source n.id = some m → T' m → T m) :
    (f.cut source second T U).cut source second T' U' =
      f.cut source second (fun m => T m ∨ T' m) fun k => U k ∨ U' k := by
  rw [cut, cut, cut, prune_splice, prune_prune, splice_splice]
  have hprune : (f.prune fun n => secondOf source second T n || (secondOf source second T' n && !among U n)) =
      f.prune (secondOf source second fun m => T m ∨ T' m) := by
    refine prune_congr fun n hn => ?_
    rw [Bool.eq_iff_iff, Bool.or_eq_true, Bool.and_eq_true, Bool.not_eq_true', among_eq_false_iff, secondOf_iff,
      secondOf_iff, secondOf_iff]
    constructor
    · rintro (⟨hsecond, m, hsource, hm⟩ | ⟨⟨hsecond, m, hsource, hm⟩, _⟩)
      · exact ⟨hsecond, m, hsource, Or.inl hm⟩
      · exact ⟨hsecond, m, hsource, Or.inr hm⟩
    · rintro ⟨hsecond, m, hsource, hm | hm⟩
      · exact Or.inl ⟨hsecond, m, hsource, hm⟩
      · by_cases hU : U n.id
        · exact Or.inl ⟨hsecond, m, hsource, h n hn hsecond hU m hsource hm⟩
        · exact Or.inr ⟨⟨hsecond, m, hsource, hm⟩, hU⟩
  rw [hprune]
  refine splice_congr fun n _ => ?_
  rw [Bool.eq_iff_iff, Bool.or_eq_true, among_iff, among_iff, among_iff]

/-- What a node was developed from is above it, and related to it. -/
def Sourced (R : Node → Node → Prop) (f : Forest Node) : Prop :=
  ∀ pre n up, pre ++ n :: up ∈ f.branches [] → ∀ m, n.origin = some m → ∃ a ∈ up, a.id = m ∧ R a n

namespace Sourced

variable {R : Node → Node → Prop}

theorem prune (h : f.Sourced R) (p : Node → Bool) : (f.prune p).Sourced R := by
  intro pre n up hb m hm
  obtain ⟨c, hc, e, rfl⟩ := exists_suffix_of_mem_branches_prune hb
  rw [← List.append_assoc] at hc
  exact h (e ++ pre) n up hc m hm

/-- Whatever is spliced out goes with all that was developed from it. -/
theorem splice {p : Node → Bool} (h : f.Sourced R)
    (hp : ∀ n ∈ f.labels, ∀ a ∈ f.labels, n.origin = some a.id → p a = true → p n = true) :
    (f.splice p).Sourced R := by
  intro pre n up hb m hm
  obtain ⟨c, hc, heq⟩ := exists_filter_of_mem_branches_splice hb
  obtain ⟨c₁, c₂, rfl, _, hc₂⟩ := List.filter_eq_append_iff.1 heq.symm
  obtain ⟨d₁, d₂, rfl, _, hn, rfl⟩ := List.filter_eq_cons_iff.1 hc₂
  rw [← List.append_assoc] at hc
  obtain ⟨a, ha, rfl, hR⟩ := h (c₁ ++ d₁) n d₂ hc m hm
  refine ⟨a, List.mem_filter.2 ⟨ha, ?_⟩, rfl, hR⟩
  by_contra hpa
  have hmem : ∀ {k : Node}, k ∈ n :: d₂ → k ∈ f.labels := fun hk =>
    mem_labels_of_mem_branch hc (List.mem_append_right _ hk)
  rw [hp n (hmem List.mem_cons_self) a (hmem (List.mem_cons_of_mem _ ha)) hm (by simpa using hpa)] at hn
  cases hn

/-- A cut may take away what goes with everything developed from it. -/
theorem cut (h : f.Sourced R) (horigin : ∀ n ∈ f.labels, n.origin = source n.id)
    (hU : ∀ k m, source k = some m → U m → U k) : (f.cut source second T U).Sourced R := by
  refine (h.prune _).splice fun n hn a _ ha hUa => ?_
  rw [among_iff] at hUa ⊢
  exact hU n.id a.id ((horigin n (mem_labels_prune hn).1).symm.trans ha) hUa

end Sourced

/-- The nodes have different numbers and sources as given, and what a node was developed from is an older node above
it that is no literal. -/
structure Linked (source : Nat → Option Nat) (f : Forest Node) : Prop where
  nodup : (f.labels.map Node.id).Nodup
  origin : ∀ n ∈ f.labels, n.origin = source n.id
  sourced : f.Sourced fun a n => a.kind.isLiteral = false ∧ a.id < n.id

/-- Siblings come in pairs developed from the same node, and the second of a pair, and nothing else, is marked as
such. -/
def Split (second : Nat → Bool) (l : List Node) : Prop :=
  l = [] ∨ (∃ x, l = [x] ∧ second x.id = false) ∨
    ∃ x y, l = [x, y] ∧ x.origin = y.origin ∧ second x.id = false ∧ second y.id = true

namespace Linked

theorem exists_source (h : f.Linked source) {n : Node} (hn : n ∈ f.labels) {m : Nat} (hm : source n.id = some m) :
    ∃ a ∈ f.labels, a.id = m ∧ a.kind.isLiteral = false ∧ m < n.id := by
  obtain ⟨b, hb, hnb⟩ := exists_branch_of_mem_labels hn
  obtain ⟨pre, up, rfl⟩ := List.append_of_mem hnb
  obtain ⟨a, ha, rfl, hliteral, hlt⟩ := h.sourced pre n up hb m ((h.origin n hn).trans hm)
  exact ⟨a, mem_labels_of_mem_branch hb (List.mem_append_right _ (List.mem_cons_of_mem _ ha)), rfl, hliteral, hlt⟩

theorem cut (h : f.Linked source) (hU : ∀ k m, source k = some m → U m → U k) :
    (f.cut source second T U).Linked source where
  nodup := ((shrinks_cut source second T U f).labels.map Node.id).nodup h.nodup
  origin n hn := h.origin n ((shrinks_cut source second T U f).labels.mem hn)
  sourced := h.sourced.cut h.origin hU

/-- Sources are alive, so what depends on something that is not alive is not alive either. -/
theorem not_depends (h : f.Linked source) {id : Nat} (hid : ∀ n ∈ f.labels, n.id ≠ id) {k : Nat}
    (hk : Depends source [id] k) : ∀ n ∈ f.labels, n.id ≠ k := by
  induction hk with
  | start hk =>
      rw [List.mem_singleton.1 hk]
      exact hid
  | step hsource _ ih =>
      rintro n hn rfl
      obtain ⟨a, ha, rfl, _⟩ := h.exists_source hn hsource
      exact ih a ha rfl

end Linked

namespace Split

variable {l : List Node}

/-- Second siblings may go. -/
theorem filter (h : Split second l) (source : Nat → Option Nat) (T : Nat → Prop) :
    Split second (l.filter fun n => !secondOf source second T n) := by
  have hfirst : ∀ {x : Node}, second x.id = false → secondOf source second T x = false := fun hx => by
    rw [secondOf, hx, Bool.false_and]
  rcases h with rfl | ⟨x, rfl, hx⟩ | ⟨x, y, rfl, horigin, hx, hy⟩
  · exact Or.inl rfl
  · exact Or.inr (Or.inl ⟨x, by simp [hfirst hx], hx⟩)
  · cases hlost : secondOf source second T y with
    | true => exact Or.inr (Or.inl ⟨x, by simp [hfirst hx, hlost], hx⟩)
    | false => exact Or.inr (Or.inr ⟨x, y, by simp [hfirst hx, hlost], horigin, hx, hy⟩)

/-- A node whose source is in `T` has no sibling, once second siblings with a source in `T` are gone. -/
theorem lone (h : Split second l) (hkept : ∀ n ∈ l, secondOf source second T n = false ∧ n.origin = source n.id)
    {n : Node} (hn : n ∈ l) {m : Nat} (hsource : source n.id = some m) (hm : T m) : l = [n] := by
  rcases h with rfl | ⟨x, rfl, _⟩ | ⟨x, y, rfl, horigin, _, hy⟩
  · cases hn
  · rw [List.mem_singleton.1 hn]
  · have hpair : n.origin = y.origin := by
      rcases List.mem_pair.1 hn with rfl | rfl
      · exact horigin
      · rfl
    obtain ⟨hlost, hysource⟩ := hkept y (by simp)
    rw [(hkept n hn).2, hysource, hsource] at hpair
    exact absurd hm (secondOf_eq_false_iff.1 hlost hy m hpair.symm)

end Split

/-- Once second siblings with a source in `T` are pruned, nodes with a source in `T` have no siblings. -/
theorem lone_prune (h : f.Linked source) (hsplit : f.Families (Split second))
    (hU : ∀ k, U k → ∃ m, source k = some m ∧ T m) :
    (f.prune (secondOf source second T)).Families (Lone (among U)) := by
  refine (hsplit.prune fun l hl => hl.filter source T).imp fun l hl hsplit n hn hUn => ?_
  obtain ⟨m, hsource, hm⟩ := hU n.id (among_iff.1 hUn)
  refine hsplit.lone (fun k hk => ?_) hn hsource hm
  obtain ⟨hmem, hlost⟩ := mem_labels_prune (hl k hk)
  exact ⟨hlost, h.origin k hmem⟩

/-- In a cut forest siblings come in pairs still, if only nodes without siblings are spliced out. -/
theorem split_cut (hsplit : f.Families (Split second))
    (hlone : (f.prune (secondOf source second T)).Families (Lone (among U))) :
    (f.cut source second T U).Families (Split second) :=
  (hsplit.prune fun _ hl => hl.filter source T).splice hlone (Or.inl rfl)

/-- Of a branch of which nothing is pruned, a cut leaves what is not spliced out, if this is nowhere next to a sibling
and not at a root. -/
theorem mem_branches_cut (hlone : (f.prune (secondOf source second T)).Families (Lone (among U)))
    (hroots : ∀ r ∈ f.roots, ¬ U r.id) {b : List Node} (hb : b ∈ f.branches [])
    (hkept : ∀ n ∈ b, secondOf source second T n = false) :
    b.filter (fun n => !among U n) ∈ (f.cut source second T U).branches [] := by
  have hroot : Lone (among U) (f.prune (secondOf source second T)).roots := by
    intro r hr hU
    rw [roots_prune] at hr
    exact absurd (among_iff.1 hU) (hroots r (List.mem_of_mem_filter hr))
  rcases mem_branches_splice hlone hroot (mem_branches_prune hb hkept) with hmem | ⟨hnil, _⟩
  · exact hmem
  · obtain ⟨r, hr, hrb⟩ := exists_root_of_mem_branches hb
    have hgone := List.filter_eq_nil_iff.1 hnil r hrb
    rw [among_eq_false_iff.2 (hroots r hr)] at hgone
    exact absurd rfl hgone

/-! Finding the dependents and the doomed. -/

theorem find?_eq_none_iff {id : Nat} : f.find? (·.id == id) = none ↔ ∀ n ∈ f.labels, n.id ≠ id := by
  rw [find?_eq_sites _ [], Option.map_eq_none_iff, List.find?_eq_none, ← map_root_sites [] f]
  simp

theorem exists_site_of_find? {id : Nat} {found : Node × Forest Node} (h : f.find? (·.id == id) = some found) :
    ∃ s ∈ f.sites [], (s.tree.root, s.tree.below) = found ∧ s.tree.root.id = id := by
  rw [find?_eq_sites _ [], Option.map_eq_some_iff] at h
  obtain ⟨s, hs, heq⟩ := h
  exact ⟨s, List.mem_of_find?_eq_some hs, heq, by simpa using List.find?_some hs⟩

theorem mem_flatten_strands {α : Type} {f : Forest α} {a : α} : a ∈ f.strands.flatten ↔ a ∈ f.labels := by
  induction f with
  | nil => rfl
  | cons c below beside ihb ihs =>
      rw [labels, List.mem_cons, List.mem_append, ← ihb, ← ihs, strands]
      cases below.strands with
      | nil => simp
      | cons strand others =>
          simp only [List.flatten_cons, List.flatten_append, List.mem_append, List.mem_singleton]
          tauto

theorem mem_dependents {id k : Nat} : k ∈ f.dependents id ↔ ∃ n ∈ f.labels, n.id = k ∧ n.origin = some id := by
  simp only [dependents, List.mem_map, List.mem_filter, mem_flatten_strands, beq_iff_eq]
  exact ⟨fun ⟨n, ⟨hn, horigin⟩, hid⟩ => ⟨n, hn, hid, horigin⟩, fun ⟨n, hn, hid, horigin⟩ => ⟨n, ⟨hn, horigin⟩, hid⟩⟩

/-- A doomed node is the second of two siblings one of which was developed from the node. -/
theorem mem_doomed_iff_sites {id k : Nat} {second : Option Nat} (above : List Node) :
    k ∈ f.doomed id second ↔ (second = some k ∧ ∃ r ∈ f.roots, r.origin = some id) ∨
      ∃ s ∈ f.sites above, s.tree.below.secondOfTwo = some k ∧ ∃ r ∈ s.tree.below.roots, r.origin = some id := by
  induction f generalizing above second with
  | nil => simp [doomed, roots, sites]
  | cons n below beside ihb ihs =>
      rw [doomed, List.mem_append, List.mem_append, ihb (n :: above), ihs above, sites, roots]
      simp only [List.mem_cons, List.mem_append]
      constructor
      · rintro (hk | (⟨hk, hr⟩ | ⟨s, hs, hfacts⟩) | ⟨hk, r, hr, hid⟩ | ⟨s, hs, hfacts⟩)
        · split at hk
          · rename_i hid
            exact Or.inl ⟨Option.mem_toList.1 hk, n, Or.inl rfl, hid⟩
          · cases hk
        · exact Or.inr ⟨_, Or.inl rfl, hk, hr⟩
        · exact Or.inr ⟨s, Or.inr (Or.inl hs), hfacts⟩
        · exact Or.inl ⟨hk, r, Or.inr hr, hid⟩
        · exact Or.inr ⟨s, Or.inr (Or.inr hs), hfacts⟩
      · rintro (⟨hk, r, rfl | hr, hid⟩ | ⟨s, rfl | hs | hs, hfacts⟩)
        · rw [if_pos hid]
          exact Or.inl (Option.mem_toList.2 hk)
        · exact Or.inr (Or.inr (Or.inl ⟨hk, r, hr, hid⟩))
        · exact Or.inr (Or.inl (Or.inl hfacts))
        · exact Or.inr (Or.inl (Or.inr ⟨s, hs, hfacts⟩))
        · exact Or.inr (Or.inr (Or.inr ⟨s, hs, hfacts⟩))

theorem exists_root_of_secondOfTwo {k : Nat} (h : f.secondOfTwo = some k) : ∃ n ∈ f.roots, n.id = k := by
  rw [secondOfTwo.eq_def] at h
  split at h
  · rename_i first below second below'
    exact ⟨second, by simp [roots], Option.some.inj h⟩
  · cases h

/-- The family in which a node below a place is doomed. -/
theorem exists_family_of_mem_doomed {above : List Node} {s : Site Node} (hs : s ∈ f.sites above) {id k : Nat}
    (h : k ∈ s.tree.below.doomed id s.tree.below.secondOfTwo) :
    ∃ r ∈ f.sites above, (∀ n ∈ r.tree.below.roots, n ∈ s.tree.below.labels) ∧
      r.tree.below.secondOfTwo = some k ∧ ∃ n ∈ r.tree.below.roots, n.origin = some id := by
  rcases (mem_doomed_iff_sites (s.tree.root :: s.above)).1 h with hfamily | ⟨r, hr, hfamily⟩
  · exact ⟨s, hs, fun n hn => (roots_sublist_labels _).mem hn, hfamily⟩
  · exact ⟨r, sites_below_subset hs r hr, fun n hn => ((roots_sublist_labels _).trans
      (labels_below_sublist_of_mem_sites hr)).mem hn, hfamily⟩

theorem exists_of_mem_doomed {id k : Nat} (h : k ∈ f.doomed id f.secondOfTwo) : ∃ n ∈ f.labels, n.id = k := by
  rcases (mem_doomed_iff_sites []).1 h with ⟨hk, _⟩ | ⟨s, hs, hk, _⟩
  · obtain ⟨n, hn, heq⟩ := exists_root_of_secondOfTwo hk
    exact ⟨n, (roots_sublist_labels f).mem hn, heq⟩
  · obtain ⟨n, hn, heq⟩ := exists_root_of_secondOfTwo hk
    exact ⟨n, ((roots_sublist_labels _).trans (labels_below_sublist_of_mem_sites hs)).mem hn, heq⟩

theorem Split.secondOfTwo_iff {id k : Nat} (h : Split second f.roots) :
    (f.secondOfTwo = some k ∧ ∃ r ∈ f.roots, r.origin = some id) ↔
      ∃ n ∈ f.roots, n.id = k ∧ second k = true ∧ n.origin = some id := by
  rcases h with hroots | ⟨x, hroots, hx⟩ | ⟨x, y, hroots, horigin, hx, hy⟩
  · rw [eq_nil_of_roots_eq_nil hroots]
    simp [secondOfTwo, roots]
  · obtain ⟨below, beside, rfl, hnil⟩ := exists_cons_of_roots_eq_cons hroots
    obtain rfl := eq_nil_of_roots_eq_nil hnil
    simp only [secondOfTwo, roots, List.mem_singleton]
    constructor
    · rintro ⟨hk, _⟩
      cases hk
    · rintro ⟨n, rfl, rfl, hsecond, _⟩
      rw [hx] at hsecond
      cases hsecond
  · obtain ⟨below, beside, rfl, hrest⟩ := exists_cons_of_roots_eq_cons hroots
    obtain ⟨below', beside', rfl, hnil⟩ := exists_cons_of_roots_eq_cons hrest
    obtain rfl := eq_nil_of_roots_eq_nil hnil
    simp only [secondOfTwo, roots, List.mem_cons, List.not_mem_nil, or_false, Option.some.injEq]
    constructor
    · rintro ⟨rfl, r, rfl | rfl, hid⟩
      · exact ⟨y, Or.inr rfl, rfl, hy, horigin ▸ hid⟩
      · exact ⟨r, Or.inr rfl, rfl, hy, hid⟩
    · rintro ⟨n, rfl | rfl, rfl, hsecond, hid⟩
      · rw [hx] at hsecond
        cases hsecond
      · exact ⟨rfl, n, Or.inr rfl, hid⟩

/-- The doomed are the second siblings developed from the node. -/
theorem mem_doomed (h : f.Families (Split second)) {above : List Node} {s : Site Node} (hs : s ∈ f.sites above)
    {id k : Nat} : k ∈ s.tree.below.doomed id s.tree.below.secondOfTwo ↔
      ∃ n ∈ s.tree.below.labels, n.id = k ∧ second k = true ∧ n.origin = some id := by
  have hsplit : ∀ r ∈ s.tree.below.sites (s.tree.root :: s.above), Split second r.tree.below.roots :=
    fun r hr => (families_iff_sites above).1 h r (sites_below_subset hs r hr)
  rw [mem_doomed_iff_sites (s.tree.root :: s.above), ((families_iff_sites above).1 h s hs).secondOfTwo_iff]
  constructor
  · rintro (⟨n, hn, hfacts⟩ | ⟨r, hr, hk⟩)
    · exact ⟨n, (roots_sublist_labels _).mem hn, hfacts⟩
    · obtain ⟨n, hn, hfacts⟩ := (hsplit r hr).secondOfTwo_iff.1 hk
      exact ⟨n, ((roots_sublist_labels _).trans (labels_below_sublist_of_mem_sites hr)).mem hn, hfacts⟩
  · rintro ⟨n, hn, hfacts⟩
    obtain ⟨r, hr, rfl⟩ := exists_site_of_mem_labels hn (s.tree.root :: s.above)
    rcases root_or_below hr with ⟨_, hroot⟩ | ⟨r', hr', _, hroot⟩
    · exact Or.inl ⟨_, hroot, hfacts⟩
    · exact Or.inr ⟨r', hr', (hsplit r' hr').secondOfTwo_iff.2 ⟨_, hroot, hfacts⟩⟩

/-! The removal of one node. -/

/-- What was developed from a node lies below it. -/
theorem Linked.mem_below (h : f.Linked source) {s : Site Node} (hs : s ∈ f.sites []) {n : Node} (hn : n ∈ f.labels)
    (hsource : source n.id = some s.tree.root.id) : n ∈ s.tree.below.labels := by
  obtain ⟨b, hb, hnb⟩ := exists_branch_of_mem_labels hn
  obtain ⟨pre, up, rfl⟩ := List.append_of_mem hnb
  obtain ⟨a, ha, hid, _⟩ := h.sourced pre n up hb _ ((h.origin n hn).trans hsource)
  obtain ⟨mid, top, rfl⟩ := List.append_of_mem ha
  have hb : (pre ++ n :: mid) ++ a :: top ∈ f.branches [] := by simpa using hb
  obtain ⟨s', hs', rfl, rfl, hmem⟩ := exists_site_of_mem_branches hb List.nil_suffix
  obtain rfl := site_eq_of_id_eq h.nodup hs' hs hid
  rw [branches_eq_map, List.mem_map] at hmem
  obtain ⟨c, hc, heq⟩ := hmem
  have heq : c ++ s'.above = (pre ++ n :: mid) ++ [s'.tree.root] ++ s'.above := by
    rw [heq]
    simp
  have heq := List.append_cancel_right heq
  rcases mem_branches_cons.1 hc with ⟨_, rfl⟩ | ⟨d, hd, rfl⟩ | hc
  · have hlen := congrArg List.length heq
    simp at hlen
    omega
  · rw [List.append_cancel_right heq] at hd
    exact mem_labels_of_mem_branch hd (by simp)
  · cases hc

/-- The dependents of a node are what was developed from it, and younger. -/
theorem Linked.mem_dependents (h : f.Linked source) {s : Site Node} (hs : s ∈ f.sites []) {k : Nat} :
    k ∈ s.tree.below.dependents s.tree.root.id ↔ (∃ n ∈ f.labels, n.id = k) ∧ source k = some s.tree.root.id := by
  rw [Forest.mem_dependents]
  constructor
  · rintro ⟨n, hn, rfl, horigin⟩
    have hn := (labels_below_sublist_of_mem_sites hs).mem hn
    exact ⟨⟨n, hn, rfl⟩, (h.origin n hn).symm.trans horigin⟩
  · rintro ⟨⟨n, hn, rfl⟩, hsource⟩
    exact ⟨n, h.mem_below hs hn hsource, rfl, (h.origin n hn).trans hsource⟩

theorem not_depends_nil {k : Nat} : ¬ Depends source [] k := by
  intro hk
  induction hk with
  | start hk => cases hk
  | step _ _ ih => exact ih

/-- The forest after the second siblings developed from `id` have been pruned and the given nodes developed from it
have been removed. -/
noncomputable def stage (source : Nat → Option Nat) (second : Nat → Bool) (id : Nat) (ids : List Nat)
    (f : Forest Node) : Forest Node :=
  f.cut source second (fun m => m = id ∨ Depends source ids m) (Depends source ids)

theorem stage_nil (h : f.Linked source) (hsplit : f.Families (Split second)) {s : Site Node} (hs : s ∈ f.sites []) :
    (f.prune fun m => (s.tree.below.doomed s.tree.root.id s.tree.below.secondOfTwo).contains m.id) =
      f.stage source second s.tree.root.id [] := by
  rw [stage, cut, splice_of_forall_not fun n _ => among_eq_false_iff.2 not_depends_nil]
  refine prune_congr fun n hn => ?_
  rw [Bool.eq_iff_iff, List.contains_iff_mem, mem_doomed hsplit hs, secondOf_iff]
  constructor
  · rintro ⟨k, hk, hid, hsecond, horigin⟩
    rw [h.origin k ((labels_below_sublist_of_mem_sites hs).mem hk), hid] at horigin
    exact ⟨hsecond, _, horigin, Or.inl rfl⟩
  · rintro ⟨hsecond, m, hsource, rfl | hm⟩
    · exact ⟨n, h.mem_below hs hn hsource, rfl, hsecond, (h.origin n hn).trans hsource⟩
    · exact absurd hm not_depends_nil

/-- Nothing is developed from a literal. -/
theorem Linked.source_ne_of_literal (h : f.Linked source) {n : Node} (hn : n ∈ f.labels)
    (hliteral : n.kind.isLiteral = true) : ∀ k ∈ f.labels, source k.id ≠ some n.id := by
  intro k hk hsource
  obtain ⟨a, ha, hid, hfalse, _⟩ := h.exists_source hk hsource
  rw [List.inj_on_of_nodup_map h.nodup ha hn hid, hliteral] at hfalse
  cases hfalse

theorem stage_of_forall_ne {id : Nat} (h : ∀ n ∈ f.labels, source n.id ≠ some id) :
    f.stage source second id [] = f := by
  refine cut_eq_self (fun n hn _ m hsource hm => ?_) fun _ _ => not_depends_nil
  rcases hm with rfl | hm
  · exact h n hn hsource
  · exact not_depends_nil hm

theorem stage_cons {id d : Nat} {ids : List Nat} (hids : ∀ k ∈ ids, source k = some id) (f : Forest Node) :
    (f.stage source second id ids).cut source second (Depends source [d]) (Depends source [d]) =
      f.stage source second id (d :: ids) := by
  rw [stage, cut_cut]
  · exact cut_congr (fun _ _ _ _ _ => or_assoc.trans (or_congr_right Depends.cons_iff.symm))
      fun _ _ => Depends.cons_iff.symm
  · intro n _ _ hU m hsource _
    cases hU with
    | start hk => exact Or.inl (Option.some.inj (hsource.symm.trans (hids _ hk)))
    | step hk hm =>
        rw [Option.some.inj (hsource.symm.trans hk)]
        exact Or.inr hm

theorem linked_stage (h : f.Linked source) (id : Nat) (ids : List Nat) :
    (f.stage source second id ids).Linked source :=
  h.cut fun _ _ hsource hm => .step hsource hm

theorem split_stage (h : f.Linked source) (hsplit : f.Families (Split second)) {id : Nat} {ids : List Nat}
    (hids : ∀ k ∈ ids, source k = some id) : (f.stage source second id ids).Families (Split second) := by
  refine split_cut hsplit (lone_prune h hsplit fun k hk => ?_)
  cases hk with
  | start hk => exact ⟨id, hids k hk, Or.inl rfl⟩
  | step hsource hm => exact ⟨_, hsource, Or.inr hm⟩

/-- With all that was developed from a node removed, the node itself is spliced out. -/
theorem splice_stage (h : f.Linked source) {id : Nat} {ids : List Nat} (hids : ∀ k ∈ ids, source k = some id)
    (hall : ∀ n ∈ f.labels, source n.id = some id → n.id ∈ ids) :
    (f.stage source second id ids).splice (·.id == id) =
      f.cut source second (Depends source [id]) (Depends source [id]) := by
  have hdepends : ∀ {k : Nat}, Depends source [id] k → (∃ n ∈ f.labels, n.id = k) → k = id ∨ Depends source ids k := by
    intro k hk
    induction hk with
    | start hk => exact fun _ => Or.inl (List.mem_singleton.1 hk)
    | step hsource _ ih =>
        rintro ⟨n, hn, rfl⟩
        obtain ⟨a, ha, rfl, _⟩ := h.exists_source hn hsource
        rcases ih ⟨a, ha, rfl⟩ with hid | hm
        · exact Or.inr (.start (hall n hn (hid ▸ hsource)))
        · exact Or.inr (.step hsource hm)
  have hback : ∀ {k : Nat}, k = id ∨ Depends source ids k → Depends source [id] k := by
    rintro k (rfl | hk)
    · exact .start List.mem_cons_self
    · exact hk.mono fun i hi => .step (hids i hi) (.start List.mem_cons_self)
  have hsplice : ∀ g : Forest Node, g.splice (·.id == id) =
      g.cut source second (fun _ => False) fun k => k = id := by
    intro g
    rw [cut, prune_of_forall_not fun n _ => secondOf_eq_false_iff.2 fun _ _ _ => not_false]
    refine splice_congr fun n _ => ?_
    rw [Bool.eq_iff_iff, among_iff, beq_iff_eq]
  rw [hsplice, stage, cut_cut fun _ _ _ _ _ _ hm => hm.elim]
  refine cut_congr (fun n hn _ m hsource => ?_) fun n hn => ?_
  · obtain ⟨a, ha, rfl, _⟩ := h.exists_source hn hsource
    rw [or_false]
    exact ⟨hback, fun hm => hdepends hm ⟨a, ha, rfl⟩⟩
  · rw [or_comm]
    exact ⟨hback, fun hk => hdepends hk ⟨n, hn, rfl⟩⟩

/-- What depends on a node that is not there is not there either. -/
theorem cut_of_not_mem (h : f.Linked source) {id : Nat} (hid : ∀ n ∈ f.labels, n.id ≠ id) :
    f.cut source second (Depends source [id]) (Depends source [id]) = f := by
  refine cut_eq_self (fun n hn _ m hsource hm => ?_) fun n hn hk => h.not_depends hid hk n hn rfl
  obtain ⟨a, ha, rfl, _⟩ := h.exists_source hn hsource
  exact h.not_depends hid hm a ha rfl

/-- How many nodes are at least as young as the one with the given number. -/
def youngerCount (id : Nat) (f : Forest Node) : Nat :=
  f.labels.countP fun n => id ≤ n.id

theorem youngerCount_pos {n : Node} (hn : n ∈ f.labels) : 0 < f.youngerCount n.id :=
  List.countP_pos_iff.2 ⟨n, hn, by simp⟩

theorem youngerCount_lt {f' : Forest Node} {d : Nat} (hshrinks : f.Shrinks f') {n : Node} (hn : n ∈ f.labels)
    (hlt : n.id < d) : f'.youngerCount d < f.youngerCount n.id := by
  have hle : f'.youngerCount d ≤ f.youngerCount d := hshrinks.labels.countP_le
  refine Nat.lt_of_le_of_lt hle ?_
  obtain ⟨pre, post, heq⟩ := List.append_of_mem hn
  have hmono : ∀ l : List Node, l.countP (fun m => d ≤ m.id) ≤ l.countP fun m => n.id ≤ m.id := by
    intro l
    refine List.countP_mono_left fun k _ hk => ?_
    rw [decide_eq_true_iff] at hk ⊢
    exact hlt.le.trans hk
  have hd : decide (d ≤ n.id) = false := decide_eq_false (Nat.not_le.2 hlt)
  have hpre := hmono pre
  have hpost := hmono post
  rw [youngerCount, youngerCount, heq, List.countP_append, List.countP_append, List.countP_cons, List.countP_cons, hd]
  simp only [le_refl, decide_true, if_true, Bool.false_eq_true, if_false]
  omega

/-- The nodes developed from the one to be removed are removed in turn, each from what the removal of the others has
left. -/
theorem foldl_exciseWithin (h : f.Linked source) (hsplit : f.Families (Split second)) {n : Node} (hn : n ∈ f.labels)
    {generations : Nat} (hg : f.youngerCount n.id ≤ generations + 1)
    (hexcise : ∀ {g : Forest Node} {d : Nat}, g.Linked source → g.Families (Split second) →
      g.youngerCount d ≤ generations →
      g.exciseWithin generations d = g.cut source second (Depends source [d]) (Depends source [d]))
    {deps ids : List Nat} (hlt : ∀ k ∈ deps, n.id < k) (hdeps : ∀ k ∈ deps, source k = some n.id)
    (hids : ∀ k ∈ ids, source k = some n.id) :
    deps.foldl (fun rest d => exciseWithin generations d rest) (f.stage source second n.id ids) =
      f.stage source second n.id (deps.reverse ++ ids) := by
  induction deps generalizing ids with
  | nil => rfl
  | cons d deps ih =>
      have hcount : (f.stage source second n.id ids).youngerCount d ≤ generations :=
        Nat.le_of_lt_succ ((youngerCount_lt (shrinks_cut _ _ _ _ f) hn (hlt d List.mem_cons_self)).trans_le hg)
      have hids' : ∀ k ∈ d :: ids, source k = some n.id := by
        intro k hk
        rcases List.mem_cons.1 hk with rfl | hk
        · exact hdeps k List.mem_cons_self
        · exact hids k hk
      rw [List.foldl_cons, hexcise (linked_stage h n.id ids) (split_stage h hsplit hids) hcount, stage_cons hids,
        ih (fun k hk => hlt k (List.mem_cons_of_mem _ hk)) (fun k hk => hdeps k (List.mem_cons_of_mem _ hk)) hids',
        List.reverse_cons, List.append_assoc]
      rfl

/-- The outcome of a removal: of each pair of siblings developed from the node or a dependent the second is pruned,
and then the node and its dependents are spliced out. -/
theorem exciseWithin_eq (h : f.Linked source) (hsplit : f.Families (Split second)) {generations id : Nat}
    (hg : f.youngerCount id ≤ generations) : f.exciseWithin generations id =
      f.cut source second (Depends source [id]) (Depends source [id]) := by
  induction generations generalizing id f with
  | zero =>
      refine (cut_of_not_mem h fun n hn hid => ?_).symm
      have hzero := List.countP_eq_zero.1 (Nat.le_zero.1 hg) n hn
      simp [hid] at hzero
  | succ generations ih =>
      rw [exciseWithin]
      cases hfind : f.find? (·.id == id) with
      | none => exact (cut_of_not_mem h (find?_eq_none_iff.1 hfind)).symm
      | some found =>
          obtain ⟨s, hs, rfl, rfl⟩ := exists_site_of_find? hfind
          have hn := mem_labels_of_mem_sites hs
          have hnil : ∀ k ∈ ([] : List Nat), source k = some s.tree.root.id := fun _ hk => by cases hk
          cases hliteral : s.tree.root.kind.isLiteral with
          | true =>
              have hnone := h.source_ne_of_literal hn hliteral
              simp only [hliteral, if_true]
              rw [← splice_stage h hnil fun n hn' hsource => absurd hsource (hnone n hn'), stage_of_forall_ne hnone]
          | false =>
              have hdeps : ∀ k ∈ s.tree.below.dependents s.tree.root.id, source k = some s.tree.root.id :=
                fun k hk => ((h.mem_dependents hs).1 hk).2
              have hlt : ∀ k ∈ s.tree.below.dependents s.tree.root.id, s.tree.root.id < k := by
                intro k hk
                obtain ⟨⟨n, hn', rfl⟩, hsource⟩ := (h.mem_dependents hs).1 hk
                obtain ⟨_, _, _, _, hlt⟩ := h.exists_source hn' hsource
                exact hlt
              simp only [hliteral, Bool.false_eq_true, if_false]
              rw [stage_nil h hsplit hs,
                foldl_exciseWithin h hsplit hn hg (fun hl hs hc => ih hl hs hc) hlt hdeps hnil]
              refine splice_stage h (fun k hk => ?_) fun n hn' hsource => ?_
              · rw [List.append_nil, List.mem_reverse] at hk
                exact hdeps k hk
              · rw [List.append_nil, List.mem_reverse]
                exact (h.mem_dependents hs).2 ⟨⟨n, hn', rfl⟩, hsource⟩

/-! Removals below a root that stays. -/

section Below

variable {root : Node} {generations : Nat}

theorem foldl_exciseWithin_cons
    (hexcise : ∀ {f : Forest Node} {k : Nat}, (∀ n ∈ f.labels, n.id ≠ root.id) → root.id ≠ k →
      (cons root f nil).exciseWithin generations k = cons root (f.exciseWithin generations k) nil)
    {ids : List Nat} (hids : ∀ k ∈ ids, root.id ≠ k) (hroot : ∀ n ∈ f.labels, n.id ≠ root.id) :
    ids.foldl (fun rest k => exciseWithin generations k rest) (cons root f nil) =
      cons root (ids.foldl (fun rest k => exciseWithin generations k rest) f) nil := by
  induction ids generalizing f with
  | nil => rfl
  | cons k ids ih =>
      rw [List.foldl_cons, List.foldl_cons, hexcise hroot (hids k List.mem_cons_self)]
      exact ih (fun i hi => hids i (List.mem_cons_of_mem _ hi))
        fun n hn => hroot n ((Shrinks.exciseWithin generations k f).labels.mem hn)

/-- A root that is not the node to be removed stays as it is. -/
theorem exciseWithin_cons (hroot : ∀ n ∈ f.labels, n.id ≠ root.id) {id : Nat} (hid : root.id ≠ id) :
    (cons root f nil).exciseWithin generations id = cons root (f.exciseWithin generations id) nil := by
  induction generations generalizing f id with
  | zero => rfl
  | succ generations ih =>
      have hfind : (cons root f nil).find? (·.id == id) = f.find? (·.id == id) := by
        rw [find?, if_neg (by simpa using hid)]
        cases f.find? (·.id == id) <;> rfl
      have hsplice : ∀ g : Forest Node, (cons root g nil).splice (·.id == id) =
          cons root (g.splice (·.id == id)) nil := by
        intro g
        rw [splice, if_neg (by simpa using hid)]
        rfl
      rw [exciseWithin, exciseWithin, hfind]
      cases hfound : f.find? (·.id == id) with
      | none => rfl
      | some found =>
          obtain ⟨s, hs, rfl, rfl⟩ := exists_site_of_find? hfound
          have hbelow : ∀ n ∈ s.tree.below.labels, n.id ≠ root.id := fun n hn =>
            hroot n ((labels_below_sublist_of_mem_sites hs).mem hn)
          have hdoomed : (s.tree.below.doomed s.tree.root.id s.tree.below.secondOfTwo).contains root.id = false := by
            rw [← Bool.not_eq_true, List.contains_iff_mem]
            intro hmem
            obtain ⟨n, hn, heq⟩ := exists_of_mem_doomed hmem
            exact hbelow n hn heq
          have hdeps : ∀ k ∈ s.tree.below.dependents s.tree.root.id, root.id ≠ k := by
            intro k hk heq
            obtain ⟨n, hn, rfl, _⟩ := mem_dependents.1 hk
            exact hbelow n hn heq.symm
          cases hliteral : s.tree.root.kind.isLiteral with
          | true => simp only [hliteral, if_true, hsplice]
          | false =>
              simp only [hliteral, Bool.false_eq_true, if_false]
              rw [prune, hdoomed, if_neg Bool.false_ne_true, prune,
                foldl_exciseWithin_cons (fun hr hk => ih hr hk) hdeps fun n hn => hroot n (mem_labels_prune hn).1,
                hsplice]

end Below

end Forest

end Tableaux
