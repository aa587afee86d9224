import Mathlib
import Tableaux.Proofs.Accounting
import Tableaux.Proofs.Undoing

/-!
Where the new nodes of a development go. Each open leaf under the developed node gets one copy of what its rule gives,
and the copies are numbered one after the other from left to right; every other node keeps its parent, its children
and what it says. What is checked and marked afterwards changes no place, and of the branches that are open or opened
by the rule as many are open in the end as have not been closed by then.
-/

namespace Tableaux

namespace Forest

variable {α β : Type}

theorem find?_map (g : α → β) (p : β → Bool) (f : Forest α) :
    (f.map g).find? p = (f.find? fun a => p (g a)).map fun found => (g found.1, found.2.map g) := by
  induction f with
  | nil => rfl
  | cons a below beside ihb ihs =>
      rw [map, find?, find?, ihb, ihs]
      cases p (g a) with
      | true => rfl
      | false => cases below.find? fun a => p (g a) <;> rfl

theorem trail?_map (g : α → β) (p : β → Bool) (above : List α) (f : Forest α) :
    (f.map g).trail? p (above.map g) = (f.trail? (fun a => p (g a)) above).map (List.map g) := by
  induction f generalizing above with
  | nil => rfl
  | cons a below beside ihb ihs =>
      have hbelow := ihb (a :: above)
      rw [List.map_cons] at hbelow
      rw [map, trail?, trail?, hbelow, ihs]
      cases p (g a) with
      | true => rfl
      | false => cases below.trail? (fun a => p (g a)) (a :: above) <;> rfl

theorem sites_append (above : List α) (f g : Forest α) :
    (f.append g).sites above = f.sites above ++ g.sites above := by
  induction f with
  | nil => rfl
  | cons a below beside _ ih => rw [append, sites, sites, ih, List.cons_append, List.append_assoc]

/-- Where only leaves are chosen, grafting keeps every place: what is above it stays, and below it is what is grafted
or what was there with something grafted into it. -/
theorem mem_sites_graft {p : α → Bool} {above : List α} {f : Forest α} (new : Forest α)
    (hleaf : ∀ s ∈ f.sites above, p s.tree.root = true → s.tree.below = nil) {s : Site α} (hs : s ∈ f.sites above) :
    ⟨⟨s.tree.root, if p s.tree.root then new else graft p new s.tree.below⟩, s.above⟩ ∈
      (graft p new f).sites above := by
  induction f generalizing above with
  | nil => cases hs
  | cons a below beside ihb ihs =>
      have hbelow := @ihb (a :: above) fun s hs => hleaf s (by simp [sites, hs])
      have hbeside := @ihs above fun s hs => hleaf s (by simp [sites, hs])
      rw [graft, sites]
      rcases List.mem_cons.1 hs with rfl | hs
      · cases hp : p a with
        | true =>
            have hnil : below = nil := hleaf ⟨⟨a, below⟩, above⟩ (by simp [sites]) hp
            simp [hnil, append]
        | false => simp
      · rcases List.mem_append.1 hs with hs | hs
        · have hp : p a = false := by
            rw [← Bool.not_eq_true]
            intro hp
            have hnil : below = nil := hleaf ⟨⟨a, below⟩, above⟩ (by simp [sites]) hp
            rw [hnil] at hs
            cases hs
          rw [hp]
          exact List.mem_cons_of_mem _ (List.mem_append_left _ (hbelow hs))
        · exact List.mem_cons_of_mem _ (List.mem_append_right _ (hbeside hs))

theorem Rel.leaves {R : α → β → Prop} {f : Forest α} {g : Forest β} (h : Rel R f g) :
    List.Forall₂ R f.leaves g.leaves := by
  induction h with
  | nil => exact .nil
  | cons hab hbelow _ ihb ihs =>
      rw [Forest.leaves, Forest.leaves, hbelow.isEmpty_eq]
      apply List.rel_append _ ihs
      split
      · exact .cons hab .nil
      · exact ihb

end Forest

namespace Tree

variable {α β : Type}

theorem find?_map (g : α → β) (p : β → Bool) (t : Tree α) :
    (t.map g).find? p = (t.find? fun a => p (g a)).map (map g) := by
  rw [find?, find?, toForest_map, Forest.find?_map, Option.map_map, Option.map_map]
  rfl

theorem trail_map (g : α → β) (p : β → Bool) (t : Tree α) :
    (t.map g).trail p = (t.trail fun a => p (g a)).map g := by
  have hmap := Forest.trail?_map g p [] t.toForest
  rw [List.map_nil] at hmap
  rw [trail, trail, toForest_map, hmap]
  cases t.toForest.trail? (fun a => p (g a)) [] <;> rfl

end Tree

namespace Expansion

/-- How many nodes a rule puts below one leaf. -/
def width (e : Expansion) : Nat :=
  e.chains.flatten.length

theorem size_toForest (origin id : Nat) (e : Expansion) : (e.toForest origin id).size = e.width := by
  rw [← Forest.length_labels, labels_toForest]
  cases e <;> simp [starts, width, chains, Node.length_ofChain]

theorem roots_ofChain {chain : List Signed} (hne : chain ≠ []) (origin id : Nat) :
    (Forest.ofChain origin id chain).roots.map Node.id = [id] := by
  cases chain with
  | nil => exact absurd rfl hne
  | cons s chain => rfl

/-- What is directly below a leaf afterwards is the first node of each chain. -/
theorem roots_toForest {e : Expansion} (hne : ∀ chain ∈ e.chains, chain ≠ []) (origin id : Nat) :
    (e.toForest origin id).roots.map Node.id = (e.starts id).map Prod.fst := by
  cases e with
  | linear chain => exact roots_ofChain (hne chain List.mem_cons_self) origin id
  | branching left right =>
      rw [toForest, Forest.roots_append, List.map_append, roots_ofChain (hne left List.mem_cons_self),
        roots_ofChain (hne right (List.mem_cons_of_mem _ List.mem_cons_self))]
      rfl

theorem sites_chain_subset {e : Expansion} {id : Nat} {p : Nat × List Signed} (hp : p ∈ e.starts id) (origin : Nat)
    (above : List Node) :
    ∀ s ∈ (Forest.ofChain origin p.1 p.2).sites above, s ∈ (e.toForest origin id).sites above := by
  intro s hs
  cases e with
  | linear chain =>
      rw [List.mem_singleton.1 hp] at hs
      exact hs
  | branching left right =>
      rw [toForest, Forest.sites_append, List.mem_append]
      rcases List.mem_pair.1 hp with rfl | rfl
      · exact Or.inl hs
      · exact Or.inr hs

end Expansion

/-- The rule of a node opens a branch beside each that it prolongs exactly if the node is of a branching kind. -/
theorem Signed.branchDelta_eq {s : Signed} {x : Option Term} {e : Expansion} (hfolded : s.fold = s)
    (h : s.expansion x = some e) : e.branchDelta = if s.kind.isBranching then 1 else 0 := by
  rcases s with ⟨f, value⟩
  cases f with
  | atom a => cases h
  | not f =>
      cases value with
      | true =>
          have hvalue := congrArg Signed.value hfolded
          cases hvalue
      | false =>
          cases h
          rfl
  | binary c l r =>
      cases h
      cases c <;> cases value <;> rfl
  | quantified q y body =>
      obtain ⟨_, _, rfl⟩ := Option.map_eq_some_iff.1 h
      rfl

/-- What a node is known by wherever it stands: its number, what it says, and which development made it. -/
def Node.core (n : Node) : Nat × Signed × Option Nat :=
  (n.id, n.signed, n.origin)

/-- The tableaux have nodes with the same numbers, formulas and origins in the same places. -/
structure Tableau.SamePlaces (t u : Tableau) : Prop where
  tree : u.tree.map Node.core = t.tree.map Node.core
  slots : u.slots = t.slots
  nodeCount : u.nodeCount = t.nodeCount

namespace Tableau.SamePlaces

variable {t u : Tableau}

theorem of_map {g : Node → Node} (hg : ∀ n, (g n).core = n.core) (htree : u.tree = t.tree.map g)
    (hslots : u.slots = t.slots) (hcount : u.nodeCount = t.nodeCount) : t.SamePlaces u where
  tree := by
    rw [htree]
    refine Tree.map_eq_of_rel (R := fun n m => m = g n) (Forest.Rel.of_map ?_ _) ?_
    · exact fun n => rfl
    · rintro n _ rfl
      exact hg n
  slots := hslots
  nodeCount := hcount

theorem of_closesTo (h : t.ClosesTo u) : t.SamePlaces u where
  tree := by
    refine Tree.map_eq_of_rel h.tree fun n m hnm => ?_
    rw [Node.core, Node.core, hnm.id, hnm.signed, hnm.origin]
  slots := h.slots
  nodeCount := h.nodeCount

variable (h : t.SamePlaces u)
include h

theorem subtree (id : Nat) : (u.subtree id).map (Tree.map Node.core) = (t.subtree id).map (Tree.map Node.core) := by
  have hfind : ∀ v : Tableau, (v.subtree id).map (Tree.map Node.core) = (v.tree.map Node.core).find? (·.1 == id) :=
    fun v => (Tree.find?_map Node.core (·.1 == id) v.tree).symm
  rw [hfind, hfind, h.tree]

theorem parent (id : Nat) : u.parent id = t.parent id := by
  have htrail : ∀ v : Tableau, v.parent id = ((v.tree.map Node.core).trail (·.1 == id))[1]?.map Prod.fst := by
    intro v
    rw [Tree.trail_map, List.getElem?_map, Option.map_map]
    rfl
  rw [htrail, htrail, h.tree]

theorem children (id : Nat) : u.children id = t.children id := by
  have hbelow : ∀ v : Tableau, v.children id =
      ((v.subtree id).map (Tree.map Node.core)).elim [] fun s => s.below.roots.map Prod.fst := by
    intro v
    rw [Tableau.children]
    cases v.subtree id with
    | none => rfl
    | some s =>
        rw [Option.map_some, Option.elim_some, Tree.map, Forest.roots_map, List.map_map]
        rfl
  rw [hbelow, hbelow, h.subtree]

theorem node {id : Nat} {n : Node} (hn : t.node id = .ok n) : ∃ m, u.node id = .ok m ∧ m.core = n.core := by
  have hsub := h.subtree id
  rw [Tableau.node] at hn ⊢
  cases ht : t.subtree id with
  | none =>
      rw [ht] at hn
      cases hn
  | some s =>
      rw [ht] at hn hsub
      obtain rfl := Except.ok.inj hn
      obtain ⟨r, hr, hcore⟩ := Option.map_eq_some_iff.1 hsub
      rw [hr]
      exact ⟨r.root, rfl, congrArg Tree.root hcore⟩

theorem symm : u.SamePlaces t :=
  ⟨h.tree.symm, h.slots.symm, h.nodeCount.symm⟩

theorem isLive (id : Nat) : u.isLive id = t.isLive id := by
  rw [Tableau.isLive, Tableau.isLive]
  cases ht : t.node id with
  | ok n =>
      obtain ⟨m, hm, _⟩ := h.node ht
      rw [hm]
      rfl
  | error _ =>
      cases hu : u.node id with
      | ok m =>
          obtain ⟨n, hn, _⟩ := h.symm.node hu
          rw [ht] at hn
          cases hn
      | error _ => rfl

end Tableau.SamePlaces

/-- The chain hangs below the node `above` as a path of nodes developed from `origin` and numbered from `id` on, and
nothing else hangs below these nodes. -/
def Tableau.Hangs (t : Tableau) (origin : Nat) : (above id : Nat) → List Signed → Prop
  | _, _, [] => True
  | above, id, s :: chain =>
      t.parent id = some above ∧ t.children id = (if chain.isEmpty then [] else [id + 1]) ∧
        (∃ n, t.node id = .ok n ∧ n.core = (id, s.fold, some origin)) ∧ t.Hangs origin id (id + 1) chain

/-- What becomes of a tableau when the result of the rule of the node `origin` is put below each of the given leaves,
in their order. -/
structure Planted (origin : Nat) (e : Expansion) (leaves : List Nat) (t t' : Tableau) : Prop where
  slots : t'.slots = t.slots + leaves.length * e.width
  nodeCount : t'.nodeCount = t.nodeCount + leaves.length * e.width
  /-- The new nodes take the next numbers, and no others are made. -/
  live : ∀ i, t'.isLive i = true ↔ t.isLive i = true ∨ t.slots ≤ i ∧ i < t'.slots
  parent : ∀ i, i < t.slots → t'.parent i = t.parent i
  children : ∀ i, i < t.slots → i ∉ leaves → t'.children i = t.children i
  node : ∀ i n, t.node i = .ok n → ∃ m, t'.node i = .ok m ∧ m.core = n.core
  /-- Each leaf gets every chain once, from left to right, with the numbers that come next after the leaves before. -/
  below : ∀ k l, leaves[k]? = some l → t.children l = [] ∧
    t'.children l = (e.starts (t.slots + k * e.width)).map Prod.fst ∧
    ∀ p ∈ e.starts (t.slots + k * e.width), t'.Hangs origin l p.1 p.2

namespace Tableau

variable {t u : Tableau} {origin : Nat} {e : Expansion} {leaf : Node} {up : List Node} {leaves : List Nat}

/-- A chain still hangs where it did if its nodes are where they were. -/
theorem Hangs.of_agree {chain : List Signed} {above id : Nat} (h : t.Hangs origin above id chain)
    (hagree : ∀ i, id ≤ i → i < id + chain.length → u.parent i = t.parent i ∧ u.children i = t.children i ∧
      ∀ n, t.node i = .ok n → ∃ m, u.node i = .ok m ∧ m.core = n.core) : u.Hangs origin above id chain := by
  induction chain generalizing above id with
  | nil => trivial
  | cons s chain ih =>
      obtain ⟨hparent, hchildren, ⟨n, hn, hcore⟩, hrest⟩ := h
      obtain ⟨hparent', hchildren', hnode⟩ := hagree id (Nat.le_refl id) (by simp)
      obtain ⟨m, hm, hmn⟩ := hnode n hn
      refine ⟨hparent'.trans hparent, hchildren'.trans hchildren, ⟨m, hm, hmn.trans hcore⟩, ih hrest ?_⟩
      intro i hle hlt
      apply hagree i (by omega)
      rw [List.length_cons]
      omega

/-- A chain hangs where its sites are sites of the tree. -/
theorem hangs_of_sites (h : t.tree.Numbered) {chain : List Signed} {id : Nat} {a : Node} {rest : List Node}
    (hsites : ∀ s ∈ (Forest.ofChain origin id chain).sites (a :: rest), s ∈ t.tree.sites) :
    t.Hangs origin a.id id chain := by
  induction chain generalizing id a rest with
  | nil => trivial
  | cons s chain ih =>
      have hhead := hsites _ List.mem_cons_self
      have hrest : t.Hangs origin (Node.ofSigned id s (some origin)).id (id + 1) chain :=
        ih fun r hr => hsites r (List.mem_cons_of_mem _ (List.mem_append_left _ hr))
      refine ⟨parent_site h hhead, (children_site h hhead).trans ?_,
        ⟨_, node_of_mem h (Forest.mem_labels_of_mem_sites hhead), rfl⟩, hrest⟩
      cases chain <;> rfl

section Extend

variable (h : Indexed t) (hne : ∀ chain ∈ e.chains, chain ≠ []) (hleaf : leaf :: up ∈ t.tree.branches)
include h hne hleaf

theorem isLive_extend (origin i : Nat) : (t.extend origin e leaf.id).isLive i = true ↔
    t.isLive i = true ∨ t.slots ≤ i ∧ i < (t.extend origin e leaf.id).slots := by
  have hindexed : Indexed (t.extend origin e leaf.id) := indexed_extend h hne hleaf
  have hnumbered := hindexed.numbered
  have hnew := e.numberedFrom_toForest origin t.slots
  rw [isLive_iff hnumbered, isLive_iff h.numbered]
  constructor
  · rintro ⟨n, hn, rfl⟩
    rcases (mem_labels_attach h.numbered hleaf).1 hn with hn | hn
    · exact Or.inl ⟨n, hn, rfl⟩
    · exact Or.inr (hnew.id_bounds hn)
  · rintro (⟨n, hn, rfl⟩ | hi)
    · exact ⟨n, (mem_labels_attach h.numbered hleaf).2 (Or.inl hn), rfl⟩
    · have hmem : i ∈ (e.toForest origin t.slots).labels.map Node.id := by
        rw [hnew, List.mem_range'_1]
        exact hi
      obtain ⟨n, hn, rfl⟩ := List.mem_map.1 hmem
      exact ⟨n, (mem_labels_attach h.numbered hleaf).2 (Or.inr hn), rfl⟩

/-- One leaf: the chains hang below it, and all else is where it was. -/
theorem planted_extend (origin : Nat) : Planted origin e [leaf.id] t (t.extend origin e leaf.id) := by
  have hindexed : Indexed (t.extend origin e leaf.id) := indexed_extend h hne hleaf
  have hnumbered := hindexed.numbered
  have hlive := isLive_extend h hne hleaf origin
  -- every place of the tree is a place of the new one, with the same nodes above
  have hsites : ∀ s ∈ t.tree.sites, ⟨⟨s.tree.root, if s.tree.root.id == leaf.id then e.toForest origin t.slots else
      Forest.graft (·.id == leaf.id) (e.toForest origin t.slots) s.tree.below⟩, s.above⟩ ∈
        (t.extend origin e leaf.id).tree.sites :=
    fun s hs => Forest.mem_sites_graft (p := (·.id == leaf.id)) _ (h.numbered.leaf_chosen_below hleaf) hs
  have hgone : ∀ i, i < t.slots → t.isLive i = false → (t.extend origin e leaf.id).isLive i = false := by
    intro i hi hdead
    rw [← Bool.not_eq_true, hlive, hdead]
    rintro (hfalse | hle)
    · cases hfalse
    · omega
  constructor
  case slots =>
    rw [extend, attach, Expansion.size_toForest, List.length_singleton, Nat.one_mul]
  case nodeCount =>
    rw [extend, attach, Expansion.size_toForest, List.length_singleton, Nat.one_mul]
  case live => exact hlive
  case parent =>
    intro i hi
    cases hlivei : t.isLive i with
    | false => rw [(forgotten h.numbered hlivei).1, (forgotten hnumbered (hgone i hi hlivei)).1]
    | true =>
        obtain ⟨s, hs, rfl⟩ := exists_site_of_isLive h.numbered hlivei
        have hparent := parent_site hnumbered (hsites s hs)
        rw [parent_site h.numbered hs]
        exact hparent
  case children =>
    intro i hi hnotin
    cases hlivei : t.isLive i with
    | false => rw [(forgotten h.numbered hlivei).2, (forgotten hnumbered (hgone i hi hlivei)).2]
    | true =>
        obtain ⟨s, hs, rfl⟩ := exists_site_of_isLive h.numbered hlivei
        rw [children_site h.numbered hs]
        refine (children_site hnumbered (hsites s hs)).trans ?_
        rw [if_neg (by simpa using hnotin), Forest.roots_graft]
  case node =>
    intro i n hnode
    obtain ⟨hn, rfl⟩ := node_eq_ok hnode
    exact ⟨n, node_of_mem hnumbered ((mem_labels_attach h.numbered hleaf).2 (Or.inl hn)), rfl⟩
  case below =>
    intro k l hk
    obtain ⟨rfl, rfl⟩ : k = 0 ∧ leaf.id = l := by
      cases k with
      | zero => exact ⟨rfl, Option.some.inj hk⟩
      | succ k => cases hk
    rw [Nat.zero_mul, Nat.add_zero]
    obtain ⟨s, hs, rfl, rfl, _⟩ := Tree.exists_site_of_leaf hleaf
    have hsite := hsites s hs
    rw [beq_self_eq_true, if_pos rfl] at hsite
    refine ⟨?_, (children_site hnumbered hsite).trans (Expansion.roots_toForest hne origin t.slots), ?_⟩
    · rw [children_site h.numbered hs, h.numbered.below_eq_nil_of_leaf hleaf hs rfl]
      rfl
    · intro p hp
      exact hangs_of_sites hnumbered fun r hr =>
        Forest.sites_below_subset hsite r (Expansion.sites_chain_subset hp origin _ r hr)

/-- One more leaf: it gets its chains first. -/
theorem planted_cons (hnotin : leaf.id ∉ leaves) (hlt : ∀ l ∈ leaves, l < t.slots)
    (hrest : Planted origin e leaves (t.extend origin e leaf.id) u) : Planted origin e (leaf.id :: leaves) t u := by
  have hone := planted_extend h hne hleaf origin
  have hslots : (t.extend origin e leaf.id).slots = t.slots + e.width := by
    rw [hone.slots, List.length_singleton, Nat.one_mul]
  have hlength : (leaf.id :: leaves).length * e.width = e.width + leaves.length * e.width := by
    rw [List.length_cons, Nat.succ_mul, Nat.add_comm]
  have hid : leaf.id < t.slots := h.id_lt leaf (Tree.mem_labels_of_mem_branch hleaf List.mem_cons_self)
  constructor
  case slots => rw [hrest.slots, hslots, hlength, Nat.add_assoc]
  case nodeCount => rw [hrest.nodeCount, hone.nodeCount, List.length_singleton, Nat.one_mul, hlength, Nat.add_assoc]
  case live =>
    intro i
    rw [hrest.live, hone.live, hrest.slots, hslots, or_assoc]
    exact or_congr_right (by omega)
  case parent =>
    intro i hi
    rw [hrest.parent i (by omega), hone.parent i hi]
  case children =>
    intro i hi hni
    rw [List.mem_cons, not_or] at hni
    rw [hrest.children i (by omega) hni.2, hone.children i hi (by simpa using hni.1)]
  case node =>
    intro i n hn
    obtain ⟨m, hm, hcore⟩ := hone.node i n hn
    obtain ⟨m', hm', hcore'⟩ := hrest.node i m hm
    exact ⟨m', hm', hcore'.trans hcore⟩
  case below =>
    intro k l hk
    cases k with
    | zero =>
        obtain rfl := Option.some.inj hk
        obtain ⟨hbare, hchildren, hhangs⟩ := hone.below 0 leaf.id rfl
        refine ⟨hbare, (hrest.children _ (by omega) hnotin).trans hchildren, fun p hp => ?_⟩
        have hbounds := Expansion.start_bounds hp
        rw [Nat.zero_mul, Nat.add_zero] at hbounds
        -- the nodes of the first copy are not among the leaves that come later
        refine (hhangs p hp).of_agree fun i hle hi => ?_
        have hi : i < (t.extend origin e leaf.id).slots := by
          rw [hslots, Expansion.width]
          omega
        have hni : i ∉ leaves := fun hmem => by
          have := hlt i hmem
          omega
        exact ⟨hrest.parent i hi, hrest.children i hi hni, hrest.node i⟩
    | succ k =>
        have hk : leaves[k]? = some l := hk
        have hmem : l ∈ leaves := List.mem_of_getElem? hk
        obtain ⟨hbare, hbelow⟩ := hrest.below k l hk
        have hnext : (t.extend origin e leaf.id).slots + k * e.width = t.slots + (k + 1) * e.width := by
          rw [hslots, Nat.succ_mul]
          omega
        rw [hnext] at hbelow
        refine ⟨?_, hbelow⟩
        rw [← hone.children l (hlt l hmem) (by rw [List.mem_singleton]; rintro rfl; exact hnotin hmem)]
        exact hbare

end Extend

/-- Several leaves: each gets its chains, in the order of the leaves. -/
theorem planted_grow (origin : Nat) (h : Indexed t) (hne : ∀ chain ∈ e.chains, chain ≠ []) (hnodup : leaves.Nodup)
    (hopen : OpenLeaves t leaves) : Planted origin e leaves t (t.grow origin e leaves) := by
  induction leaves generalizing t with
  | nil =>
      refine ⟨by simp [grow], by simp [grow], fun i => ?_, fun i _ => rfl, fun i _ _ => rfl, fun i n hn => ⟨n, hn, rfl⟩,
        fun k l hk => by simp at hk⟩
      rw [grow, List.foldl_nil, or_iff_left (by omega)]
  | cons l leaves ih =>
      obtain ⟨leaf, up, hleaf, rfl, _⟩ := hopen l List.mem_cons_self
      obtain ⟨hnotin, hnodup⟩ := List.nodup_cons.1 hnodup
      have hrest : OpenLeaves t leaves := fun l hl => hopen l (List.mem_cons_of_mem _ hl)
      exact planted_cons h hne hleaf hnotin (id_lt_of_openLeaves h hrest)
        (ih (indexed_extend h hne hleaf) hnodup (openLeaves_extend h hne hleaf hnotin hrest))

end Tableau

/-- What is put where does not depend on marks, ticks and instances. -/
theorem Planted.of_same {origin : Nat} {e : Expansion} {leaves : List Nat} {t t' u u' : Tableau}
    (h : Planted origin e leaves t t') (ht : u.SamePlaces t) (ht' : t'.SamePlaces u') :
    Planted origin e leaves u u' where
  slots := by rw [ht'.slots, h.slots, ht.slots]
  nodeCount := by rw [ht'.nodeCount, h.nodeCount, ht.nodeCount]
  live i := by rw [ht'.isLive, h.live, ht.isLive, ht'.slots, ht.slots]
  parent i hi := by rw [ht'.parent, h.parent i (ht.slots ▸ hi), ht.parent]
  children i hi hni := by rw [ht'.children, h.children i (ht.slots ▸ hi) hni, ht.children]
  node i n hn := by
    obtain ⟨m, hm, hmn⟩ := ht.node hn
    obtain ⟨k, hk, hkm⟩ := h.node i m hm
    obtain ⟨j, hj, hjk⟩ := ht'.node hk
    exact ⟨j, hj, hjk.trans (hkm.trans hmn)⟩
  below k l hk := by
    obtain ⟨hbare, hchildren, hhangs⟩ := h.below k l hk
    rw [ht.slots] at hchildren hhangs
    refine ⟨(ht.children l).symm.trans hbare, (ht'.children l).trans hchildren, fun p hp => ?_⟩
    exact (hhangs p hp).of_agree fun i _ _ => ⟨ht'.parent i, ht'.children i, fun n hn => ht'.node hn⟩

/-- Of the leaves that were open before, each is open afterwards or has been closed in between. -/
theorem length_open_add_closed (was : Nat → Bool) {l l' : List Node} (h : List.Forall₂ Node.MarkedTo l l')
    (hl : ∀ n ∈ l, n.closed = n.branchClosed ∧ was n.id = n.closed) (hl' : ∀ n ∈ l', n.closed = n.branchClosed) :
    (l'.filter fun n => !n.branchClosed).length + (l'.filter fun n => n.closed && !was n.id).length =
      (l.filter fun n => !n.branchClosed).length := by
  induction h with
  | nil => rfl
  | @cons n m l l' hnm _ ih =>
      obtain ⟨hn, hwas⟩ := hl n List.mem_cons_self
      have hm := hl' m List.mem_cons_self
      have hrest := ih (fun k hk => hl k (List.mem_cons_of_mem _ hk)) fun k hk => hl' k (List.mem_cons_of_mem _ hk)
      have hwas : was m.id = n.branchClosed := by rw [hnm.id, hwas, hn]
      simp only [List.filter_cons, hm, hwas]
      cases hbefore : n.branchClosed with
      | true =>
          simp only [hnm.branchClosed hbefore, Bool.not_true, Bool.and_false, Bool.false_eq_true, if_false]
          exact hrest
      | false =>
          cases m.branchClosed <;>
            simp only [Bool.not_true, Bool.not_false, Bool.and_true, Bool.false_eq_true, if_true, if_false,
              List.length_cons] <;>
            omega

namespace Tableau

variable {t t' : Tableau} {n : Node} {x : Option Term} {e : Expansion}

/-- Whether the node with the given number is marked as a leaf that ends a closed branch. -/
def endsClosed (t : Tableau) (id : Nat) : Bool :=
  t.tree.labels.any fun n => n.id == id && n.closed

/-- The leaves that are closed in the second tableau and were not in the first. -/
def newlyClosed (t t' : Tableau) : List Node :=
  t'.tree.leaves.filter fun leaf => leaf.closed && !t.endsClosed leaf.id

theorem endsClosed_eq (h : t.tree.Numbered) (hn : n ∈ t.tree.labels) : t.endsClosed n.id = n.closed := by
  rw [Bool.eq_iff_iff, endsClosed, List.any_eq_true]
  constructor
  · rintro ⟨m, hm, hclosed⟩
    rw [Bool.and_eq_true, beq_iff_eq] at hclosed
    rw [← h.eq_of_id_eq hm hn hclosed.1]
    exact hclosed.2
  · intro hclosed
    exact ⟨n, hn, by rw [beq_self_eq_true, hclosed, Bool.and_self]⟩

theorem endsClosed_of_le (h : Indexed t) {id : Nat} (hid : t.slots ≤ id) : t.endsClosed id = false := by
  rw [endsClosed, List.any_eq_false]
  intro m hm hclosed
  rw [Bool.and_eq_true, beq_iff_eq] at hclosed
  have hlt := h.id_lt m hm
  omega

/-- The leaves that a rule has left or made are closed where they were closed before. -/
theorem endsClosed_applied (h : Indexed t) (hne : ∀ chain ∈ e.chains, chain ≠ []) {leaves : List Nat}
    (happlied : Applied n x e leaves t t') {leaf : Node} (hleaf : leaf ∈ t'.tree.leaves) :
    t.endsClosed leaf.id = leaf.closed := by
  have htouch := sameRecord_touch n.id x !n.kind.isReusable
  obtain ⟨up, hb'⟩ := Tree.mem_leaves_iff.1 hleaf
  obtain ⟨b, hb, ⟨_, heq⟩ | ⟨_, chain, hchain, start, hle, heq⟩⟩ := happlied.source _ hb'
  · obtain ⟨l, above, rfl⟩ := Tree.exists_cons_of_mem_branches hb
    obtain ⟨rfl, _⟩ := List.cons.inj heq
    rw [(sameJudgement_touch n.id x _).id, htouch.closed]
    exact endsClosed_eq h.numbered (Tree.mem_labels_of_mem_branch hb List.mem_cons_self)
  · have hnew : leaf ∈ Node.ofChain n.id start chain := by
      obtain ⟨m, new, hrev⟩ :=
        List.exists_cons_of_ne_nil (Node.reverse_ofChain_ne_nil (hne chain hchain) n.id start)
      rw [hrev] at heq
      rw [(List.cons.inj heq).1, ← List.mem_reverse, hrev]
      exact List.mem_cons_self
    rw [endsClosed_of_le h (hle.trans (Node.id_bounds_of_mem_ofChain hnew).1)]
    obtain ⟨s, _, hs⟩ := Node.exists_of_mem_ofChain hnew
    rw [hs]
    rfl

theorem openBranches_applied (t : Tableau) (n : Node) (x : Option Term) {e : Expansion} (leaves : List Nat)
    (hdelta : n.kind.isReusable = true → e.branchDelta = 0) :
    (t.applied n x e leaves).openBranches = t.openBranches + e.branchDelta * leaves.length := by
  have hgrow : ((t.enterTerm n.id x).grow n.id e leaves).openBranches = t.openBranches :=
    (grow_frame _ n.id e leaves).2.2.trans (openBranches_enterTerm t n.id x)
  rw [applied]
  split
  · rename_i hkind
    rw [hgrow, hdelta hkind, Nat.zero_mul, Nat.add_zero]
  · rw [tick, hgrow]

/-- What a rule has opened is open after the branches have been checked, or has been closed by the check. -/
theorem openBranches_add_newlyClosed {t₁ t₂ : Tableau} {leaves : List Nat} (h : Indexed t)
    (hne : ∀ chain ∈ e.chains, chain ≠ []) (happlied : Applied n x e leaves t t₁) (hc₁ : Coherent t₁)
    (hr₁ : Recorded t₁) (hcloses : t₁.ClosesTo t₂) (hc₂ : Coherent t₂) (hr₂ : Recorded t₂) :
    t₂.openBranches + (t.newlyClosed t₂).length = t₁.openBranches := by
  have hleaf : ∀ {u : Tableau}, Recorded u → ∀ leaf ∈ u.tree.leaves, leaf.closed = leaf.branchClosed := by
    intro u hu leaf hmem
    obtain ⟨up, hb⟩ := Tree.mem_leaves_iff.1 hmem
    exact hu.leaf leaf up hb
  rw [hc₁.openBranches_eq, hc₂.openBranches_eq]
  exact length_open_add_closed t.endsClosed hcloses.tree.leaves
    (fun leaf hmem => ⟨hleaf hr₁ leaf hmem, endsClosed_applied h hne happlied hmem⟩) (hleaf hr₂)

/-- A node that was there is found again, with what the rule did to it and perhaps with marks of closing. -/
theorem exists_touched {t₁ t₂ : Tableau} {leaves : List Nat} (happlied : Applied n x e leaves t t₁)
    (hcloses : t₁.ClosesTo t₂) (h₂ : t₂.tree.Numbered) {i : Nat} {m : Node} (hm : t.node i = .ok m) :
    ∃ m', t₂.node i = .ok m' ∧ (touch n.id x (!n.kind.isReusable) m).MarkedTo m' := by
  obtain ⟨hmem, rfl⟩ := node_eq_ok hm
  obtain ⟨m', hm', hmarked⟩ := hcloses.exists_marked (happlied.mem_labels hmem)
  refine ⟨m', ?_, hmarked⟩
  have hnode' := node_of_mem h₂ hm'
  rwa [hmarked.id, (sameJudgement_touch _ _ _).id] at hnode'

/-- Entering a term and ticking leave everything in its place. -/
theorem planted_applied (h : Valid t) (hne : ∀ chain ∈ e.chains, chain ≠ []) (id : Nat) :
    Planted n.id e (t.openLeavesBelow id) t (t.applied n x e (t.openLeavesBelow id)) := by
  have hopen := openLeaves_enterTerm (openLeaves_openLeavesBelow h.toCoherent id) n.id x
  have hgrown := planted_grow n.id (indexed_enterTerm h.toIndexed n.id x) hne
    (nodup_openLeavesBelow h.numbered id) hopen
  have hcore : ∀ y done m, (touch n.id y done m).core = m.core := by
    intro y done m
    rw [touch]
    split <;> rfl
  refine hgrown.of_same (.of_map (hcore x false) (tree_enterTerm t n.id x) (slots_enterTerm t n.id x) ?_)
    (.of_map (hcore none _) (tree_applied t n x e _) (applied_frame t n x e _).2.2 ?_)
  · cases x <;> rfl
  · rw [applied]
    split <;> rfl

end Tableau

/-- The exact effect of the development of the node `n`, with the term `x` if it is quantified, where `e` is what its
rule gives and `leaves` are the open leaves under it. -/
structure Unfolds (t t' : Tableau) (n : Node) (x : Option Term) (e : Expansion) (leaves : List Nat) : Prop where
  openLeaves : t.openLeaves n.id = .ok leaves
  rule : n.signed.expansion x = some e
  planted : Planted n.id e leaves t t'
  unticked : n.ticked = false
  /-- The developed node has been ticked if it is not reusable, and has been instantiated with the one term. -/
  developed : ∀ m, t'.node n.id = .ok m →
    m.ticked = !n.kind.isReusable ∧ m.instances = x.elim n.instances (Term.enter n.instances)
  /-- Other nodes only get marks of closing. -/
  others : ∀ i m, i ≠ n.id → t.node i = .ok m → ∃ m', t'.node i = .ok m' ∧ m.MarkedTo m'
  reusable : ∀ i m, t'.node i = .ok m → m.kind.isReusable = true → m.ticked = false
  terms : t'.terms = x.elim t.terms (Term.enter t.terms)
  openBranches : t'.openBranches + (t.newlyClosed t').length =
    t.openBranches + if n.kind.isBranching then leaves.length else 0

namespace Tableau

variable {t : Tableau} {n : Node}

theorem unfolds_develop (h : Valid t) (hr : Recorded t) {id : Nat} {term : Option Term}
    (hok : (t.develop id term).1 = .ok true) :
    ∃ n e leaves, t.node id = .ok n ∧ Unfolds t (t.develop id term).2 n (t.given n term) e leaves := by
  have hrecorded := recorded_develop h hr id term
  rcases develop_cases h id term with ⟨_, _, heq⟩ | ⟨_, _, _, heq⟩ | ⟨n, _, _, hnode, hticked, hclosed, _⟩
  · rw [heq] at hok
    cases hok
  · rw [heq] at hok
    cases hok
  · obtain ⟨hn, rfl⟩ := node_eq_ok hnode
    obtain ⟨e, he, happlied, hvalid⟩ := applied_waiting h hn hticked hclosed term
    have hne := Signed.chain_ne_nil he
    have hcloses := closesTo_closeBranches (t.applied n (t.given n term) e (t.openLeavesBelow n.id)) n.id
    have hvalid' := valid_closeBranches hvalid n.id
    rw [develop_eq h hnode hticked hclosed he] at hrecorded ⊢
    refine ⟨n, e, t.openLeavesBelow n.id, hnode, ?_⟩
    constructor
    case openLeaves => rw [openLeaves, hnode]; rfl
    case rule => exact he
    case planted => exact (planted_applied h hne n.id).of_same (.of_closesTo (.refl t)) (.of_closesTo hcloses)
    case unticked => exact hticked
    case developed =>
      intro m hm
      obtain ⟨m', hm', hmarked⟩ := exists_touched happlied hcloses hvalid'.numbered hnode
      obtain rfl := Except.ok.inj (hm.symm.trans hm')
      rw [hmarked.ticked, hmarked.instances, touch, if_pos rfl, hticked]
      exact ⟨rfl, rfl⟩
    case others =>
      intro i m hi hm
      obtain ⟨m', hm', hmarked⟩ := exists_touched happlied hcloses hvalid'.numbered hm
      rw [touch_of_ne ((node_eq_ok hm).2.trans_ne hi)] at hmarked
      exact ⟨m', hm', hmarked⟩
    case reusable =>
      intro i m hm
      exact (hvalid'.settled m (node_eq_ok hm).1).reusable
    case terms => exact hcloses.terms.trans happlied.terms
    case openBranches =>
      have hrecorded₁ := hr.prolongs (prolongs_applied h.toCoherent hne happlied)
      rw [openBranches_add_newlyClosed h.toIndexed hne happlied hvalid.toCoherent hrecorded₁ hcloses
        hvalid'.toCoherent hrecorded, openBranches_applied _ _ _ _ fun hkind => branchDelta_of_reusable hkind he,
        Signed.branchDelta_eq (h.settled n hn).folded he, ite_mul, Nat.one_mul, Nat.zero_mul]
      rfl

/-- The exact effect of every development in a session that has something to do. -/
theorem run_develop_effect (o : Options) (s : Signed) (steps : List Step) (id : Nat) (term : Option Term)
    (hok : (((start o s).run steps).develop id term).1 = .ok true) :
    ∃ n e leaves, ((start o s).run steps).node id = .ok n ∧
      Unfolds ((start o s).run steps) (((start o s).run steps).develop id term).2 n
        (((start o s).run steps).given n term) e leaves :=
  unfolds_develop (valid_run o s steps) (recorded_run o s steps) hok

/-- Besides `A` or `B`, the premises `C` or `D`, `C` or `A`, and not `A`; the first two disjunctions are developed, so
that the side of `A` is closed and the side of `B` split in two. -/
def trifurcation : List Step :=
  [.assume ⟨.binary .disjunction (letter "C") (letter "D"), true⟩,
    .assume ⟨.binary .disjunction (letter "C") (letter "A"), true⟩, .assume ⟨letter "A", false⟩, .develop 0 none,
    .develop 1 none]

/-- The third disjunction goes below the two open leaves of three, where its `A` is closed at once. -/
theorem run_develop_effect_witness :
    (((start {} eitherLetter).run trifurcation).develop 2 none).1 = .ok true ∧
    ((start {} eitherLetter).run trifurcation).allLeaves 2 = .ok [4, 6, 7] ∧
    (((start {} eitherLetter).run trifurcation).develop 2 none).2.allLeaves 2 = .ok [4, 8, 9, 10, 11] ∧
    (((start {} eitherLetter).run trifurcation).develop 2 none).2.openBranches = 2 ∧
    ∃ n e leaves, ((start {} eitherLetter).run trifurcation).node 2 = .ok n ∧
      Unfolds ((start {} eitherLetter).run trifurcation) (((start {} eitherLetter).run trifurcation).develop 2 none).2
        n (((start {} eitherLetter).run trifurcation).given n none) e leaves := by
  have hok : (((start {} eitherLetter).run trifurcation).develop 2 none).1 = .ok true := by decide +kernel
  exact ⟨hok, by decide +kernel, by decide +kernel, by decide +kernel,
    run_develop_effect {} eitherLetter trifurcation 2 none hok⟩

end Tableau

end Tableaux
