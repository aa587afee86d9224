import Mathlib
import Tableaux.Proofs.Numbering
import Tableaux.Tableau.Development

/-!
Growth of a tableau. The result of a rule hangs below a leaf as one path per chain, so that it prolongs the branch
that ends at the leaf once for every chain and leaves all other branches as they are. Put below several leaves it
does this at each of them. Numbers stay different, below `slots`, and smaller toward the root.
-/

namespace Tableaux

/-- The nodes of a chain developed from `origin`, numbered from `id` on. -/
def Node.ofChain (origin id : Nat) : List Signed → List Node
  | [] => []
  | s :: chain => .ofSigned id s (some origin) :: ofChain origin (id + 1) chain

namespace Node

theorem length_ofChain (origin id : Nat) (chain : List Signed) : (ofChain origin id chain).length = chain.length := by
  induction chain generalizing id with
  | nil => rfl
  | cons s chain ih => rw [ofChain, List.length_cons, List.length_cons, ih]

theorem reverse_ofChain_ne_nil {chain : List Signed} (hne : chain ≠ []) (origin id : Nat) :
    (ofChain origin id chain).reverse ≠ [] := by
  rw [Ne, List.reverse_eq_nil_iff, ← List.length_eq_zero_iff, length_ofChain, List.length_eq_zero_iff]
  exact hne

theorem ids_ofChain (origin id : Nat) (chain : List Signed) :
    (ofChain origin id chain).map Node.id = List.range' id chain.length := by
  induction chain generalizing id with
  | nil => rfl
  | cons s chain ih => rw [ofChain, List.map_cons, ih, List.length_cons, List.range'_succ]; rfl

theorem exists_of_mem_ofChain {origin id : Nat} {chain : List Signed} {n : Node} (hn : n ∈ ofChain origin id chain) :
    ∃ s ∈ chain, n = .ofSigned n.id s (some origin) := by
  induction chain generalizing id with
  | nil => cases hn
  | cons s chain ih =>
      rcases List.mem_cons.1 hn with rfl | hn
      · exact ⟨s, List.mem_cons_self, rfl⟩
      · obtain ⟨r, hr, heq⟩ := ih hn
        exact ⟨r, List.mem_cons_of_mem _ hr, heq⟩

theorem exists_mem_ofChain {chain : List Signed} {s : Signed} (hs : s ∈ chain) (origin id : Nat) :
    ∃ n ∈ ofChain origin id chain, n.signed = s.fold := by
  induction chain generalizing id with
  | nil => cases hs
  | cons r chain ih =>
      rcases List.mem_cons.1 hs with rfl | hs
      · exact ⟨_, List.mem_cons_self, rfl⟩
      · obtain ⟨n, hn, heq⟩ := ih hs (id + 1)
        exact ⟨n, List.mem_cons_of_mem _ hn, heq⟩

theorem id_bounds_of_mem_ofChain {origin id : Nat} {chain : List Signed} {n : Node}
    (hn : n ∈ ofChain origin id chain) : id ≤ n.id ∧ n.id < id + chain.length := by
  have hid := List.mem_map_of_mem hn (f := Node.id)
  rw [ids_ofChain, List.mem_range'_1] at hid
  exact hid

end Node

namespace Forest

/-- The nodes are numbered from `id` on in the order of a depth-first walk. -/
def NumberedFrom (id : Nat) (new : Forest Node) : Prop :=
  new.labels.map Node.id = List.range' id new.size

theorem reverse_sublist_labels {α : Type} {f : Forest α} {b : List α} (hb : b ∈ f.branches []) :
    b.reverse.Sublist f.labels := by
  induction f generalizing b with
  | nil => cases hb
  | cons a below beside ihb ihs =>
      rw [labels]
      rcases List.mem_append.1 hb with hb | hb
      · by_cases hne : below = nil
        · subst hne
          rw [List.mem_singleton.1 hb]
          simp
        · rw [if_neg (by rwa [isEmpty_iff]), branches_eq_map, List.mem_map] at hb
          obtain ⟨c, hc, rfl⟩ := hb
          rw [List.reverse_append]
          exact ((ihb hc).trans (List.sublist_append_left _ _)).cons_cons a
      · exact (ihs hb).trans ((List.sublist_append_right _ _).trans (List.sublist_cons_self _ _))

theorem labels_ofChain (origin id : Nat) (chain : List Signed) :
    (ofChain origin id chain).labels = Node.ofChain origin id chain := by
  induction chain generalizing id with
  | nil => rfl
  | cons s chain ih => simp [ofChain, Node.ofChain, labels, ih]

theorem branches_ofChain {chain : List Signed} (hne : chain ≠ []) (origin id : Nat) (above : List Node) :
    (ofChain origin id chain).branches above = [(Node.ofChain origin id chain).reverse ++ above] := by
  induction chain generalizing id above with
  | nil => exact absurd rfl hne
  | cons s chain ih =>
      by_cases hchain : chain = []
      · subst hchain
        rfl
      · have hcons : ofChain origin (id + 1) chain ≠ nil := by
          obtain ⟨r, rest, rfl⟩ := List.exists_cons_of_ne_nil hchain
          exact fun h => by cases h
        rw [ofChain, branches_cons_of_ne hcons, ih hchain, Node.ofChain]
        simp [branches]

end Forest

namespace Expansion

/-- The chains with the number of the first node of each, if the numbers start with `id`. -/
def starts (id : Nat) : Expansion → List (Nat × List Signed)
  | linear chain => [(id, chain)]
  | branching left right => [(id, left), (id + left.length, right)]

theorem map_snd_starts (id : Nat) (e : Expansion) : (e.starts id).map Prod.snd = e.chains := by
  cases e <;> rfl

theorem mem_chains_of_mem_starts {id : Nat} {e : Expansion} {p : Nat × List Signed} (hp : p ∈ e.starts id) :
    p.2 ∈ e.chains := by
  rw [← map_snd_starts id e]
  exact List.mem_map_of_mem hp

theorem exists_mem_starts {e : Expansion} {chain : List Signed} (hchain : chain ∈ e.chains) (id : Nat) :
    ∃ start, (start, chain) ∈ e.starts id := by
  rw [← map_snd_starts id e, List.mem_map] at hchain
  obtain ⟨⟨start, _⟩, hp, rfl⟩ := hchain
  exact ⟨start, hp⟩

theorem labels_toForest (origin id : Nat) (e : Expansion) :
    (e.toForest origin id).labels = (e.starts id).flatMap fun p => Node.ofChain origin p.1 p.2 := by
  cases e <;> simp [toForest, starts, Forest.labels_ofChain]

theorem numberedFrom_toForest (origin id : Nat) (e : Expansion) : (e.toForest origin id).NumberedFrom id := by
  rw [Forest.NumberedFrom, ← Forest.length_labels, labels_toForest]
  cases e with
  | linear chain => simp [starts, Node.ids_ofChain, Node.length_ofChain]
  | branching left right => simp [starts, Node.ids_ofChain, Node.length_ofChain, List.range'_append_1]

theorem branches_toForest {e : Expansion} (hne : ∀ chain ∈ e.chains, chain ≠ []) (origin id : Nat)
    (above : List Node) :
    (e.toForest origin id).branches above =
      (e.starts id).map fun p => (Node.ofChain origin p.1 p.2).reverse ++ above := by
  cases e with
  | linear chain =>
      have hchain : chain ≠ [] := hne chain List.mem_cons_self
      exact Forest.branches_ofChain hchain origin id above
  | branching left right =>
      have hleft : left ≠ [] := hne left List.mem_cons_self
      have hright : right ≠ [] := hne right (List.mem_cons_of_mem _ List.mem_cons_self)
      rw [toForest, Forest.branches_append, Forest.branches_ofChain hleft, Forest.branches_ofChain hright]
      rfl

theorem toForest_ne_nil {e : Expansion} (hne : ∀ chain ∈ e.chains, chain ≠ []) (origin id : Nat) :
    e.toForest origin id ≠ .nil := by
  intro hnil
  have hbranches := branches_toForest hne origin id []
  rw [hnil, Forest.branches] at hbranches
  cases e <;> cases hbranches

theorem start_bounds {id : Nat} {e : Expansion} {p : Nat × List Signed} (hp : p ∈ e.starts id) :
    id ≤ p.1 ∧ p.1 + p.2.length ≤ id + e.chains.flatten.length := by
  cases e with
  | linear chain => simp_all [starts, chains]
  | branching left right =>
      rcases List.mem_pair.1 hp with rfl | rfl <;> simp [chains, Nat.add_assoc]

end Expansion

namespace Signed

theorem chain_ne_nil {s : Signed} {term : Option Term} {e : Expansion} (h : s.expansion term = some e) :
    ∀ chain ∈ e.chains, chain ≠ [] := by
  rcases s with ⟨f, value⟩
  cases f with
  | atom a => cases h
  | not f => cases h; simp [Expansion.chains]
  | binary c l r =>
      cases h
      cases c <;> cases value <;> simp [binaryExpansion, Expansion.chains]
  | quantified q x body =>
      obtain ⟨t, _, rfl⟩ := Option.map_eq_some_iff.1 h
      simp [Expansion.chains]

end Signed

/-- The branch ends at a leaf with one of the given numbers. -/
def EndsIn (leaves : List Nat) (b : List Node) : Prop :=
  ∃ leaf ∈ b.head?, leaf.id ∈ leaves

theorem endsIn_cons {leaves : List Nat} {leaf : Node} {up : List Node} :
    EndsIn leaves (leaf :: up) ↔ leaf.id ∈ leaves := by
  simp [EndsIn]

/-- The numbers of the nodes are all different and below `slots`, they decrease toward the root, and the nodes are
counted. -/
structure Indexed (t : Tableau) : Prop where
  numbered : t.tree.Numbered
  id_lt : ∀ n ∈ t.tree.labels, n.id < t.slots
  ordered : ∀ b ∈ t.tree.branches, b.Pairwise fun n m => m.id < n.id
  count : t.nodeCount = t.tree.size

namespace Indexed

variable {t t' : Tableau}

/-- Whatever keeps the shape of the tree and the numbers keeps them in order. -/
theorem of_rel {R : Node → Node → Prop} (h : Indexed t) (hrel : Forest.Rel R t.tree.toForest t'.tree.toForest)
    (hR : ∀ n m, R n m → m.id = n.id) (hslots : t'.slots = t.slots) (hcount : t'.nodeCount = t.nodeCount) :
    Indexed t' := by
  have hids : t'.tree.labels.map Node.id = t.tree.labels.map Node.id := by
    have hlabels := hrel.labels
    rw [← List.forall₂_eq_eq_eq, List.forall₂_map_left_iff, List.forall₂_map_right_iff]
    exact (hlabels.imp hR).flip
  refine ⟨by rw [Tree.Numbered, hids]; exact h.numbered, ?_, ?_, ?_⟩
  · intro m hm
    obtain ⟨n, hn, hnm⟩ := exists_of_forall₂_right hrel.labels hm
    rw [hR n m hnm, hslots]
    exact h.id_lt n hn
  · intro b' hb'
    obtain ⟨b, hb, hbb'⟩ := exists_of_forall₂_right (hrel.branches .nil) hb'
    apply pairwise_of_forall₂ hbb' ?_ (h.ordered b hb)
    intro n m n' m' hn hm hlt
    rw [hR n n' hn, hR m m' hm]
    exact hlt
  · have hlen := congrArg List.length hids
    rw [List.length_map, List.length_map, Tree.length_labels, Tree.length_labels] at hlen
    rw [hcount, hlen]
    exact h.count

end Indexed

namespace Tableau

variable {t : Tableau} {leaf : Node} {up : List Node} {new : Forest Node}

/-- Hanging nodes below a leaf prolongs the branch that ends there and keeps the others. -/
theorem mem_branches_attach (h : t.tree.Numbered) (hleaf : leaf :: up ∈ t.tree.branches) (hnew : new ≠ .nil)
    {b : List Node} : b ∈ (t.attach leaf.id new).tree.branches ↔
      (b ∈ t.tree.branches ∧ ¬ EndsIn [leaf.id] b) ∨ b ∈ new.branches (leaf :: up) := by
  have hbranches : (t.attach leaf.id new).tree.branches =
      t.tree.branches.flatMap fun c => if c.head?.any (·.id == leaf.id) then new.branches c else [c] := by
    rw [Tree.branches, attach, Tree.toForest_graft]
    exact Forest.branches_graft hnew (h.leaf_chosen_below hleaf)
  rw [hbranches, List.mem_flatMap]
  constructor
  · rintro ⟨c, hc, hb⟩
    obtain ⟨n, above, rfl⟩ := Tree.exists_cons_of_mem_branches hc
    by_cases hid : n.id = leaf.id
    · obtain ⟨rfl, rfl⟩ := h.eq_of_leaf_id_eq hc hleaf hid
      rw [if_pos (by simp)] at hb
      exact Or.inr hb
    · rw [if_neg (by simpa using hid), List.mem_singleton] at hb
      subst hb
      exact Or.inl ⟨hc, by simpa [endsIn_cons] using hid⟩
  · rintro (⟨hb, hends⟩ | hb)
    · refine ⟨b, hb, ?_⟩
      obtain ⟨n, above, rfl⟩ := Tree.exists_cons_of_mem_branches hb
      rw [endsIn_cons, List.mem_singleton] at hends
      rw [if_neg (by simpa using hends)]
      exact List.mem_singleton_self _
    · refine ⟨leaf :: up, hleaf, ?_⟩
      rw [if_pos (by simp)]
      exact hb

theorem labels_attach_perm_of_mem (h : t.tree.Numbered) {n : Node} (hn : n ∈ t.tree.labels) (new : Forest Node) :
    (t.attach n.id new).tree.labels.Perm (t.tree.labels ++ new.labels) := by
  rw [Tree.labels, attach, Tree.toForest_graft]
  apply Forest.labels_graft_perm
  have hcount : (t.tree.labels.map Node.id).count n.id = 1 :=
    List.count_eq_one_of_mem h (List.mem_map_of_mem hn)
  rw [List.count_eq_countP, List.countP_map, List.countP_eq_length_filter] at hcount
  exact hcount

theorem labels_attach_perm (h : t.tree.Numbered) (hleaf : leaf :: up ∈ t.tree.branches) (new : Forest Node) :
    (t.attach leaf.id new).tree.labels.Perm (t.tree.labels ++ new.labels) :=
  labels_attach_perm_of_mem h (Tree.mem_labels_of_mem_branch hleaf List.mem_cons_self) new

theorem mem_labels_attach (h : t.tree.Numbered) (hleaf : leaf :: up ∈ t.tree.branches) {n : Node} :
    n ∈ (t.attach leaf.id new).tree.labels ↔ n ∈ t.tree.labels ∨ n ∈ new.labels := by
  rw [(labels_attach_perm h hleaf new).mem_iff, List.mem_append]

end Tableau

theorem Forest.NumberedFrom.id_bounds {id : Nat} {new : Forest Node} (h : new.NumberedFrom id) {n : Node}
    (hn : n ∈ new.labels) : id ≤ n.id ∧ n.id < id + new.size := by
  have hid := List.mem_map_of_mem hn (f := Node.id)
  rw [h, List.mem_range'_1] at hid
  exact hid

theorem Forest.NumberedFrom.ordered {id : Nat} {new : Forest Node} (h : new.NumberedFrom id) {b : List Node}
    (hb : b ∈ new.branches []) : b.Pairwise fun n m => m.id < n.id := by
  have hids : (b.reverse.map Node.id).Pairwise (· < ·) := by
    apply List.Pairwise.sublist ((Forest.reverse_sublist_labels hb).map Node.id)
    rw [h]
    exact List.pairwise_lt_range'
  rwa [List.pairwise_map, List.pairwise_reverse] at hids

/-- New nodes below a leaf continue the numbering. -/
theorem Indexed.attach {t : Tableau} {leaf : Node} {up : List Node} {new : Forest Node} (h : Indexed t)
    (hleaf : leaf :: up ∈ t.tree.branches) (hnum : new.NumberedFrom t.slots) (hnew : new ≠ .nil) :
    Indexed (t.attach leaf.id new) where
  numbered := by
    have hperm := (Tableau.labels_attach_perm h.numbered hleaf new).map Node.id
    rw [Tree.Numbered, hperm.nodup_iff, List.map_append, List.nodup_append]
    refine ⟨h.numbered, hnum ▸ List.nodup_range', ?_⟩
    intro i hi j hj
    obtain ⟨n, hn, rfl⟩ := List.mem_map.1 hi
    obtain ⟨m, hm, rfl⟩ := List.mem_map.1 hj
    exact Nat.ne_of_lt (Nat.lt_of_lt_of_le (h.id_lt n hn) (hnum.id_bounds hm).1)
  id_lt := by
    intro n hn
    rcases (Tableau.mem_labels_attach h.numbered hleaf).1 hn with hn | hn
    · exact Nat.lt_of_lt_of_le (h.id_lt n hn) (Nat.le_add_right _ _)
    · exact (hnum.id_bounds hn).2
  ordered := by
    intro b hb
    rcases (Tableau.mem_branches_attach h.numbered hleaf hnew).1 hb with ⟨hb, _⟩ | hb
    · exact h.ordered b hb
    · rw [Forest.branches_eq_map, List.mem_map] at hb
      obtain ⟨c, hc, rfl⟩ := hb
      refine List.pairwise_append.2 ⟨hnum.ordered hc, h.ordered _ hleaf, ?_⟩
      intro n hn m hm
      have hm := h.id_lt m (Tree.mem_labels_of_mem_branch hleaf hm)
      exact Nat.lt_of_lt_of_le hm (hnum.id_bounds (Forest.mem_labels_of_mem_branch hc hn)).1
  count := by
    have hlen := (Tableau.labels_attach_perm h.numbered hleaf new).length_eq
    rw [Tree.length_labels, List.length_append, Tree.length_labels, Forest.length_labels] at hlen
    rw [hlen, ← h.count]
    rfl

/-- What becomes of the branches when the result of a rule is put below each of the given leaves. -/
structure Grown (origin : Nat) (e : Expansion) (leaves : List Nat) (t t' : Tableau) : Prop where
  slots_le : t.slots ≤ t'.slots
  kept : ∀ b ∈ t.tree.branches, ¬ EndsIn leaves b → b ∈ t'.tree.branches
  prolonged : ∀ b ∈ t.tree.branches, EndsIn leaves b → ∀ chain ∈ e.chains, ∃ id, t.slots ≤ id ∧
    (Node.ofChain origin id chain).reverse ++ b ∈ t'.tree.branches
  source : ∀ b' ∈ t'.tree.branches, (b' ∈ t.tree.branches ∧ ¬ EndsIn leaves b') ∨
    ∃ b ∈ t.tree.branches, EndsIn leaves b ∧ ∃ chain ∈ e.chains, ∃ id, t.slots ≤ id ∧
      b' = (Node.ofChain origin id chain).reverse ++ b

/-- Every listed number is that of a leaf whose branch is open. -/
def OpenLeaves (t : Tableau) (leaves : List Nat) : Prop :=
  ∀ l ∈ leaves, ∃ leaf up, leaf :: up ∈ t.tree.branches ∧ leaf.id = l ∧ leaf.branchClosed = false

namespace Tableau

variable {t : Tableau} {origin : Nat} {e : Expansion} {leaf : Node} {up : List Node} {leaves : List Nat}

theorem indexed_extend (h : Indexed t) (hne : ∀ chain ∈ e.chains, chain ≠ [])
    (hleaf : leaf :: up ∈ t.tree.branches) : Indexed (t.extend origin e leaf.id) :=
  h.attach hleaf (e.numberedFrom_toForest origin t.slots) (Expansion.toForest_ne_nil hne origin t.slots)

/-- The branches after the result of a rule has been put below one leaf. -/
theorem mem_branches_extend (h : Indexed t) (hne : ∀ chain ∈ e.chains, chain ≠ [])
    (hleaf : leaf :: up ∈ t.tree.branches) {b : List Node} :
    b ∈ (t.extend origin e leaf.id).tree.branches ↔ (b ∈ t.tree.branches ∧ ¬ EndsIn [leaf.id] b) ∨
      ∃ p ∈ e.starts t.slots, (Node.ofChain origin p.1 p.2).reverse ++ (leaf :: up) = b := by
  rw [extend, mem_branches_attach h.numbered hleaf (Expansion.toForest_ne_nil hne origin t.slots),
    Expansion.branches_toForest hne, List.mem_map]

theorem not_endsIn_prolonged {chain : List Signed} {id : Nat} {b : List Node} (hchain : chain ≠ [])
    (hleaves : ∀ l ∈ leaves, l < id) : ¬ EndsIn leaves ((Node.ofChain origin id chain).reverse ++ b) := by
  rintro ⟨n, hn, hmem⟩
  rw [List.head?_append_of_ne_nil _ (Node.reverse_ofChain_ne_nil hchain origin id), List.head?_reverse] at hn
  have hbound := (Node.id_bounds_of_mem_ofChain (List.mem_of_getLast? hn)).1
  exact absurd (hleaves n.id hmem) (Nat.not_lt.2 hbound)

theorem openLeaves_extend (h : Indexed t) (hne : ∀ chain ∈ e.chains, chain ≠ [])
    (hleaf : leaf :: up ∈ t.tree.branches) (hnotin : leaf.id ∉ leaves) (hopen : OpenLeaves t leaves) :
    OpenLeaves (t.extend origin e leaf.id) leaves := by
  intro l hl
  obtain ⟨n, above, hb, rfl, hclosed⟩ := hopen l hl
  refine ⟨n, above, (mem_branches_extend h hne hleaf).2 (Or.inl ⟨hb, ?_⟩), rfl, hclosed⟩
  rw [endsIn_cons, List.mem_singleton]
  exact fun heq => hnotin (heq ▸ hl)

/-- What holds of a tableau, and is kept when the result of a rule is put below an open leaf, holds after it has
been put below all leaves of a list. -/
theorem foldl_extend_induction {P : Tableau → Prop} (hne : ∀ chain ∈ e.chains, chain ≠ [])
    (hstep : ∀ (t : Tableau) (leaf : Node) (up : List Node), Indexed t → leaf :: up ∈ t.tree.branches →
      leaf.branchClosed = false → P t → P (t.extend origin e leaf.id))
    (h : Indexed t) (hnodup : leaves.Nodup) (hopen : OpenLeaves t leaves) (hP : P t) :
    Indexed (leaves.foldl (fun t leaf => t.extend origin e leaf) t) ∧
      P (leaves.foldl (fun t leaf => t.extend origin e leaf) t) := by
  induction leaves generalizing t with
  | nil => exact ⟨h, hP⟩
  | cons l leaves ih =>
      obtain ⟨leaf, up, hleaf, rfl, hclosed⟩ := hopen l List.mem_cons_self
      obtain ⟨hnotin, hnodup⟩ := List.nodup_cons.1 hnodup
      have hrest : OpenLeaves t leaves := fun l hl => hopen l (List.mem_cons_of_mem _ hl)
      exact ih (indexed_extend h hne hleaf) hnodup (openLeaves_extend h hne hleaf hnotin hrest)
        (hstep t leaf up h hleaf hclosed hP)

theorem id_lt_of_openLeaves (h : Indexed t) (hopen : OpenLeaves t leaves) : ∀ l ∈ leaves, l < t.slots := by
  intro l hl
  obtain ⟨leaf, up, hb, rfl, _⟩ := hopen l hl
  exact h.id_lt leaf (Tree.mem_labels_of_mem_branch hb List.mem_cons_self)

/-- One more leaf: the branches that it ends are prolonged first. -/
theorem grown_cons {t' : Tableau} (h : Indexed t) (hne : ∀ chain ∈ e.chains, chain ≠ [])
    (hleaf : leaf :: up ∈ t.tree.branches) (hnotin : leaf.id ∉ leaves) (hopen : OpenLeaves t leaves)
    (hgrown : Grown origin e leaves (t.extend origin e leaf.id) t') : Grown origin e (leaf.id :: leaves) t t' where
  slots_le := (Nat.le_add_right _ _).trans hgrown.slots_le
  kept := by
    intro b hb hends
    obtain ⟨n, above, rfl⟩ := Tree.exists_cons_of_mem_branches hb
    rw [endsIn_cons, List.mem_cons, not_or] at hends
    refine hgrown.kept _ ((mem_branches_extend h hne hleaf).2 (Or.inl ⟨hb, ?_⟩)) ?_
    · simpa [endsIn_cons] using hends.1
    · simpa [endsIn_cons] using hends.2
  prolonged := by
    intro b hb hends chain hchain
    obtain ⟨n, above, rfl⟩ := Tree.exists_cons_of_mem_branches hb
    by_cases hid : n.id = leaf.id
    · obtain ⟨rfl, rfl⟩ := h.numbered.eq_of_leaf_id_eq hb hleaf hid
      obtain ⟨id, hid⟩ := Expansion.exists_mem_starts hchain t.slots
      have hle : t.slots ≤ id := (Expansion.start_bounds hid).1
      refine ⟨id, hle, hgrown.kept _ ((mem_branches_extend h hne hleaf).2 (Or.inr ⟨_, hid, rfl⟩)) ?_⟩
      exact not_endsIn_prolonged (hne chain hchain) fun l hl =>
        Nat.lt_of_lt_of_le (id_lt_of_openLeaves h hopen l hl) hle
    · have hmem : n :: above ∈ (t.extend origin e leaf.id).tree.branches :=
        (mem_branches_extend h hne hleaf).2 (Or.inl ⟨hb, by simpa [endsIn_cons] using hid⟩)
      rw [endsIn_cons, List.mem_cons, or_iff_right hid] at hends
      obtain ⟨id, hle, hmem'⟩ := hgrown.prolonged _ hmem (endsIn_cons.2 hends) chain hchain
      exact ⟨id, (Nat.le_add_right _ _).trans hle, hmem'⟩
  source := by
    intro b' hb'
    rcases hgrown.source b' hb' with ⟨hb', hends⟩ | ⟨b, hb, hends, chain, hchain, id, hle, rfl⟩
    · rcases (mem_branches_extend h hne hleaf).1 hb' with ⟨hb, hends'⟩ | ⟨p, hp, rfl⟩
      · obtain ⟨n, above, rfl⟩ := Tree.exists_cons_of_mem_branches hb
        rw [endsIn_cons] at hends hends'
        rw [List.mem_singleton] at hends'
        exact Or.inl ⟨hb, by rw [endsIn_cons, List.mem_cons, not_or]; exact ⟨hends', hends⟩⟩
      · exact Or.inr ⟨_, hleaf, endsIn_cons.2 List.mem_cons_self, p.2, Expansion.mem_chains_of_mem_starts hp, p.1,
          (Expansion.start_bounds hp).1, rfl⟩
    · rcases (mem_branches_extend h hne hleaf).1 hb with ⟨hb, _⟩ | ⟨p, hp, rfl⟩
      · obtain ⟨n, above, rfl⟩ := Tree.exists_cons_of_mem_branches hb
        exact Or.inr ⟨_, hb, endsIn_cons.2 (List.mem_cons_of_mem _ (endsIn_cons.1 hends)), chain, hchain, id,
          (Nat.le_add_right _ _).trans hle, rfl⟩
      · refine absurd hends (not_endsIn_prolonged (hne _ (Expansion.mem_chains_of_mem_starts hp)) ?_)
        exact fun l hl => Nat.lt_of_lt_of_le (id_lt_of_openLeaves h hopen l hl) (Expansion.start_bounds hp).1

/-- Put below several leaves, the result of a rule prolongs every branch that ends at one of them. -/
theorem grown_foldl_extend (h : Indexed t) (hne : ∀ chain ∈ e.chains, chain ≠ []) (hnodup : leaves.Nodup)
    (hopen : OpenLeaves t leaves) :
    Grown origin e leaves t (leaves.foldl (fun t leaf => t.extend origin e leaf) t) := by
  induction leaves generalizing t with
  | nil => exact ⟨Nat.le_refl _, fun b hb _ => hb, fun b _ hends => by simp [EndsIn] at hends,
      fun b hb => Or.inl ⟨hb, by simp [EndsIn]⟩⟩
  | cons l leaves ih =>
      obtain ⟨leaf, up, hleaf, rfl, _⟩ := hopen l List.mem_cons_self
      obtain ⟨hnotin, hnodup⟩ := List.nodup_cons.1 hnodup
      have hrest : OpenLeaves t leaves := fun l hl => hopen l (List.mem_cons_of_mem _ hl)
      exact grown_cons h hne hleaf hnotin hrest
        (ih (indexed_extend h hne hleaf) hnodup (openLeaves_extend h hne hleaf hnotin hrest))

end Tableau

end Tableaux
