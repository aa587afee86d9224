import Mathlib
import Tableaux.Proofs.Excision
import Tableaux.Proofs.Integrity
import Tableaux.Proofs.Semantics

/-!
Derivations and their branches. Everything developed stands below what it was developed from, and the two sides of a
development that splits branches stand side by side. Whichever side is chosen for each node, there is a branch that
keeps to the chosen sides: a development prolongs it, and after the removal of a node without siblings what is left of
such a branch is a branch still.
-/

namespace Tableaux

namespace Node

/-- The rule of the first node gives the second; a quantified node has the term that it takes among its instances. -/
def Yields (a n : Node) : Prop :=
  ∃ x e, a.signed.expansion x = some e ∧ (∃ chain ∈ e.chains, ∃ s ∈ chain, n.signed = s.fold) ∧
    (a.kind.isQuantified = true → ∃ y ∈ a.instances, x = some y)

/-- The node is on the chosen side of the node it was developed from: on the right side where `right` says so, on the
left side elsewhere. -/
def OnSide (second right : Nat → Bool) (b : List Node) (n : Node) : Prop :=
  ∀ m, n.origin = some m → (second n.id = true → right m = true) ∧
    ∀ a ∈ b, a.id = m → ∀ l r, a.signed.expansion none = some (.branching l r) →
      ∃ s ∈ (if right m then r else l), n.signed = s.fold

/-- The second node says the same as the first, was developed from the same node and has at least its instances. -/
structure Continues (n m : Node) : Prop where
  id : m.id = n.id
  signed : m.signed = n.signed
  origin : m.origin = n.origin
  instances : ∀ x ∈ n.instances, x ∈ m.instances

variable {a a' n n' : Node} {second second' right : Nat → Bool} {b b' : List Node}

theorem MarkedTo.continues (h : n.MarkedTo n') : n.Continues n' :=
  ⟨h.id, h.signed, h.origin, fun _ hx => h.instances ▸ hx⟩

theorem Yields.continues (h : a.Yields n) (ha : a.Continues a') (hn : n.Continues n') : a'.Yields n' := by
  obtain ⟨x, e, hexpansion, hchain, hx⟩ := h
  refine ⟨x, e, ha.signed.symm ▸ hexpansion, hn.signed.symm ▸ hchain, fun hkind => ?_⟩
  rw [kind, ha.signed] at hkind
  obtain ⟨y, hy, heq⟩ := hx hkind
  exact ⟨y, ha.instances y hy, heq⟩

/-- Only the second sides and what the node was developed from count. -/
theorem OnSide.congr (h : n.OnSide second right b) (hsecond : second' n.id = second n.id)
    (hb : ∀ a ∈ b', n.origin = some a.id → a ∈ b) : n.OnSide second' right b' := by
  intro m hm
  obtain ⟨hright, hside⟩ := h m hm
  refine ⟨fun hn => hright (hsecond ▸ hn), fun a ha hid => hside a (hb a ha ?_) hid⟩
  rw [hid, hm]

end Node

/-- Every node of the branch is on the chosen side. -/
def Follows (second right : Nat → Bool) (b : List Node) : Prop :=
  ∀ n ∈ b, n.OnSide second right b

/-- Every node stands below what it was developed from, siblings are the two sides of one development, and whichever
sides are chosen, some branch keeps to them. -/
structure Derived (second : Nat → Bool) (t : Tableau) : Prop where
  sourced : t.tree.toForest.Sourced Node.Yields
  split : t.tree.toForest.Families (Forest.Split second)
  covered : ∀ right : Nat → Bool, ∃ b ∈ t.tree.branches, Follows second right b

namespace Forest

theorem Families.of_rel {α β : Type} {R : α → β → Prop} {P : List α → Prop} {Q : List β → Prop} {f : Forest α}
    {g : Forest β} (h : f.Families P) (hrel : Rel R f g) (hPQ : ∀ l l', List.Forall₂ R l l' → P l → Q l') :
    g.Families Q := by
  induction hrel with
  | nil => trivial
  | cons _ hbelow _ ihb ihs => exact ⟨hPQ _ _ hbelow.roots h.1, ihb h.2.1, ihs h.2.2⟩

/-- New families below leaves that had none. -/
theorem Families.graft {α : Type} {P : List α → Prop} {p : α → Bool} {f new : Forest α} (h : f.Families P)
    (hroots : P new.roots) (hnew : new.Families P) {above : List α}
    (hleaf : ∀ s ∈ f.sites above, p s.tree.root = true → s.tree.below = nil) : (graft p new f).Families P := by
  induction f generalizing above with
  | nil => trivial
  | cons a below beside ihb ihs =>
      simp only [sites, List.mem_cons, List.mem_append] at hleaf
      have hbeside := ihs h.2.2 fun s hs => hleaf s (Or.inr (Or.inr hs))
      rw [Forest.graft]
      split
      · rename_i hp
        obtain rfl : below = nil := hleaf ⟨⟨a, below⟩, above⟩ (Or.inl rfl) hp
        exact ⟨hroots, hnew, hbeside⟩
      · refine ⟨?_, ihb h.2.1 fun s hs => hleaf s (Or.inr (Or.inl hs)), hbeside⟩
        rw [roots_graft]
        exact h.1

theorem Sourced.of_rel {R : Node → Node → Prop} {S : Node → Node → Prop} {f g : Forest Node} (h : f.Sourced S)
    (hrel : Rel R f g) (hid : ∀ n m, R n m → m.id = n.id ∧ m.origin = n.origin)
    (hS : ∀ a a' n n', R a a' → R n n' → S a n → S a' n') : g.Sourced S := by
  intro pre n up hb m hm
  obtain ⟨b, hmem, hbb'⟩ := exists_of_forall₂_right (hrel.branches .nil) hb
  have hdrop := List.forall₂_drop_append _ _ _ hbb'
  obtain ⟨n₀, up₀, hnn, hup, heq⟩ := List.forall₂_cons_right_iff.1 hdrop
  have hsplit : b.take pre.length ++ n₀ :: up₀ ∈ f.branches [] := by
    rw [← heq, List.take_append_drop]
    exact hmem
  obtain ⟨a, ha, rfl, hS'⟩ := h _ n₀ up₀ hsplit m ((hid n₀ n hnn).2 ▸ hm)
  obtain ⟨a', ha', haa'⟩ := exists_of_forall₂_left hup ha
  exact ⟨a', ha', (hid a a' haa').1, hS a a' n₀ n haa' hnn hS'⟩

theorem Split.congr {second second' : Nat → Bool} {l : List Node} (h : Split second l)
    (hsame : ∀ n ∈ l, second' n.id = second n.id) : Split second' l := by
  rcases h with rfl | ⟨x, rfl, hx⟩ | ⟨x, y, rfl, horigin, hx, hy⟩
  · exact Or.inl rfl
  · exact Or.inr (Or.inl ⟨x, rfl, by rw [hsame x (by simp), hx]⟩)
  · exact Or.inr (Or.inr ⟨x, y, rfl, horigin, by rw [hsame x (by simp), hx], by rw [hsame y (by simp), hy]⟩)

theorem Split.of_rel {second : Nat → Bool} {R : Node → Node → Prop}
    (hid : ∀ n m, R n m → m.id = n.id ∧ m.origin = n.origin) {l l' : List Node} (hl : List.Forall₂ R l l')
    (h : Split second l) : Split second l' := by
  rcases h with rfl | ⟨x, rfl, hx⟩ | ⟨x, y, rfl, horigin, hx, hy⟩
  · cases hl
    exact Or.inl rfl
  · obtain ⟨x', rest, hxx', hrest, rfl⟩ := List.forall₂_cons_left_iff.1 hl
    cases hrest
    exact Or.inr (Or.inl ⟨x', rfl, by rw [(hid x x' hxx').1, hx]⟩)
  · obtain ⟨x', rest, hxx', hrest, rfl⟩ := List.forall₂_cons_left_iff.1 hl
    obtain ⟨y', rest', hyy', hrest', rfl⟩ := List.forall₂_cons_left_iff.1 hrest
    cases hrest'
    obtain ⟨hxid, hxorigin⟩ := hid x x' hxx'
    obtain ⟨hyid, hyorigin⟩ := hid y y' hyy'
    exact Or.inr (Or.inr ⟨x', y', rfl, by rw [hxorigin, hyorigin, horigin], by rw [hxid, hx], by rw [hyid, hy]⟩)

end Forest

theorem Follows.continues {second right : Nat → Bool} {b b' : List Node} (h : Follows second right b)
    (hbb' : List.Forall₂ Node.Continues b b') : Follows second right b' := by
  intro n' hn' m hm
  obtain ⟨n, hn, hnn'⟩ := exists_of_forall₂_right hbb' hn'
  obtain ⟨hright, hside⟩ := h n hn m (hnn'.origin ▸ hm)
  refine ⟨fun hsecond => hright (hnn'.id ▸ hsecond), ?_⟩
  intro a' ha' hid l r hexpansion
  obtain ⟨a, ha, haa'⟩ := exists_of_forall₂_right hbb' ha'
  rw [hnn'.signed]
  exact hside a ha (haa'.id ▸ hid) l r (haa'.signed ▸ hexpansion)

namespace Derived

variable {second second' : Nat → Bool} {t t' : Tableau} {leaf : Node} {up : List Node} {new : Forest Node}

/-- Marks and further instances change nothing. -/
theorem of_rel (h : Derived second t) (hrel : Forest.Rel Node.Continues t.tree.toForest t'.tree.toForest) :
    Derived second t' where
  sourced := h.sourced.of_rel hrel (fun _ _ hnm => ⟨hnm.id, hnm.origin⟩) fun _ _ _ _ ha hn hyields =>
    hyields.continues ha hn
  split := h.split.of_rel hrel fun _ _ hl => .of_rel (fun _ _ hnm => ⟨hnm.id, hnm.origin⟩) hl
  covered right := by
    obtain ⟨b, hb, hfollows⟩ := h.covered right
    obtain ⟨b', hb', hbb'⟩ := exists_of_forall₂_left (hrel.branches .nil) hb
    exact ⟨b', hb', hfollows.continues hbb'⟩

theorem closesTo (h : Derived second t) (hcloses : t.ClosesTo t') : Derived second t' :=
  h.of_rel (hcloses.tree.imp fun _ _ hnm => hnm.continues)

section Attach

/-! New nodes below a leaf. They stand below what they were developed from, in two sides at most, and whichever sides
are chosen, some branch of them keeps to these. -/

variable (hi : Indexed t) (h : Derived second t) (hleaf : leaf :: up ∈ t.tree.branches)
  (hnum : new.NumberedFrom t.slots) (hne : new ≠ .nil)
  (hsourced : ∀ n ∈ new.labels, ∀ m, n.origin = some m → ∃ a ∈ leaf :: up, a.id = m ∧ a.Yields n)
include hi h hleaf hsourced

theorem sourced_attach (hne : new ≠ .nil) : (t.attach leaf.id new).tree.toForest.Sourced Node.Yields := by
  intro pre n above hb m hm
  rcases (Tableau.mem_branches_attach hi.numbered hleaf hne).1 hb with ⟨hb, _⟩ | hb
  · exact h.sourced pre n above hb m hm
  · rw [Forest.branches_eq_map, List.mem_map] at hb
    obtain ⟨c, hc, heq⟩ := hb
    rcases List.append_eq_append_iff.1 heq with ⟨d, _, hd⟩ | ⟨d, rfl, hd⟩
    · rw [hd] at hleaf
      exact h.sourced d n above hleaf m hm
    · cases d with
      | nil =>
          rw [List.nil_append] at hd
          rw [← hd] at hleaf
          exact h.sourced [] n above hleaf m hm
      | cons k d =>
          obtain ⟨rfl, rfl⟩ := List.cons.inj hd
          obtain ⟨a, ha, hfacts⟩ := hsourced n (Forest.mem_labels_of_mem_branch hc (by simp)) m hm
          exact ⟨a, List.mem_append_right _ ha, hfacts⟩

include hnum in
/-- On a prolonged branch, what a node was developed from is an old node. -/
theorem mem_of_origin_attach {c : List Node} (hc : c ∈ new.branches []) {n a : Node} (hn : n ∈ c ++ leaf :: up)
    (ha : a ∈ c ++ leaf :: up) (horigin : n.origin = some a.id) : a ∈ leaf :: up := by
  have hold : ∃ k ∈ leaf :: up, k.id = a.id := by
    rcases List.mem_append.1 hn with hn | hn
    · obtain ⟨k, hk, hid, _⟩ := hsourced n (Forest.mem_labels_of_mem_branch hc hn) a.id horigin
      exact ⟨k, hk, hid⟩
    · obtain ⟨pre, above, heq⟩ := List.append_of_mem hn
      obtain ⟨k, hk, hid, _⟩ := h.sourced pre n above (heq ▸ hleaf) a.id horigin
      exact ⟨k, heq ▸ List.mem_append_right _ (List.mem_cons_of_mem _ hk), hid⟩
  rcases List.mem_append.1 ha with ha | ha
  · obtain ⟨k, hk, hid⟩ := hold
    have hlt := hi.id_lt k (Tree.mem_labels_of_mem_branch hleaf hk)
    have hle := (hnum.id_bounds (Forest.mem_labels_of_mem_branch hc ha)).1
    omega
  · exact ha

include hnum hne

theorem attach (hsame : ∀ k < t.slots, second' k = second k) (hroots : Forest.Split second' new.roots)
    (hsplit : new.Families (Forest.Split second'))
    (hcovered : ∀ right, ∃ c ∈ new.branches [], ∀ n ∈ c, n.OnSide second' right (leaf :: up)) :
    Derived second' (t.attach leaf.id new) where
  sourced := sourced_attach hi h hleaf hsourced hne
  split := by
    rw [Tableau.attach, Tree.toForest_graft]
    refine Forest.Families.graft ?_ hroots hsplit (hi.numbered.leaf_chosen_below hleaf)
    exact h.split.imp fun l hl hsplit => hsplit.congr fun n hn => hsame n.id (hi.id_lt n (hl n hn))
  covered := by
    intro right
    obtain ⟨b, hb, hfollows⟩ := h.covered right
    have hold : ∀ n ∈ b, second' n.id = second n.id := fun n hn =>
      hsame n.id (hi.id_lt n (Tree.mem_labels_of_mem_branch hb hn))
    by_cases hends : EndsIn [leaf.id] b
    · obtain ⟨leaf', up', rfl⟩ := Tree.exists_cons_of_mem_branches hb
      obtain ⟨rfl, rfl⟩ := hi.numbered.eq_of_leaf_id_eq hb hleaf (by simpa [endsIn_cons] using hends)
      obtain ⟨c, hc, hside⟩ := hcovered right
      refine ⟨c ++ leaf' :: up', ?_, fun n hn => ?_⟩
      · rw [Tableau.mem_branches_attach hi.numbered hleaf hne, Forest.branches_eq_map]
        exact Or.inr (List.mem_map_of_mem hc)
      · have habove := fun a ha horigin => mem_of_origin_attach hi h hleaf hnum hsourced hc hn (a := a) ha horigin
        rcases List.mem_append.1 hn with hnc | hnb
        · exact (hside n hnc).congr rfl habove
        · exact (hfollows n hnb).congr (hold n hnb) habove
    · refine ⟨b, (Tableau.mem_branches_attach hi.numbered hleaf hne).2 (Or.inl ⟨hb, hends⟩), fun n hn => ?_⟩
      exact (hfollows n hn).congr (hold n hn) fun a ha _ => ha

end Attach

theorem start (o : Options) (s : Signed) : Derived (fun _ => false) (.start o s) where
  sourced := by
    intro pre n up hb m hm
    have hn : n ∈ (Tableau.start o s).tree.labels := Forest.mem_labels_of_mem_branch hb (by simp)
    rw [Tableau.labels_start, List.mem_singleton] at hn
    rw [hn] at hm
    cases hm
  split := ⟨Or.inl rfl, trivial, trivial⟩
  covered right := by
    refine ⟨_, List.mem_cons_self, fun n hn m hm => ?_⟩
    rw [List.mem_singleton.1 hn] at hm
    cases hm

theorem stated (hi : Indexed t) (h : Derived second t) (s : Signed) (hleaf : leaf :: up ∈ t.tree.branches) :
    Derived (fun k => decide (k < t.slots) && second k) (t.stated s leaf.id) := by
  have hseeded : Derived second { t with terms := Tableau.seed t.options t.terms s.formula } :=
    ⟨h.sourced, h.split, h.covered⟩
  refine hseeded.attach ⟨hi.numbered, hi.id_lt, hi.ordered, hi.count⟩ hleaf (Forest.numberedFrom_singleton _ s none)
    (fun h => by cases h) ?_ (fun k hk => by simp_all) (Or.inr (Or.inl ⟨_, rfl, by simp [Node.ofSigned]⟩))
    ⟨Or.inl rfl, trivial, trivial⟩ fun right => ⟨_, List.mem_cons_self, ?_⟩
  · intro n hn m hm
    rw [List.mem_singleton.1 hn] at hm
    cases hm
  · intro n hn m hm
    rw [List.mem_singleton.1 hn] at hm
    cases hm

end Derived

/-! The result of a rule has two sides at most. -/

namespace Expansion

/-- The number of the first node on the right side, if the numbers start with `id`. -/
def headsRight (id : Nat) : Expansion → Nat → Bool
  | linear _, _ => false
  | branching left _, k => k == id + left.length

/-- Whichever side is chosen, one of the chains is on it. -/
theorem exists_start (e : Expansion) (id : Nat) (right : Bool) :
    ∃ p ∈ e.starts id, (∀ k < p.1 + p.2.length, e.headsRight id k = true → right = true) ∧
      ∀ l r, e = branching l r → p.2 = if right then r else l := by
  cases e with
  | linear chain =>
      refine ⟨(id, chain), List.mem_cons_self, fun k _ hk => ?_, fun l r heq => ?_⟩
      · cases hk
      · cases heq
  | branching left other =>
      cases right with
      | true =>
          refine ⟨(id + left.length, other), List.mem_cons_of_mem _ List.mem_cons_self, fun _ _ _ => rfl, ?_⟩
          intro l r heq
          cases heq
          rfl
      | false =>
          refine ⟨(id, left), List.mem_cons_self, fun k hlt hk => ?_, fun l r heq => ?_⟩
          · rw [headsRight, beq_iff_eq] at hk
            exact absurd hlt (Nat.not_lt.2 hk.ge)
          · cases heq
            rfl

end Expansion

namespace Forest

theorem split_ofChain {second : Nat → Bool} {origin id : Nat} {chain : List Signed}
    (h : ∀ k, id < k → k < id + chain.length → second k = false) :
    (ofChain origin id chain).Families (Split second) := by
  induction chain generalizing id with
  | nil => trivial
  | cons s chain ih =>
      simp only [List.length_cons] at h
      refine ⟨?_, ih fun k hlt hk => h k (by omega) (by omega), trivial⟩
      cases chain with
      | nil => exact Or.inl rfl
      | cons r chain => exact Or.inr (Or.inl ⟨_, rfl, h (id + 1) (by omega) (by simp)⟩)

theorem split_toForest {second : Nat → Bool} {e : Expansion} (hne : ∀ chain ∈ e.chains, chain ≠ []) (origin : Nat)
    {id : Nat} (h : ∀ k, id ≤ k → second k = e.headsRight id k) :
    Split second (e.toForest origin id).roots ∧ (e.toForest origin id).Families (Split second) := by
  cases e with
  | linear chain =>
      obtain ⟨s, rest, rfl⟩ := List.exists_cons_of_ne_nil (hne chain List.mem_cons_self)
      exact ⟨Or.inr (Or.inl ⟨_, rfl, h id le_rfl⟩), split_ofChain fun k hlt _ => h k hlt.le⟩
  | branching left right =>
      have hleft : ∀ k, id ≤ k → k < id + left.length → second k = false := by
        intro k hle hlt
        rw [h k hle, Expansion.headsRight]
        simp only [beq_eq_false_iff_ne, ne_eq]
        omega
      have hright : ∀ k, id + left.length < k → second k = false := by
        intro k hlt
        rw [h k (by omega), Expansion.headsRight]
        simp only [beq_eq_false_iff_ne, ne_eq]
        omega
      have hhead : second (id + left.length) = true := by
        rw [h _ (Nat.le_add_right _ _), Expansion.headsRight, beq_self_eq_true]
      refine ⟨?_, (split_ofChain fun k hlt => hleft k hlt.le).append (split_ofChain fun k hlt _ => hright k hlt)⟩
      obtain ⟨s, l, rfl⟩ := List.exists_cons_of_ne_nil (hne left List.mem_cons_self)
      obtain ⟨r, rest, rfl⟩ := List.exists_cons_of_ne_nil (hne right (List.mem_cons_of_mem _ List.mem_cons_self))
      exact Or.inr (Or.inr ⟨_, _, rfl, rfl, hleft id le_rfl (by simp), hhead⟩)

end Forest

theorem Node.continues_touch (id : Nat) (x : Option Term) (done : Bool) (n : Node) :
    n.Continues (Tableau.touch id x done n) := by
  rw [Tableau.touch]
  split
  · refine ⟨rfl, rfl, rfl, fun y hy => ?_⟩
    cases x with
    | none => exact hy
    | some z => exact Term.mem_enter.2 (Or.inl hy)
  · exact ⟨rfl, rfl, rfl, fun _ hy => hy⟩

namespace Derived

variable {second : Nat → Bool} {t : Tableau} {leaf a n : Node} {up : List Node} {x : Option Term} {e : Expansion}

/-- The result of a rule below a leaf under the node it belongs to. -/
theorem extend (hi : Indexed t) (h : Derived second t) (hleaf : leaf :: up ∈ t.tree.branches) (ha : a ∈ leaf :: up)
    (he : a.signed.expansion x = some e) (hx : a.kind.isQuantified = true → ∃ y ∈ a.instances, x = some y) :
    ∃ second', Derived second' (t.extend a.id e leaf.id) := by
  have hne := Signed.chain_ne_nil he
  let second' : Nat → Bool := fun k => if k < t.slots then second k else e.headsRight t.slots k
  have hnew : ∀ k, t.slots ≤ k → second' k = e.headsRight t.slots k := fun k hle => if_neg (Nat.not_lt.2 hle)
  obtain ⟨hroots, hsplit⟩ := Forest.split_toForest hne a.id hnew
  refine ⟨second', h.attach hi hleaf (e.numberedFrom_toForest a.id t.slots) (Expansion.toForest_ne_nil hne a.id t.slots)
    ?_ (fun k hk => if_pos hk) hroots hsplit fun right => ?_⟩
  · intro n hn m hm
    rw [Expansion.labels_toForest, List.mem_flatMap] at hn
    obtain ⟨p, hp, hn⟩ := hn
    obtain ⟨s, hs, heq⟩ := Node.exists_of_mem_ofChain hn
    rw [heq] at hm
    refine ⟨a, ha, Option.some.inj hm, x, e, he, ⟨p.2, Expansion.mem_chains_of_mem_starts hp, s, hs, ?_⟩, hx⟩
    rw [heq]
    rfl
  · obtain ⟨p, hp, hhead, hside⟩ := e.exists_start t.slots (right a.id)
    refine ⟨(Node.ofChain a.id p.1 p.2).reverse, ?_, fun n hn m hm => ?_⟩
    · rw [Expansion.branches_toForest hne, List.mem_map]
      exact ⟨p, hp, List.append_nil _⟩
    · have hn := List.mem_reverse.1 hn
      obtain ⟨hle, hlt⟩ := Node.id_bounds_of_mem_ofChain hn
      obtain ⟨s, hs, heq⟩ := Node.exists_of_mem_ofChain hn
      obtain rfl : a.id = m := by
        rw [heq] at hm
        exact Option.some.inj hm
      refine ⟨fun hsecond => hhead n.id hlt ?_, fun k hk hid l r hexpansion => ?_⟩
      · rwa [hnew n.id ((Expansion.start_bounds hp).1.trans hle)] at hsecond
      · -- numbers tell nodes apart, so this is the node whose rule was applied
        obtain rfl := hi.numbered.eq_of_id_eq (Tree.mem_labels_of_mem_branch hleaf hk)
          (Tree.mem_labels_of_mem_branch hleaf ha) hid
        rw [Signed.expansion_of_expansion_none hexpansion x] at he
        rw [← hside l r (Option.some.inj he).symm]
        exact ⟨s, hs, congrArg Node.signed heq⟩

/-- The result of a rule below several leaves. -/
theorem grow {leaves : List Nat} (hi : Indexed t) (h : Derived second t) (he : a.signed.expansion x = some e)
    (hx : a.kind.isQuantified = true → ∃ y ∈ a.instances, x = some y) (hnodup : leaves.Nodup)
    (hunder : ∀ l ∈ leaves, ∃ leaf up, leaf :: up ∈ t.tree.branches ∧ leaf.id = l ∧ a ∈ leaf :: up) :
    ∃ second', Derived second' (t.grow a.id e leaves) := by
  have hne := Signed.chain_ne_nil he
  induction leaves generalizing t second with
  | nil => exact ⟨second, h⟩
  | cons l leaves ih =>
      obtain ⟨leaf, up, hleaf, rfl, ha⟩ := hunder l List.mem_cons_self
      obtain ⟨hnotin, hnodup⟩ := List.nodup_cons.1 hnodup
      obtain ⟨second', h'⟩ := h.extend hi hleaf ha he hx
      refine ih (Tableau.indexed_extend hi hne hleaf) h' hnodup fun l hl => ?_
      obtain ⟨k, above, hb, rfl, ha⟩ := hunder l (List.mem_cons_of_mem _ hl)
      refine ⟨k, above, (Tableau.mem_branches_extend hi hne hleaf).2 (Or.inl ⟨hb, ?_⟩), rfl, ha⟩
      rw [endsIn_cons, List.mem_singleton]
      exact fun heq => hnotin (heq ▸ hl)

theorem map_touch (h : Derived second t) {t' : Tableau} {id : Nat} {done : Bool}
    (htree : t'.tree = t.tree.map (Tableau.touch id x done)) : Derived second t' := by
  refine h.of_rel ?_
  rw [htree, Tree.toForest_map]
  exact .of_map (Node.continues_touch id x done) _

/-- A rule applied below the open leaves under its node. -/
theorem applied (hvalid : Valid t) (h : Derived second t) (hn : n ∈ t.tree.labels)
    (he : n.signed.expansion x = some e) (hx : n.kind.isQuantified = true → ∃ y, x = some y) :
    ∃ second', Derived second' (t.applied n x e (t.openLeavesBelow n.id)) := by
  have htouch := Tableau.sameJudgement_touch n.id x false
  have hinstances : (Tableau.touch n.id x false n).kind.isQuantified = true →
      ∃ y ∈ (Tableau.touch n.id x false n).instances, x = some y := by
    intro hkind
    rw [Node.kind, htouch.signed] at hkind
    obtain ⟨y, rfl⟩ := hx hkind
    refine ⟨y, ?_, rfl⟩
    rw [Tableau.touch, if_pos rfl]
    exact Term.mem_enter.2 (Or.inr rfl)
  have hunder : ∀ l ∈ t.openLeavesBelow n.id, ∃ leaf up, leaf :: up ∈ (t.enterTerm n.id x).tree.branches ∧
      leaf.id = l ∧ Tableau.touch n.id x false n ∈ leaf :: up := by
    intro l hl
    obtain ⟨leaf, up, hb, hid, _, m, hm, hmid⟩ := (Tableau.mem_openLeavesBelow hvalid.numbered hvalid.agree).1 hl
    obtain rfl := hvalid.numbered.eq_of_id_eq (Tree.mem_labels_of_mem_branch hb hm) hn hmid
    have hmem : (leaf :: up).map (Tableau.touch m.id x false) ∈ (t.enterTerm m.id x).tree.branches := by
      rw [Tableau.branches_enterTerm]
      exact List.mem_map_of_mem hb
    exact ⟨_, _, hmem, (htouch.id leaf).trans hid, List.mem_map_of_mem hm⟩
  obtain ⟨second', hgrown⟩ := (h.map_touch (Tableau.tree_enterTerm t n.id x)).grow
    (Tableau.indexed_enterTerm hvalid.toIndexed n.id x) (htouch.signed n ▸ he) hinstances
    (Tableau.nodup_openLeavesBelow hvalid.numbered n.id) hunder
  rw [htouch.id] at hgrown
  exact ⟨second', hgrown.map_touch (Tableau.tree_applied t n x e _)⟩

end Derived

namespace Tableau

variable {t : Tableau}

/-- What the node with the given number was developed from. -/
def source (t : Tableau) (id : Nat) : Option Nat :=
  (t.tree.labels.find? (·.id == id)).bind Node.origin

theorem source_id (h : t.tree.Numbered) {n : Node} (hn : n ∈ t.tree.labels) : t.source n.id = n.origin := by
  rw [source, find?_key_eq_some h hn]
  rfl

theorem root_lt (hi : Indexed t) {n : Node} (hn : n ∈ t.tree.labels) (hroot : n.id ≠ t.tree.root.id) :
    t.tree.root.id < n.id := by
  obtain ⟨b, hb, hnb⟩ := Tree.exists_branch_of_mem_labels hn
  obtain ⟨c, rfl⟩ := Forest.suffix_of_mem_branches_toForest hb
  rcases List.mem_append.1 hnb with hnc | hnr
  · exact (List.pairwise_append.1 (hi.ordered _ hb)).2.2 n hnc _ List.mem_cons_self
  · rw [List.mem_singleton.1 hnr] at hroot
    exact absurd rfl hroot

/-- Numbers grow downward, so what stands above its dependents is older. -/
theorem linked_of_sourced {R : Node → Node → Prop} (h : Valid t) (hsourced : t.tree.toForest.Sourced R)
    (hR : ∀ a ∈ t.tree.labels, ∀ n, R a n → a.kind.isLiteral = false) : t.tree.toForest.Linked t.source where
  nodup := h.numbered
  origin n hn := (source_id h.numbered hn).symm
  sourced := by
    intro pre n up hb m hm
    obtain ⟨a, ha, hid, hRn⟩ := hsourced pre n up hb m hm
    have hmem := Forest.mem_labels_of_mem_branch hb (List.mem_append_right _ (List.mem_cons_of_mem _ ha))
    have hordered := List.pairwise_cons.1 (List.pairwise_append.1 (h.ordered _ hb)).2.1
    exact ⟨a, ha, hid, hR a hmem n hRn, hordered.1 a ha⟩

/-- There are no more nodes as young as a given one than there are below the root. -/
theorem youngerCount_le_size (hi : Indexed t) {n : Node} (hn : n ∈ t.tree.labels) (hroot : n.id ≠ t.tree.root.id) :
    t.tree.toForest.youngerCount n.id ≤ t.tree.below.size := by
  have hlt := root_lt hi hn hroot
  have hlabels : t.tree.toForest.labels = t.tree.root :: t.tree.below.labels := by
    simp [Tree.toForest, Forest.labels]
  rw [Forest.youngerCount, hlabels, List.countP_cons_of_neg (by simpa using hlt), ← Forest.length_labels]
  exact List.countP_le_length

theorem exists_size_eq (hi : Indexed t) {n : Node} (hn : n ∈ t.tree.labels) (hroot : n.id ≠ t.tree.root.id) :
    ∃ generations, t.tree.below.size = generations + 1 :=
  Nat.exists_eq_add_one.2 ((Forest.youngerCount_pos hn).trans_le (youngerCount_le_size hi hn hroot))

/-- A removal below the root is a removal in the whole tree. -/
theorem toForest_excised (h : t.tree.Numbered) {id : Nat} (hroot : id ≠ t.tree.root.id) :
    (t.excised id).tree.toForest = t.tree.toForest.exciseWithin t.tree.below.size id := by
  have hothers : ∀ m ∈ t.tree.below.labels, m.id ≠ t.tree.root.id := by
    simp only [Tree.Numbered, Tree.labels, Tree.toForest, Forest.labels, List.append_nil, List.map_cons,
      List.nodup_cons, List.mem_map, not_exists, not_and] at h
    exact h.1
  exact (Forest.exciseWithin_cons hothers (Ne.symm hroot)).symm

/-- The only child of its parent has no siblings. -/
theorem families_lone (h : t.tree.Numbered) {id : Nat} (honly : ∀ p ∈ t.parent id, t.children p = [id]) :
    t.tree.toForest.Families (Forest.Lone fun n => n.id == id) := by
  refine (Forest.families_iff_sites []).2 fun s hs n hn hid => ?_
  have hid := beq_iff_eq.1 hid
  have hs : s ∈ t.tree.sites := hs
  have hchildren := children_site h hs
  have hmem : id ∈ t.children s.tree.root.id := by
    rw [hchildren, ← hid]
    exact List.mem_map_of_mem hn
  rw [honly _ (parent_of_mem_children h hmem).1] at hchildren
  obtain ⟨m, rest, hroots, rfl, hrest⟩ := List.map_eq_cons_iff.1 hchildren.symm
  rw [List.map_eq_nil_iff.1 hrest] at hroots
  rw [hroots] at hn ⊢
  rw [List.mem_singleton.1 hn]

end Tableau

namespace Derived

variable {second : Nat → Bool} {t : Tableau} {id : Nat}

theorem linked (hvalid : Valid t) (h : Derived second t) : t.tree.toForest.Linked t.source := by
  refine Tableau.linked_of_sourced hvalid h.sourced fun a ha n hyields => ?_
  obtain ⟨x, e, he, _⟩ := hyields
  rw [← Bool.not_eq_true]
  intro hliteral
  rw [Signed.expansion_of_isLiteral (hvalid.settled a ha).folded hliteral] at he
  cases he

theorem source_root (hvalid : Valid t) (h : Derived second t) : t.source t.tree.root.id = none := by
  rw [Tableau.source_id hvalid.numbered t.tree.root_mem_labels]
  cases horigin : t.tree.root.origin with
  | none => rfl
  | some m =>
      obtain ⟨b, hb⟩ := List.exists_mem_of_ne_nil _ t.tree.branches_ne_nil
      obtain ⟨c, rfl⟩ := Forest.suffix_of_mem_branches_toForest hb
      obtain ⟨a, ha, _⟩ := h.sourced c t.tree.root [] hb m horigin
      cases ha

/-- The tree after a removal: second siblings developed from the node or a dependent are pruned, then the node and its
dependents are spliced out. -/
theorem tree_excised (hvalid : Valid t) (h : Derived second t) {n : Node} (hn : n ∈ t.tree.labels)
    (hroot : n.id ≠ t.tree.root.id) : (t.excised n.id).tree.toForest =
      t.tree.toForest.cut t.source second (Depends t.source [n.id]) (Depends t.source [n.id]) := by
  rw [Tableau.toForest_excised hvalid.numbered hroot]
  exact Forest.exciseWithin_eq (h.linked hvalid) h.split (Tableau.youngerCount_le_size hvalid.toIndexed hn hroot)

section Excised

variable {n : Node} (hvalid : Valid t) (h : Derived second t)
include hvalid h

theorem not_depends_root (hroot : n.id ≠ t.tree.root.id) : ¬ Depends t.source [n.id] t.tree.root.id := by
  intro hdepends
  cases hdepends with
  | start hid => exact hroot (List.mem_singleton.1 hid).symm
  | step hsource _ =>
      rw [h.source_root hvalid] at hsource
      cases hsource

/-- A node without siblings and its dependents have no siblings, once the second siblings that go with them are gone. -/
theorem lone_dependents (honly : ∀ p ∈ t.parent n.id, t.children p = [n.id]) :
    (t.tree.toForest.prune (Forest.secondOf t.source second (Depends t.source [n.id]))).Families
      (Forest.Lone (Forest.among (Depends t.source [n.id]))) := by
  have hdependents := Forest.lone_prune (T := Depends t.source [n.id])
    (U := fun k => ∃ m, t.source k = some m ∧ Depends t.source [n.id] m) (h.linked hvalid) h.split fun _ hk => hk
  have hself := (Tableau.families_lone hvalid.numbered honly).prune
    (p := Forest.secondOf t.source second (Depends t.source [n.id])) fun l hl => hl.filter _
  refine (hdependents.and hself).imp fun l _ ⟨hdependents, hself⟩ k hk hU => ?_
  cases Forest.among_iff.1 hU with
  | start hid => exact hself k hk (beq_iff_eq.2 (List.mem_singleton.1 hid))
  | step hsource hm => exact hdependents k hk (Forest.among_iff.2 ⟨_, hsource, hm⟩)

/-- Where the left side is chosen for whatever goes, a branch loses no second side, and what is left of it keeps to the
sides that are chosen for the rest. -/
theorem covered_excised (hn : n ∈ t.tree.labels) (hroot : n.id ≠ t.tree.root.id)
    (honly : ∀ p ∈ t.parent n.id, t.children p = [n.id]) (right : Nat → Bool) :
    ∃ b ∈ (t.excised n.id).tree.branches, Follows second right b := by
  classical
  obtain ⟨chosen, hgone, hrest⟩ : ∃ chosen : Nat → Bool, (∀ m, Depends t.source [n.id] m → chosen m = false) ∧
      ∀ m, ¬ Depends t.source [n.id] m → chosen m = right m :=
    ⟨fun m => if Depends t.source [n.id] m then false else right m, fun _ hm => if_pos hm, fun _ hm => if_neg hm⟩
  obtain ⟨b, hb, hfollows⟩ := h.covered chosen
  have hsource : ∀ k ∈ b, k.origin = t.source k.id := fun k hk =>
    (h.linked hvalid).origin k (Tree.mem_labels_of_mem_branch hb hk)
  refine ⟨b.filter fun k => !Forest.among (Depends t.source [n.id]) k, ?_, ?_⟩
  · rw [Tree.branches, h.tree_excised hvalid hn hroot]
    refine Forest.mem_branches_cut (h.lone_dependents hvalid honly)
      (fun r hr => List.mem_singleton.1 hr ▸ h.not_depends_root hvalid hroot) hb fun k hk => ?_
    refine Forest.secondOf_eq_false_iff.2 fun hsecond m hm hdepends => ?_
    have hright := (hfollows k hk m ((hsource k hk).trans hm)).1 hsecond
    rw [hgone m hdepends] at hright
    cases hright
  · intro k hk m hm
    obtain ⟨hkb, hU⟩ := List.mem_filter.1 hk
    have hnot : ¬ Depends t.source [n.id] m := by
      intro hdepends
      have hdepends : Depends t.source [n.id] k.id := .step ((hsource k hkb).symm.trans hm) hdepends
      rw [Forest.among_iff.2 hdepends] at hU
      cases hU
    have hside := hfollows k hkb m hm
    rw [hrest m hnot] at hside
    exact ⟨hside.1, fun a ha => hside.2 a (List.mem_of_mem_filter ha)⟩

/-- A node without siblings may be removed. -/
theorem excised (hn : n ∈ t.tree.labels) (hroot : n.id ≠ t.tree.root.id)
    (honly : ∀ p ∈ t.parent n.id, t.children p = [n.id]) : Derived second (t.excised n.id) where
  sourced := by
    rw [h.tree_excised hvalid hn hroot]
    exact h.sourced.cut (h.linked hvalid).origin fun _ _ hsource hm => .step hsource hm
  split := by
    rw [h.tree_excised hvalid hn hroot]
    exact Forest.split_cut h.split (h.lone_dependents hvalid honly)
  covered := h.covered_excised hvalid hn hroot honly

end Excised

theorem remove (hvalid : Valid t) (h : Derived second t) (honly : ∀ p ∈ t.parent id, t.children p = [id]) :
    Derived second (t.remove id).2 := by
  rcases Tableau.remove_cases t id with ⟨_, _, heq⟩ | ⟨_, heq⟩ | ⟨n, hnode, hroot, heq⟩
  · rw [heq]
    exact h
  · rw [heq]
    exact h
  · rw [heq]
    obtain ⟨hn, rfl⟩ := Tableau.node_eq_ok hnode
    refine closesTo (t := (t.excised n.id).cleared) ?_ (Tableau.closesTo_closeBranches _ _)
    refine (h.excised hvalid hn hroot honly).of_rel ?_
    rw [Tableau.cleared, Tree.toForest_map]
    exact .of_map (fun m => ⟨rfl, rfl, rfl, fun _ hx => hx⟩) _

end Derived

end Tableaux
