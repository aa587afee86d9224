import Mathlib
import Tableaux.Proofs.Derivation
import Tableaux.Proofs.Premises

/-!
Causes. A node that was developed from another stands below it for as long as it is in the tree, whatever is removed.
A removal looks for what was developed from a node only below the node, and takes it away one after the other while
the tree is changing; since what is left keeps its order from the leaves upward, nothing escapes it. So after a
removal nothing is left that goes back to a removed node.
-/

namespace Tableaux

namespace Forest

variable {f g : Forest Node} {source : Nat → Option Nat} {id : Nat}

/-- The first node stands above the second on some branch. -/
def Above (f : Forest Node) (a n : Node) : Prop :=
  ∃ b ∈ f.branches [], [n, a].Sublist b

theorem Shrinks.above (h : f.Shrinks g) {a n : Node} (ha : g.Above a n) : f.Above a n := by
  obtain ⟨b, hb, hsub⟩ := ha
  obtain ⟨c, hc, hbc⟩ := h.branches b hb
  exact ⟨c, hc, hsub.trans hbc⟩

theorem above_of_mem_branch {pre up : List Node} {a n : Node} (hb : pre ++ n :: up ∈ f.branches []) (ha : a ∈ up) :
    f.Above a n :=
  ⟨_, hb, ((List.singleton_sublist.2 ha).cons_cons n).trans (List.sublist_append_right _ _)⟩

/-- A node stands above exactly those that are below its place. -/
theorem above_iff (h : (f.labels.map Node.id).Nodup) {s : Site Node} (hs : s ∈ f.sites []) {n : Node} :
    f.Above s.tree.root n ↔ n ∈ s.tree.below.labels := by
  constructor
  · rintro ⟨b, hb, hsub⟩
    obtain ⟨lower, upper, rfl, hn, hroot⟩ := List.cons_sublist_iff.1 hsub
    obtain ⟨mid, top, rfl⟩ := List.append_of_mem (List.singleton_sublist.1 hroot)
    rw [← List.append_assoc] at hb
    obtain ⟨s', hs', hid, rfl, hmem⟩ := exists_site_of_mem_branches hb List.nil_suffix
    obtain rfl := site_eq_of_id_eq h hs' hs (congrArg Node.id hid)
    rw [branches_eq_map, List.mem_map] at hmem
    obtain ⟨c, hc, heq⟩ := hmem
    have heq : c ++ s'.above = lower ++ mid ++ [s'.tree.root] ++ s'.above := by simpa using heq
    have heq := List.append_cancel_right heq
    rcases mem_branches_cons.1 hc with ⟨_, rfl⟩ | ⟨d, hd, rfl⟩ | hc
    · have hlength := congrArg List.length heq
      simp only [List.length_append, List.length_singleton] at hlength
      have hpos := List.length_pos_of_mem hn
      omega
    · rw [List.append_cancel_right heq] at hd
      exact mem_labels_of_mem_branch hd (List.mem_append_left _ hn)
    · cases hc
  · intro hn
    obtain ⟨c, hc, hnc⟩ := exists_branch_of_mem_labels hn
    have hc : c ++ s.tree.root :: s.above ∈ s.tree.toForest.branches s.above := by
      rw [branches_eq_map, List.mem_map]
      exact ⟨c ++ [s.tree.root], mem_branches_cons.2 (Or.inr (Or.inl ⟨c, hc, rfl⟩)), by simp⟩
    exact ⟨_, mem_branches_of_site hs hc, (List.singleton_sublist.2 hnc).append
      (List.singleton_sublist.2 List.mem_cons_self)⟩

theorem above_cons {below beside : Forest Node} {r a n : Node} :
    (cons r below beside).Above a n ↔ (a = r ∧ n ∈ below.labels) ∨ below.Above a n ∨ beside.Above a n := by
  constructor
  · rintro ⟨b, hb, hsub⟩
    rcases mem_branches_cons.1 hb with ⟨_, rfl⟩ | ⟨c, hc, rfl⟩ | hb
    · exact absurd hsub.length_le (by simp)
    · obtain ⟨lower, upper, heq, hlower, hupper⟩ := List.sublist_append_iff.1 hsub
      rcases List.sublist_singleton.1 hupper with rfl | rfl
      · rw [List.append_nil] at heq
        exact Or.inr (Or.inl ⟨c, hc, heq ▸ hlower⟩)
      · have heq : [n] ++ [a] = lower ++ [r] := heq
        obtain ⟨rfl, hr⟩ := List.append_inj' heq rfl
        exact Or.inl ⟨List.singleton_inj.1 hr, mem_labels_of_mem_branch hc (List.singleton_sublist.1 hlower)⟩
    · exact Or.inr (Or.inr ⟨b, hb, hsub⟩)
  · rintro (⟨rfl, hn⟩ | ⟨b, hb, hsub⟩ | ⟨b, hb, hsub⟩)
    · obtain ⟨b, hb, hnb⟩ := exists_branch_of_mem_labels hn
      exact ⟨b ++ [a], mem_branches_cons.2 (Or.inr (Or.inl ⟨b, hb, rfl⟩)),
        (List.singleton_sublist.2 hnb).append (List.Sublist.refl [a])⟩
    · exact ⟨_, mem_branches_cons.2 (Or.inr (Or.inl ⟨b, hb, rfl⟩)), hsub.trans (List.sublist_append_left _ _)⟩
    · exact ⟨b, mem_branches_cons.2 (Or.inr (Or.inr hb)), hsub⟩

theorem above_append {a n : Node} : (f.append g).Above a n ↔ f.Above a n ∨ g.Above a n := by
  simp only [Above, branches_append, List.mem_append, or_and_right, exists_or]

/-- What pruning takes away is below something that is pruned. -/
theorem exists_pruned {p : Node → Bool} {n : Node} (hn : n ∈ f.labels) (hgone : n ∉ (f.prune p).labels) :
    ∃ k ∈ f.labels, p k = true ∧ (k = n ∨ f.Above k n) := by
  obtain ⟨b, hb, hnb⟩ := exists_branch_of_mem_labels hn
  obtain ⟨pre, up, rfl⟩ := List.append_of_mem hnb
  by_contra hnone
  refine hgone (mem_labels_prune_of_branch hb fun k hk => ?_)
  by_contra hp
  have hmem := mem_labels_of_mem_branch hb (List.mem_append_right _ hk)
  refine hnone ⟨k, hmem, Bool.not_eq_false _ ▸ hp, ?_⟩
  rcases List.mem_cons.1 hk with rfl | hk
  · exact Or.inl rfl
  · exact Or.inr (above_of_mem_branch hb hk)

theorem Above.mem_labels {a n : Node} (h : f.Above a n) : a ∈ f.labels := by
  obtain ⟨b, hb, hsub⟩ := h
  exact mem_labels_of_mem_branch hb (hsub.mem (by simp))

theorem Above.below_mem_labels {a n : Node} (h : f.Above a n) : n ∈ f.labels := by
  obtain ⟨b, hb, hsub⟩ := h
  exact mem_labels_of_mem_branch hb (hsub.mem List.mem_cons_self)

theorem Above.trans (h : (f.labels.map Node.id).Nodup) {a m n : Node} (ham : f.Above a m) (hmn : f.Above m n) :
    f.Above a n := by
  obtain ⟨s, hs, rfl⟩ := exists_site_of_mem_labels ham.mem_labels []
  obtain ⟨r, hr, rfl⟩ := exists_site_of_mem_labels ((above_iff h hs).1 ham) (s.tree.root :: s.above)
  have hn := (above_iff h (sites_below_subset hs r hr)).1 hmn
  exact (above_iff h hs).2 ((labels_below_sublist_of_mem_sites hr).mem hn)

/-- What a removal leaves of a forest before the node itself is spliced out. -/
def strip (generations id : Nat) (f : Forest Node) : Forest Node :=
  match f.find? (·.id == id) with
  | none => f
  | some (n, below) =>
      if n.kind.isLiteral then f
      else (below.dependents id).foldl (fun rest d => rest.exciseWithin generations d)
        (f.prune fun m => (below.doomed id below.secondOfTwo).contains m.id)

/-- The forest without the second siblings that go with the node at the given place. -/
def pruneDoomed (s : Site Node) (f : Forest Node) : Forest Node :=
  f.prune fun m => (s.tree.below.doomed s.tree.root.id s.tree.below.secondOfTwo).contains m.id

theorem exciseWithin_succ (generations id : Nat) (f : Forest Node) :
    f.exciseWithin (generations + 1) id = (f.strip generations id).splice (·.id == id) := by
  rw [exciseWithin, strip]
  cases hfind : f.find? (·.id == id) with
  | none => exact (splice_of_forall_not fun n hn => beq_false_of_ne (find?_eq_none_iff.1 hfind n hn)).symm
  | some found => rfl

/-- Nothing is stripped off a node that is not there or a literal; else the second siblings are pruned and the
dependents removed one after the other. -/
theorem strip_cases (generations id : Nat) (f : Forest Node) :
    (f.strip generations id = f ∧
      ((∀ n ∈ f.labels, n.id ≠ id) ∨ ∃ n ∈ f.labels, n.id = id ∧ n.kind.isLiteral = true)) ∨
    ∃ s ∈ f.sites [], s.tree.root.id = id ∧ f.strip generations id =
      (s.tree.below.dependents id).foldl (fun rest d => rest.exciseWithin generations d) (f.pruneDoomed s) := by
  rw [strip]
  cases hfind : f.find? (·.id == id) with
  | none => exact Or.inl ⟨rfl, Or.inl (find?_eq_none_iff.1 hfind)⟩
  | some found =>
      obtain ⟨s, hs, rfl, rfl⟩ := exists_site_of_find? hfind
      cases hliteral : s.tree.root.kind.isLiteral with
      | true => exact Or.inl ⟨if_pos hliteral, Or.inr ⟨_, mem_labels_of_mem_sites hs, rfl, hliteral⟩⟩
      | false => exact Or.inr ⟨s, hs, rfl, if_neg (by simp [hliteral])⟩

theorem Shrinks.foldl_exciseWithin (generations : Nat) (deps : List Nat) (f : Forest Node) :
    f.Shrinks (deps.foldl (fun rest d => rest.exciseWithin generations d) f) := by
  induction deps generalizing f with
  | nil => exact .refl f
  | cons d deps ih => exact (Shrinks.exciseWithin generations d f).trans (ih _)

theorem Linked.prune (h : f.Linked source) (p : Node → Bool) : (f.prune p).Linked source where
  nodup := ((Shrinks.prune p f).labels.map Node.id).nodup h.nodup
  origin n hn := h.origin n ((Shrinks.prune p f).labels.mem hn)
  sourced := h.sourced.prune p

/-- A node may be spliced out that nothing was developed from. -/
theorem Linked.splice (h : f.Linked source) (hnone : ∀ n ∈ f.labels, source n.id ≠ some id) :
    (f.splice (·.id == id)).Linked source where
  nodup := ((Shrinks.splice _ f).labels.map Node.id).nodup h.nodup
  origin n hn := h.origin n ((Shrinks.splice _ f).labels.mem hn)
  sourced := by
    refine h.sourced.splice fun n hn a _ horigin ha => ?_
    rw [h.origin n hn, beq_iff_eq.1 ha] at horigin
    exact absurd horigin (hnone n hn)

/-- Dependents that are removed one after the other are all gone in the end, if each removal takes its node away. -/
theorem Linked.foldl_exciseWithin {generations : Nat} {deps : List Nat} (h : g.Linked source)
    (hexcise : ∀ {g' : Forest Node} {d : Nat}, g'.Linked source → g.Shrinks g' → d ∈ deps →
      (g'.exciseWithin generations d).Linked source ∧ ∀ n ∈ (g'.exciseWithin generations d).labels, n.id ≠ d) :
    (deps.foldl (fun rest d => rest.exciseWithin generations d) g).Linked source ∧
      ∀ n ∈ (deps.foldl (fun rest d => rest.exciseWithin generations d) g).labels, n.id ∉ deps := by
  induction deps generalizing g with
  | nil => exact ⟨h, fun _ _ hn => by cases hn⟩
  | cons d deps ih =>
      obtain ⟨hlinked, hgone⟩ := hexcise h (.refl g) List.mem_cons_self
      obtain ⟨hlinked', hgone'⟩ := ih hlinked fun hg hshrinks hd =>
        hexcise hg ((Shrinks.exciseWithin generations d g).trans hshrinks) (List.mem_cons_of_mem _ hd)
      refine ⟨hlinked', fun n hn hmem => ?_⟩
      rcases List.mem_cons.1 hmem with hid | hmem
      · exact hgone n ((Shrinks.foldl_exciseWithin generations deps _).labels.mem hn) hid
      · exact hgone' n hn hmem

theorem Shrinks.strip (generations id : Nat) (f : Forest Node) : f.Shrinks (f.strip generations id) := by
  rcases strip_cases generations id f with ⟨heq, _⟩ | ⟨s, _, _, heq⟩
  · rw [heq]
    exact .refl f
  · rw [heq]
    exact (Shrinks.prune _ f).trans (Shrinks.foldl_exciseWithin generations _ _)

/-- If the removals of the dependents take them away, then what is left of the forest has nothing that was developed
from the node. -/
theorem Linked.strip_of_exciseWithin {generations : Nat} (h : f.Linked source)
    (hg : f.youngerCount id ≤ generations + 1)
    (hexcise : ∀ {g : Forest Node} {d : Nat}, g.Linked source → g.youngerCount d ≤ generations →
      (g.exciseWithin generations d).Linked source ∧ ∀ n ∈ (g.exciseWithin generations d).labels, n.id ≠ d) :
    (f.strip generations id).Linked source ∧ ∀ n ∈ (f.strip generations id).labels, source n.id ≠ some id := by
  have hsub := (Shrinks.strip generations id f).labels
  rcases strip_cases generations id f with ⟨heq, hnone⟩ | ⟨s, hs, rfl, heq⟩
  · rw [heq]
    refine ⟨h, fun n hn hsource => ?_⟩
    obtain ⟨a, ha, hid, hliteral, _⟩ := h.exists_source hn hsource
    rcases hnone with hnone | ⟨k, hk, hkid, hkliteral⟩
    · exact hnone a ha hid
    · exact h.source_ne_of_literal hk hkliteral n hn (hkid ▸ hsource)
  · rw [heq] at hsub ⊢
    have hdeps : ∀ d ∈ s.tree.below.dependents s.tree.root.id, s.tree.root.id < d := by
      intro d hd
      obtain ⟨⟨n, hn, rfl⟩, hsource⟩ := (h.mem_dependents hs).1 hd
      obtain ⟨_, _, _, _, hlt⟩ := h.exists_source hn hsource
      exact hlt
    obtain ⟨hlinked, hgone⟩ := (h.prune _).foldl_exciseWithin fun hg' hshrinks hd =>
      hexcise hg' (Nat.le_of_lt_succ ((youngerCount_lt ((Shrinks.prune _ f).trans hshrinks)
        (mem_labels_of_mem_sites hs) (hdeps _ hd)).trans_le hg))
    exact ⟨hlinked, fun n hn hsource => hgone n hn ((h.mem_dependents hs).2 ⟨⟨n, hsub.mem hn, rfl⟩, hsource⟩)⟩

/-- With enough generations a removal takes the node away, and with it whatever would be left without its source. -/
theorem Linked.exciseWithin (h : f.Linked source) {generations : Nat} (hg : f.youngerCount id ≤ generations) :
    (f.exciseWithin generations id).Linked source ∧ ∀ n ∈ (f.exciseWithin generations id).labels, n.id ≠ id := by
  induction generations generalizing f id with
  | zero =>
      refine ⟨h, fun n hn hid => ?_⟩
      have hzero := List.countP_eq_zero.1 (Nat.le_zero.1 hg) n hn
      simp [hid] at hzero
  | succ generations ih =>
      obtain ⟨hlinked, hnone⟩ := h.strip_of_exciseWithin hg fun hg' hcount => ih hg' hcount
      rw [exciseWithin_succ]
      refine ⟨hlinked.splice hnone, fun n hn hid => ?_⟩
      rw [labels_splice, List.mem_filter] at hn
      simp [hid] at hn

theorem Linked.strip (h : f.Linked source) {generations : Nat} (hg : f.youngerCount id ≤ generations + 1) :
    (f.strip generations id).Linked source ∧ ∀ n ∈ (f.strip generations id).labels, source n.id ≠ some id :=
  h.strip_of_exciseWithin hg fun hg' hcount => hg'.exciseWithin hcount

/-- Where every source is left, it is as it was. -/
theorem Sourced.of_shrinks {R : Node → Node → Prop} (h : f.Sourced R) (hlinked : f.Linked source)
    (hshrinks : f.Shrinks g) (hlinked' : g.Linked source) : g.Sourced R := by
  intro pre n up hb m hm
  obtain ⟨a, ha, rfl, _⟩ := hlinked'.sourced pre n up hb m hm
  obtain ⟨c, hc, hsub⟩ := hshrinks.branches _ hb
  obtain ⟨pre', up', rfl⟩ := List.append_of_mem (hsub.mem (by simp : n ∈ pre ++ n :: up))
  obtain ⟨a', ha', hid, hR⟩ := h pre' n up' hc a.id hm
  have hmem : a ∈ f.labels := hshrinks.labels.mem (mem_labels_of_mem_branch hb (by simp [ha]))
  have hmem' : a' ∈ f.labels := mem_labels_of_mem_branch hc (by simp [ha'])
  rw [List.inj_on_of_nodup_map hlinked.nodup hmem' hmem hid] at hR
  exact ⟨a, ha, rfl, hR⟩

end Forest

/-- The rule of the node has been applied: the node is no literal, and it is ticked unless it is reusable. -/
def Node.Developed (n : Node) : Prop :=
  n.kind.isLiteral = false ∧ (n.ticked = true ∨ n.kind.isReusable = true)

/-- What a node was developed from stands above it and has been developed. -/
def Caused (t : Tableau) : Prop :=
  t.tree.toForest.Sourced fun a _ => a.Developed

namespace Node.Developed

variable {n m : Node}

theorem marked (h : n.Developed) (hnm : n.MarkedTo m) : m.Developed := by
  rw [Developed, Node.kind, hnm.signed, hnm.ticked]
  exact h

theorem touch (h : n.Developed) (id : Nat) (x : Option Term) (done : Bool) : (Tableau.touch id x done n).Developed := by
  rw [Developed, Node.kind, (Tableau.sameJudgement_touch id x done).signed]
  refine ⟨h.1, h.2.imp_left fun hticked => ?_⟩
  rw [Tableau.touch]
  split
  · exact Bool.or_eq_true_iff.2 (Or.inl hticked)
  · exact hticked

/-- A rule has been applied to the node that is touched by it. -/
theorem touch_self {x : Option Term} {e : Expansion} (hfold : n.signed.fold = n.signed)
    (hexpansion : n.signed.expansion x = some e) : (Tableau.touch n.id x (!n.kind.isReusable) n).Developed := by
  have hkind : (Tableau.touch n.id x (!n.kind.isReusable) n).kind = n.kind := by
    rw [Node.kind, (Tableau.sameJudgement_touch _ _ _).signed, Node.kind]
  rw [Developed, hkind, Tableau.touch, if_pos rfl]
  constructor
  · rw [← Bool.not_eq_true]
    intro hliteral
    rw [Signed.expansion_of_isLiteral hfold hliteral] at hexpansion
    cases hexpansion
  · cases n.kind.isReusable with
    | true => exact Or.inr rfl
    | false => exact Or.inl (Bool.or_true _)

end Node.Developed

namespace Caused

variable {t t' : Tableau}

theorem linked (hvalid : Valid t) (h : Caused t) : t.tree.toForest.Linked t.source :=
  Tableau.linked_of_sourced hvalid h fun _ _ _ hdeveloped => hdeveloped.1

theorem closesTo (h : Caused t) (hcloses : t.ClosesTo t') : Caused t' :=
  Forest.Sourced.of_rel h hcloses.tree (fun _ _ hnm => ⟨hnm.id, hnm.origin⟩) fun _ _ _ _ ha _ hdeveloped =>
    hdeveloped.marked ha

theorem start (o : Options) (s : Signed) : Caused (.start o s) := by
  intro pre n up hb m hm
  have hn : n ∈ (Tableau.start o s).tree.labels := Forest.mem_labels_of_mem_branch hb (by simp)
  rw [Tableau.labels_start, List.mem_singleton] at hn
  rw [hn] at hm
  cases hm

theorem stated (hvalid : Valid t) (h : Caused t) {s : Signed} {leaf : Node} {up : List Node}
    (hpath : t.tree.branches = [leaf :: up]) : Caused (t.stated s leaf.id) := by
  intro pre n above hb m hm
  have hb : pre ++ n :: above ∈ (t.stated s leaf.id).tree.branches := hb
  rw [Tableau.branches_stated hvalid.numbered s hpath, List.mem_singleton] at hb
  cases pre with
  | nil =>
      rw [(List.cons.inj hb).1] at hm
      cases hm
  | cons k pre =>
      have hold : pre ++ n :: above ∈ t.tree.branches := by
        rw [hpath, List.mem_singleton]
        exact (List.cons.inj hb).2
      exact h pre n above hold m hm

/-- The new nodes stand below the developed one, the old ones below what they stood below. -/
theorem applied {n : Node} {x : Option Term} {e : Expansion} (hvalid : Valid t) (h : Caused t)
    (hn : n ∈ t.tree.labels) (hexpansion : n.signed.expansion x = some e)
    (happlied : Applied n x e (t.openLeavesBelow n.id) t t') : Caused t' := by
  have htouch := Tableau.sameJudgement_touch n.id x !n.kind.isReusable
  have hold : ∀ b ∈ t.tree.branches, ∀ pre k up, pre ++ k :: up = b.map (Tableau.touch n.id x !n.kind.isReusable) →
      ∀ m, k.origin = some m → ∃ a ∈ up, a.id = m ∧ a.Developed := by
    intro b hb pre k up heq m hm
    obtain ⟨pre₀, rest₀, rfl, rfl, hrest⟩ := List.map_eq_append_iff.1 heq.symm
    obtain ⟨k₀, up₀, rfl, rfl, rfl⟩ := List.map_eq_cons_iff.1 hrest
    obtain ⟨a, ha, rfl, hdeveloped⟩ := h pre₀ k₀ up₀ hb m ((Node.continues_touch _ _ _ k₀).origin ▸ hm)
    exact ⟨_, List.mem_map_of_mem ha, htouch.id a, hdeveloped.touch _ _ _⟩
  intro pre k up hb' m hm
  obtain ⟨b, hb, ⟨_, heq⟩ | ⟨hends, chain, _, id, _, heq⟩⟩ := happlied.source _ hb'
  · exact hold b hb pre k up heq m hm
  · rcases List.append_eq_append_iff.1 heq with ⟨d, hchain, hd⟩ | ⟨d, _, hd⟩
    · cases d with
      | nil => exact hold b hb [] k up hd m hm
      | cons j d =>
          obtain ⟨rfl, rfl⟩ := List.cons.inj hd
          have hnew : k ∈ (Node.ofChain n.id id chain).reverse := hchain ▸ by simp
          obtain ⟨s, _, hk⟩ := Node.exists_of_mem_ofChain (List.mem_reverse.1 hnew)
          rw [hk] at hm
          have hnb := (Tableau.mem_of_endsIn_openLeavesBelow hvalid.toCoherent hn hb hends).1
          exact ⟨_, List.mem_append_right _ (List.mem_map_of_mem hnb), (htouch.id n).trans (Option.some.inj hm),
            .touch_self (hvalid.settled n hn).folded hexpansion⟩
    · exact hold b hb d k up hd.symm m hm

/-- Causes stay above as long as nothing is removed. -/
theorem lasting : Lasting (fun _ step => ∀ id, step ≠ .remove id) fun _ t => Caused t where
  remove h := h _ rfl
  unprompted _ := fun h => by cases h
  closesTo h hcloses := h.closesTo hcloses
  sendToBack id h := by
    rw [Tableau.sendToBack_eq]
    exact h
  stated hvalid h hpath _ := h.stated hvalid hpath
  applied hvalid h hn _ hexpansion happlied := h.applied hvalid hn hexpansion happlied

/-- In the tree that a removal leaves, causes are above still. -/
theorem linked_excised {n : Node} (hvalid : Valid t) (h : Caused t) (hn : n ∈ t.tree.labels)
    (hroot : n.id ≠ t.tree.root.id) : (t.excised n.id).tree.toForest.Linked t.source := by
  rw [Tableau.toForest_excised hvalid.numbered hroot]
  exact ((h.linked hvalid).exciseWithin (Tableau.youngerCount_le_size hvalid.toIndexed hn hroot)).1

theorem remove (hvalid : Valid t) (h : Caused t) (id : Nat) : Caused (t.remove id).2 := by
  rcases Tableau.remove_cases t id with ⟨_, _, heq⟩ | ⟨_, heq⟩ | ⟨n, hnode, hroot, heq⟩
  · rw [heq]
    exact h
  · rw [heq]
    exact h
  · rw [heq]
    obtain ⟨hn, rfl⟩ := Tableau.node_eq_ok hnode
    have hexcised : Caused (t.excised n.id) := Forest.Sourced.of_shrinks h (h.linked hvalid)
      (Tableau.shrinks_excised t n.id) (h.linked_excised hvalid hn hroot)
    refine closesTo (t := (t.excised n.id).cleared) ?_ (Tableau.closesTo_closeBranches _ _)
    refine Forest.Sourced.of_rel (R := fun n m => m = Tableau.clearMarks n) hexcised ?_ ?_ ?_
    · rw [Tableau.cleared, Tree.toForest_map]
      exact .of_map (R := fun n m => m = Tableau.clearMarks n) (fun _ => rfl) _
    · rintro n _ rfl
      exact ⟨rfl, rfl⟩
    · rintro a _ n _ rfl _ hdeveloped
      exact hdeveloped

theorem perform (hvalid : Valid t) (h : Caused t) (step : Step) : Caused (t.perform step).2 := by
  cases step with
  | remove id => exact h.remove hvalid id
  | assume | develop | checkClosed | defer | search =>
      exact @Lasting.perform _ _ lasting [] t hvalid h _ fun _ h => by cases h

theorem run (o : Options) (s : Signed) (steps : List Step) : Caused ((Tableau.start o s).run steps) :=
  (Tableau.run_induction (P := fun t => Valid t ∧ Caused t)
    (fun _ step h => ⟨Tableau.valid_perform h.1 step, h.2.perform h.1 step⟩)
    ⟨Tableau.valid_start o s, start o s⟩ steps).2

end Caused

namespace Tableau

variable {t : Tableau}

/-- The next node above on a branch is the parent. -/
theorem mem_children_of_branch (h : Indexed t) {pre up : List Node} {p c : Node}
    (hb : pre ++ c :: p :: up ∈ t.tree.branches) : c.id ∈ t.children p.id := by
  obtain ⟨s, hs, rfl, habove, _⟩ := Tree.exists_site hb
  have hparent : t.parent s.tree.root.id = some p.id := by
    rw [parent_site h.numbered hs, habove]
    rfl
  have hroot : s.tree.root.id ≠ t.tree.root.id := by
    intro heq
    rw [heq, parent_root h.numbered] at hparent
    cases hparent
  obtain ⟨q, hq, _, _, hchild⟩ := exists_parent h (isLive_site h.numbered hs) hroot
  obtain rfl := Option.some.inj (hparent.symm.trans hq)
  exact hchild

theorem lt_of_mem_children (h : Indexed t) {p c : Nat} (hc : c ∈ t.children p) : p < c := by
  obtain ⟨hparent, hlive⟩ := parent_of_mem_children h.numbered hc
  have hroot : c ≠ t.tree.root.id := by
    rintro rfl
    rw [parent_root h.numbered] at hparent
    cases hparent
  obtain ⟨q, hq, _, hlt, _⟩ := exists_parent h hlive hroot
  rwa [Option.some.inj (hparent.symm.trans hq)]

/-- From a node on a branch the way down the branch goes from parent to child. -/
theorem transGen_children (h : Indexed t) {pre up : List Node} {a n : Node} (hb : pre ++ n :: up ∈ t.tree.branches)
    (ha : a ∈ up) : Relation.TransGen (fun p c => c ∈ t.children p) a.id n.id := by
  induction up generalizing pre n with
  | nil => cases ha
  | cons k up ih =>
      have hchild := mem_children_of_branch h hb
      have hb' : (pre ++ [n]) ++ k :: up ∈ t.tree.branches := by simpa using hb
      rcases List.mem_cons.1 ha with rfl | ha
      · exact .single hchild
      · exact (ih hb' ha).tail hchild

theorem transGen_of_above (h : Indexed t) {a n : Node} (habove : t.tree.toForest.Above a n) :
    Relation.TransGen (fun p c => c ∈ t.children p) a.id n.id := by
  obtain ⟨b, hb, hsub⟩ := habove
  obtain ⟨lower, upper, rfl, hn, ha⟩ := List.cons_sublist_iff.1 hsub
  obtain ⟨pre, mid, rfl⟩ := List.append_of_mem hn
  have hb : pre ++ n :: (mid ++ upper) ∈ t.tree.branches := by
    rw [Tree.branches]
    simpa using hb
  exact transGen_children h hb (List.mem_append_right _ (List.singleton_sublist.1 ha))

theorem le_of_reflTransGen_children (h : Indexed t) {a n : Nat}
    (hdown : Relation.ReflTransGen (fun p c => c ∈ t.children p) a n) : a ≤ n := by
  induction hdown with
  | refl => exact le_rfl
  | tail _ hc ih => exact ih.trans (lt_of_mem_children h hc).le

theorem lt_of_transGen_children (h : Indexed t) {a n : Nat}
    (hdown : Relation.TransGen (fun p c => c ∈ t.children p) a n) : a < n := by
  obtain ⟨c, hc, hrest⟩ := Relation.TransGen.head'_iff.1 hdown
  exact (lt_of_mem_children h hc).trans_le (le_of_reflTransGen_children h hrest)

theorem source_remove (h : Valid t) {id i : Nat} (hi : (t.remove id).2.isLive i = true) :
    (t.remove id).2.source i = t.source i := by
  have hvalid := valid_remove h id
  obtain ⟨m, hm, rfl⟩ := (isLive_iff hvalid.numbered).1 hi
  obtain ⟨n, hn, hid, _, _, horigin, _⟩ := exists_of_mem_remove hm
  rw [source_id hvalid.numbered hm, hid, source_id h.numbered hn, horigin]

end Tableau

/-- No cause is missing: what a node was developed from is in the tree, above the node, and has been developed; and
what goes back to a removed node does not survive the removal. -/
structure Causal (t : Tableau) : Prop where
  cause : ∀ n ∈ t.nodes, ∀ m, n.origin = some m → ∃ a, t.node m = .ok a ∧
    Relation.TransGen (fun p c => c ∈ t.children p) m n.id ∧
    a.kind.isLiteral = false ∧ (a.ticked = true ∨ a.kind.isReusable = true)
  remove : ∀ id, (t.remove id).1 = .ok true → ∀ n, (t.remove id).2.isLive n = true →
    ∀ m, Relation.ReflTransGen (fun c a => t.source c = some a) n m → (t.remove id).2.isLive m = true

namespace Caused

variable {t : Tableau}

theorem exists_cause (hvalid : Valid t) (h : Caused t) {n : Node} (hn : n ∈ t.tree.labels) {m : Nat}
    (hm : n.origin = some m) : ∃ a ∈ t.tree.labels, a.id = m ∧ a.Developed ∧
      Relation.TransGen (fun p c => c ∈ t.children p) m n.id := by
  obtain ⟨b, hb, hnb⟩ := Tree.exists_branch_of_mem_labels hn
  obtain ⟨pre, up, rfl⟩ := List.append_of_mem hnb
  obtain ⟨a, ha, rfl, hdeveloped⟩ := h pre n up hb m hm
  exact ⟨a, Tree.mem_labels_of_mem_branch hb (by simp [ha]), rfl, hdeveloped,
    Tableau.transGen_children hvalid.toIndexed hb ha⟩

/-- Going back from cause to cause one never leaves the tree. -/
theorem isLive_source (hvalid : Valid t) (h : Caused t) {c m : Nat} (hc : t.isLive c = true)
    (hm : t.source c = some m) : t.isLive m = true := by
  obtain ⟨n, hn, rfl⟩ := (Tableau.isLive_iff hvalid.numbered).1 hc
  rw [Tableau.source_id hvalid.numbered hn] at hm
  obtain ⟨a, ha, hid, _⟩ := h.exists_cause hvalid hn hm
  exact (Tableau.isLive_iff hvalid.numbered).2 ⟨a, ha, hid⟩

theorem causal (hvalid : Valid t) (h : Caused t) : Causal t where
  cause n hn m hm := by
    obtain ⟨a, ha, rfl, hdeveloped, hbelow⟩ :=
      h.exists_cause hvalid ((List.mergeSort_perm _ _).mem_iff.1 hn) hm
    exact ⟨a, Tableau.node_of_mem hvalid.numbered ha, hbelow, hdeveloped⟩
  remove id _ n hn m hchain := by
    induction hchain with
    | refl => exact hn
    | tail _ hsource ih =>
        rw [← Tableau.source_remove hvalid ih] at hsource
        exact isLive_source (Tableau.valid_remove hvalid id) (h.remove hvalid id) ih hsource

end Caused

/-- After every run, whatever is removed on the way, no cause is missing. -/
theorem Tableau.run_causal (o : Options) (s : Signed) (steps : List Step) : Causal ((start o s).run steps) :=
  (Caused.run o s steps).causal (valid_run o s steps)

end Tableaux
