import Mathlib
import Tableaux.Proofs.Closing
import Tableaux.Proofs.Substitution

/-!
What the parts of a development do to the bookkeeping: nodes hung below an open leaf, an instance entered, a node
ticked. A node that waits can always be developed: it is no literal, so it has a rule, and it is on an open branch.
-/

namespace Tableaux

/-- The nodes are as they are made: nothing is marked, and only literals are ticked. -/
def Forest.IsNew (new : Forest Node) : Prop :=
  ∀ n ∈ new.labels, ∃ s : Signed, n = .ofSigned n.id s n.origin

namespace Forest

theorem IsNew.unmarked {new : Forest Node} (h : new.IsNew) {n : Node} (hn : n ∈ new.labels) :
    n.branchClosed = false ∧ n.compared = false ∧ n.instances = [] := by
  obtain ⟨s, heq⟩ := h n hn
  rw [heq]
  exact ⟨rfl, rfl, rfl⟩

theorem isNew_singleton (id : Nat) (s : Signed) (origin : Option Nat) :
    (Forest.cons (.ofSigned id s origin) .nil .nil).IsNew := by
  intro n hn
  rw [List.mem_singleton.1 hn]
  exact ⟨s, rfl⟩

theorem numberedFrom_singleton (id : Nat) (s : Signed) (origin : Option Nat) :
    (Forest.cons (.ofSigned id s origin) .nil .nil).NumberedFrom id := rfl

theorem isNew_toForest (origin id : Nat) (e : Expansion) : (e.toForest origin id).IsNew := by
  intro n hn
  rw [Expansion.labels_toForest, List.mem_flatMap] at hn
  obtain ⟨p, _, hn⟩ := hn
  obtain ⟨s, _, heq⟩ := Node.exists_of_mem_ofChain hn
  refine ⟨s, heq.trans ?_⟩
  rw [heq]
  rfl

end Forest

/-- The count of open branches when one open leaf is replaced by other open leaves. -/
theorem length_filter_flatMap_leaf {leaf : Node} {leaves new : List Node} (hnodup : (leaves.map Node.id).Nodup)
    (hmem : leaf ∈ leaves) (hopen : leaf.branchClosed = false) (hnew : ∀ n ∈ new, n.branchClosed = false) :
    ((leaves.flatMap fun n => if n.id == leaf.id then new else [n]).filter fun n => !n.branchClosed).length + 1 =
      (leaves.filter fun n => !n.branchClosed).length + new.length := by
  have hsame : ∀ l : List Node, leaf.id ∉ l.map Node.id →
      (l.flatMap fun n => if n.id == leaf.id then new else [n]) = l := by
    intro l hl
    conv_rhs => rw [← List.flatMap_singleton' l]
    apply List.flatMap_congr
    intro n hn
    rw [if_neg]
    rw [beq_iff_eq]
    exact fun heq => hl (List.mem_map.2 ⟨n, hn, heq⟩)
  obtain ⟨pre, post, rfl⟩ := List.append_of_mem hmem
  rw [List.map_append, List.map_cons, List.nodup_append, List.nodup_cons] at hnodup
  obtain ⟨_, ⟨hpost, _⟩, hpre⟩ := hnodup
  have hpre : leaf.id ∉ pre.map Node.id := fun hin => hpre _ hin _ List.mem_cons_self rfl
  have hall : new.filter (fun n => !n.branchClosed) = new := by
    rw [List.filter_eq_self]
    intro n hn
    rw [hnew n hn]
    rfl
  rw [List.flatMap_append, List.flatMap_cons, hsame pre hpre, hsame post hpost, beq_self_eq_true, if_pos rfl]
  simp only [List.filter_append, List.length_append, hall, List.filter_cons, hopen, Bool.not_false, if_true,
    List.length_cons]
  omega

namespace Tableau

variable {t : Tableau} {leaf : Node} {up : List Node} {new : Forest Node}

theorem leaves_nodup (h : t.tree.Numbered) : (t.tree.leaves.map Node.id).Nodup :=
  ((Forest.leaves_sublist_labels t.tree.toForest).map Node.id).nodup h

theorem id_lt_of_mem_worklist (hi : Indexed t) (h : Marked t) {id : Nat} (hid : id ∈ t.worklist) : id < t.slots := by
  obtain ⟨n, hn, rfl, _⟩ := (h.waiting id).1 hid
  exact hi.id_lt n hn

theorem mem_pending {id : Nat} : id ∈ pending new ↔ ∃ n ∈ new.labels, n.id = id ∧ n.ticked = false := by
  simp only [pending, List.mem_map, List.mem_filter, Bool.not_eq_true']
  exact ⟨fun ⟨n, ⟨hn, hticked⟩, hid⟩ => ⟨n, hn, hid, hticked⟩, fun ⟨n, hn, hid, hticked⟩ => ⟨n, ⟨hn, hticked⟩, hid⟩⟩

theorem nodup_pending {id : Nat} (hnum : new.NumberedFrom id) : (pending new).Nodup := by
  have hsub : (pending new).Sublist (new.labels.map Node.id) := List.filter_sublist.map Node.id
  rw [hnum] at hsub
  exact hsub.nodup List.nodup_range'

/-- New nodes below an open leaf are open and wait unless they are literals. -/
theorem marked_attach (hi : Indexed t) (h : Marked t) (hleaf : leaf :: up ∈ t.tree.branches)
    (hopen : leaf.branchClosed = false) (hnum : new.NumberedFrom t.slots) (hne : new ≠ .nil) (hnew : new.IsNew) :
    Marked (t.attach leaf.id new) where
  agree := by
    rw [attach, Tree.toForest_graft]
    refine h.agree.graft (fun n hn => (hnew.unmarked hn).1) hne fun s (hs : s ∈ t.tree.toForest.sites []) hid => ?_
    have hid := beq_iff_eq.1 hid
    refine ⟨hi.numbered.below_eq_nil_of_leaf hleaf hs hid, ?_⟩
    have hmem := Tree.mem_labels_of_mem_branch hleaf List.mem_cons_self
    rw [hi.numbered.eq_of_id_eq (Forest.mem_labels_of_mem_sites hs) hmem hid]
    exact hopen
  nodup := by
    refine List.nodup_append.2 ⟨h.nodup, nodup_pending hnum, ?_⟩
    intro i hi' j hj
    obtain ⟨n, hn, rfl, _⟩ := mem_pending.1 hj
    exact Nat.ne_of_lt (Nat.lt_of_lt_of_le (id_lt_of_mem_worklist hi h hi') (hnum.id_bounds hn).1)
  waiting := by
    intro id
    have hworklist : id ∈ (t.attach leaf.id new).worklist ↔ id ∈ t.worklist ∨ id ∈ pending new := List.mem_append
    rw [hworklist, h.waiting, mem_pending]
    constructor
    · rintro (⟨n, hn, hid, hticked, hclosed⟩ | ⟨n, hn, hid, hticked⟩)
      · exact ⟨n, (mem_labels_attach hi.numbered hleaf).2 (Or.inl hn), hid, hticked, hclosed⟩
      · exact ⟨n, (mem_labels_attach hi.numbered hleaf).2 (Or.inr hn), hid, hticked, (hnew.unmarked hn).1⟩
    · rintro ⟨n, hn, hid, hticked, hclosed⟩
      rcases (mem_labels_attach hi.numbered hleaf).1 hn with hn | hn
      · exact Or.inl ⟨n, hn, hid, hticked, hclosed⟩
      · exact Or.inr ⟨n, hn, hid, hticked⟩

theorem judged_attach (hi : Indexed t) (h : Judged t) (hleaf : leaf :: up ∈ t.tree.branches) (hne : new ≠ .nil)
    (hnew : new.IsNew) : Judged (t.attach leaf.id new) where
  compared := by
    intro b hb
    rcases (mem_branches_attach hi.numbered hleaf hne).1 hb with ⟨hb, _⟩ | hb
    · exact h.compared b hb
    · rw [Forest.branches_eq_map, List.mem_map] at hb
      obtain ⟨c, hc, rfl⟩ := hb
      have hfalse : ∀ n ∈ c, n.compared = false := fun n hn =>
        (hnew.unmarked (Forest.mem_labels_of_mem_branch hc hn)).2.1
      refine List.pairwise_append.2 ⟨?_, h.compared _ hleaf, ?_⟩
      · refine List.pairwise_of_forall_mem_list ?_
        intro n hn m _ hcompared
        rw [hfalse n hn] at hcompared
        cases hcompared
      · intro n hn m _ hcompared
        rw [hfalse n hn] at hcompared
        cases hcompared
  refuted := by
    intro leaf' up' hb hclosed
    rcases (mem_branches_attach hi.numbered hleaf hne).1 hb with ⟨hb, _⟩ | hb
    · exact h.refuted leaf' up' hb hclosed
    · rw [Forest.branches_eq_map, List.mem_map] at hb
      obtain ⟨c, hc, heq⟩ := hb
      obtain ⟨n, above, rfl, _⟩ := Forest.exists_cons_of_mem_branches hc
      obtain ⟨rfl, _⟩ := List.cons.inj heq
      rw [(hnew.unmarked (Forest.mem_labels_of_mem_branch hc List.mem_cons_self)).1] at hclosed
      cases hclosed

theorem openCount_attach (hi : Indexed t) (hleaf : leaf :: up ∈ t.tree.branches) (hopen : leaf.branchClosed = false)
    (hne : new ≠ .nil) (hnew : new.IsNew) :
    (t.attach leaf.id new).tree.openCount + 1 = t.tree.openCount + new.leaves.length := by
  rw [Tree.openCount, Tree.leaves, attach, Tree.toForest_graft,
    Forest.leaves_graft hne (hi.numbered.leaf_chosen_below hleaf)]
  apply length_filter_flatMap_leaf (leaves_nodup hi.numbered) (Tree.mem_leaves_iff.2 ⟨up, hleaf⟩) hopen
  exact fun n hn => (hnew.unmarked ((Forest.leaves_sublist_labels new).mem hn)).1

/-- The node with a term among its instances. -/
def enterInstance (id : Nat) (x : Term) (n : Node) : Node :=
  if n.id = id then { n with instances := Term.enter n.instances x } else n

theorem tree_instantiate (t : Tableau) (id : Nat) (x : Term) :
    (t.instantiate id x).tree = t.tree.map (enterInstance id x) := rfl

/-- The node with the mark that it is developed. -/
def tickNode (id : Nat) (n : Node) : Node :=
  if n.id = id then { n with ticked := true } else n

theorem tree_tick (t : Tableau) (id opened : Nat) : (t.tick id opened).tree = t.tree.map (tickNode id) := rfl

/-- Nothing of a node is changed that counts for closing branches. -/
structure SameJudgement (g : Node → Node) : Prop where
  id : ∀ n, (g n).id = n.id
  signed : ∀ n, (g n).signed = n.signed
  compared : ∀ n, (g n).compared = n.compared
  branchClosed : ∀ n, (g n).branchClosed = n.branchClosed

theorem sameJudgement_tickNode (id : Nat) : SameJudgement (tickNode id) := by
  constructor <;> intro n <;> rw [tickNode] <;> split <;> rfl

namespace SameJudgement

variable {t' : Tableau} {g : Node → Node} (hg : SameJudgement g)
include hg

theorem indexed (h : Indexed t) (htree : t'.tree = t.tree.map g) (hslots : t'.slots = t.slots)
    (hcount : t'.nodeCount = t.nodeCount) : Indexed t' := by
  refine h.of_rel (R := fun n m => m = g n) ?_ ?_ hslots hcount
  · rw [htree, Tree.toForest_map]
    exact Forest.Rel.of_map (R := fun n m => m = g n) (fun n => rfl) _
  · rintro n _ rfl
    exact hg.id n

theorem judged (h : Judged t) (htree : t'.tree = t.tree.map g) : Judged t' where
  compared := by
    intro b hb
    rw [htree, Tree.branches_map, List.mem_map] at hb
    obtain ⟨c, hc, rfl⟩ := hb
    rw [List.pairwise_map]
    refine (h.compared c hc).imp ?_
    intro n m hnm
    rw [Node.contradicts, hg.signed, hg.signed, hg.compared]
    exact hnm
  refuted := by
    intro leaf up hb hclosed
    rw [htree, Tree.branches_map, List.mem_map] at hb
    obtain ⟨c, hc, heq⟩ := hb
    obtain ⟨n, above, rfl⟩ := Tree.exists_cons_of_mem_branches hc
    rw [← heq]
    obtain ⟨rfl, rfl⟩ := List.cons.inj heq
    rw [hg.branchClosed] at hclosed
    obtain ⟨n', hn', m', hm', hcontra⟩ := h.refuted n above hc hclosed
    refine ⟨_, List.mem_map_of_mem hn', _, List.mem_map_of_mem hm', ?_⟩
    rw [Node.contradicts, hg.signed, hg.signed]
    exact hcontra

theorem openCount (tree : Tree Node) : (tree.map g).openCount = tree.openCount :=
  openCount_map hg.branchClosed tree

end SameJudgement

theorem marked_instantiate (h : Marked t) (id : Nat) (x : Term) : Marked (t.instantiate id x) := by
  refine marked_of_map h (tree_instantiate t id x) rfl ?_
  intro n
  rw [enterInstance]
  split <;> exact ⟨rfl, rfl, rfl⟩

theorem marked_tick (h : Marked t) (id opened : Nat) : Marked (t.tick id opened) where
  agree := by
    rw [tree_tick, Tree.toForest_map]
    exact h.agree.map (sameJudgement_tickNode id).branchClosed
  nodup := h.nodup.erase id
  waiting := by
    intro i
    have hworklist : i ∈ (t.tick id opened).worklist ↔ i ≠ id ∧ i ∈ t.worklist := h.nodup.mem_erase_iff
    rw [hworklist, h.waiting, tree_tick, Tree.labels_map]
    constructor
    · rintro ⟨hne, n, hn, rfl, hticked, hclosed⟩
      refine ⟨tickNode id n, List.mem_map_of_mem hn, ?_⟩
      rw [tickNode, if_neg hne]
      exact ⟨rfl, hticked, hclosed⟩
    · rintro ⟨m, hm, rfl, hticked, hclosed⟩
      obtain ⟨n, hn, rfl⟩ := List.mem_map.1 hm
      rw [tickNode] at *
      split at hticked
      · cases hticked
      · rename_i hne
        rw [if_neg hne] at hclosed ⊢
        exact ⟨hne, n, hn, rfl, hticked, hclosed⟩

end Tableau

/-- What a node always is: no true negation, ticked if it is a literal and never if it is reusable, with a formula
and instances that the tableau knows of. -/
structure Node.Settled (terms names : List Term) (n : Node) : Prop where
  folded : n.signed.fold = n.signed
  literal : n.kind.isLiteral = true → n.ticked = true
  reusable : n.kind.isReusable = true → n.ticked = false
  named : ∀ x ∈ n.signed.formula.identifiers, x ∈ names
  entered : ∀ x ∈ n.instances, x ∈ terms

theorem Signed.fold_false (f : Formula) : fold ⟨f, false⟩ = ⟨f, false⟩ := by
  cases f <;> rfl

theorem Signed.fold_fold (s : Signed) : s.fold.fold = s.fold := by
  rcases s with ⟨f, value⟩
  cases value with
  | false => rw [fold_false, fold_false]
  | true =>
      cases f with
      | not f => exact fold_false f
      | atom | binary | quantified => rfl

theorem Kind.isLiteral_eq_false_of_reusable {k : Kind} (h : k.isReusable = true) : k.isLiteral = false := by
  cases k <;> first | rfl | cases h

theorem Kind.isQuantified_of_reusable {k : Kind} (h : k.isReusable = true) : k.isQuantified = true := by
  cases k <;> first | rfl | cases h

theorem Kind.isQuantified_eq_false_of_literal {k : Kind} (h : k.isLiteral = true) : k.isQuantified = false := by
  cases k <;> first | rfl | cases h

theorem Node.settled_ofSigned {names : List Term} {id : Nat} {s : Signed} {origin : Option Nat}
    (hnames : ∀ x ∈ s.fold.formula.identifiers, x ∈ names) (terms : List Term) :
    (Node.ofSigned id s origin).Settled terms names where
  folded := s.fold_fold
  literal h := h
  reusable h := Kind.isLiteral_eq_false_of_reusable h
  named := hnames
  entered x hx := by cases hx

/-- The bookkeeping is right and all nodes are as they should be. -/
structure Valid (t : Tableau) : Prop extends Coherent t where
  settled : ∀ n ∈ t.tree.labels, n.Settled t.terms t.names

namespace Node.Settled

variable {terms names terms' names' : List Term} {n m : Node}

theorem mono (h : n.Settled terms names) (hterms : ∀ x ∈ terms, x ∈ terms') (hnames : ∀ x ∈ names, x ∈ names') :
    n.Settled terms' names' where
  folded := h.folded
  literal := h.literal
  reusable := h.reusable
  named x hx := hnames x (h.named x hx)
  entered x hx := hterms x (h.entered x hx)

theorem marked (h : n.Settled terms names) (hnm : n.MarkedTo m) : m.Settled terms names where
  folded := by rw [hnm.signed]; exact h.folded
  literal := by rw [Node.kind, hnm.signed, hnm.ticked]; exact h.literal
  reusable := by rw [Node.kind, hnm.signed, hnm.ticked]; exact h.reusable
  named := by rw [hnm.signed]; exact h.named
  entered := by rw [hnm.instances]; exact h.entered

end Node.Settled

theorem Valid.closesTo {t t' : Tableau} (h : Valid t) (hcloses : t.ClosesTo t') (hcoherent : Coherent t') :
    Valid t' where
  toCoherent := hcoherent
  settled := by
    intro m hm
    obtain ⟨n, hn, hnm⟩ := hcloses.exists_label hm
    rw [hcloses.terms, hcloses.names]
    exact (h.settled n hn).marked hnm

namespace Tableau

variable {t : Tableau} {leaf : Node} {up : List Node} {new : Forest Node}

theorem mem_enterNames {names : List Term} {x : Term} :
    x ∈ enterNames names new ↔ x ∈ names ∨ ∃ n ∈ new.labels, x ∈ n.signed.formula.identifiers := by
  rw [enterNames]
  induction new.labels generalizing names with
  | nil => simp
  | cons n labels ih =>
      rw [List.foldl_cons, ih, Term.mem_foldl_enter]
      simp [or_assoc]

theorem settled_attach (hi : Indexed t) (hleaf : leaf :: up ∈ t.tree.branches) (hnew : new.IsNew)
    (h : ∀ n ∈ t.tree.labels, n.Settled t.terms t.names) :
    ∀ n ∈ (t.attach leaf.id new).tree.labels,
      n.Settled (t.attach leaf.id new).terms (t.attach leaf.id new).names := by
  intro n hn
  rcases (mem_labels_attach hi.numbered hleaf).1 hn with hn | hn
  · exact (h n hn).mono (fun x hx => hx) fun x hx => mem_enterNames.2 (Or.inl hx)
  · have hnames : ∀ x ∈ n.signed.formula.identifiers, x ∈ (t.attach leaf.id new).names :=
      fun x hx => mem_enterNames.2 (Or.inr ⟨n, hn, hx⟩)
    obtain ⟨s, heq⟩ := hnew n hn
    rw [heq] at hnames ⊢
    exact Node.settled_ofSigned hnames _

theorem settled_instantiate (h : ∀ n ∈ t.tree.labels, n.Settled t.terms t.names) (id : Nat) (x : Term) :
    ∀ n ∈ (t.instantiate id x).tree.labels,
      n.Settled (t.instantiate id x).terms (t.instantiate id x).names := by
  intro m hm
  rw [tree_instantiate, Tree.labels_map, List.mem_map] at hm
  obtain ⟨n, hn, rfl⟩ := hm
  have hterms : ∀ y ∈ t.terms, y ∈ (t.instantiate id x).terms := fun y hy => Term.mem_enter.2 (Or.inl hy)
  have hsettled : n.Settled (t.instantiate id x).terms (t.instantiate id x).names := (h n hn).mono hterms fun y hy => hy
  rw [enterInstance]
  split
  · refine ⟨hsettled.folded, hsettled.literal, hsettled.reusable, hsettled.named, ?_⟩
    intro y hy
    rcases Term.mem_enter.1 hy with hy | rfl
    · exact hsettled.entered y hy
    · exact Term.mem_enter.2 (Or.inr rfl)
  · exact hsettled

theorem settled_tick {n : Node} (hi : Indexed t) (hn : n ∈ t.tree.labels) (hkind : n.kind.isReusable = false)
    (opened : Nat) (h : ∀ n ∈ t.tree.labels, n.Settled t.terms t.names) :
    ∀ m ∈ (t.tick n.id opened).tree.labels,
      m.Settled (t.tick n.id opened).terms (t.tick n.id opened).names := by
  intro m hm
  rw [tree_tick, Tree.labels_map, List.mem_map] at hm
  obtain ⟨k, hk, rfl⟩ := hm
  rw [tickNode]
  split
  · rename_i hid
    obtain rfl := hi.numbered.eq_of_id_eq hk hn hid
    obtain hsettled := h k hk
    refine ⟨hsettled.folded, fun _ => rfl, fun hreusable => ?_, hsettled.named, hsettled.entered⟩
    rw [Node.kind] at hkind hreusable
    rw [hkind] at hreusable
    cases hreusable
  · exact h k hk

end Tableau

end Tableaux
