import Mathlib
import Tableaux.Proofs.Development

/-!
The whole of a development. A node that is not ticked and lies on an open branch is developed; the branches that end
at the open leaves below it are prolonged by the chains of its rule, the others stay, and all bookkeeping is right
again once the branches have been checked.
-/

namespace Tableaux

namespace Tableau

variable {t : Tableau} {n : Node} {e : Expansion} {leaves : List Nat}

/-- The term that the rule of a node is applied with. -/
def given (t : Tableau) (n : Node) (term : Option Term) : Option Term :=
  if n.kind.isQuantified then some (t.termFor n term) else none

/-- The tableau with a term, if there is one, entered for a node. -/
def enterTerm (t : Tableau) (id : Nat) : Option Term → Tableau
  | some x => t.instantiate id x
  | none => t

/-- The tableau with the result of a rule below each of the given leaves. -/
def grow (t : Tableau) (origin : Nat) (e : Expansion) (leaves : List Nat) : Tableau :=
  leaves.foldl (fun t leaf => t.extend origin e leaf) t

/-- The tableau after the rule of a node has been applied with the given term and result. -/
def applied (t : Tableau) (n : Node) (x : Option Term) (e : Expansion) (leaves : List Nat) : Tableau :=
  if n.kind.isReusable then (t.enterTerm n.id x).grow n.id e leaves
  else ((t.enterTerm n.id x).grow n.id e leaves).tick n.id (e.branchDelta * leaves.length)

theorem applyRule_eq {term : Option Term} (h : n.signed.expansion (t.given n term) = some e) (leaves : List Nat) :
    t.applyRule n leaves term = (true, t.applied n (t.given n term) e leaves) := by
  simp only [given] at h ⊢
  simp only [applyRule, h]
  rfl

theorem exists_expansion {terms names : List Term} (h : n.Settled terms names) (hticked : n.ticked = false)
    (t : Tableau) (term : Option Term) : ∃ e, n.signed.expansion (t.given n term) = some e := by
  have hliteral : n.kind.isLiteral ≠ true := by
    intro hliteral
    rw [h.literal hliteral] at hticked
    cases hticked
  rw [given, Node.kind]
  rw [Node.kind] at hliteral
  rcases hs : n.signed with ⟨f, value⟩
  rw [hs] at hliteral
  cases f with
  | atom a => exact absurd rfl hliteral
  | not f => exact ⟨_, rfl⟩
  | binary c l r => exact ⟨_, rfl⟩
  | quantified q y body => exact ⟨_, rfl⟩

/-- A result with two chains comes from a node that is not reusable. -/
theorem branchDelta_of_reusable {x : Option Term} (hkind : n.kind.isReusable = true)
    (h : n.signed.expansion x = some e) : e.branchDelta = 0 := by
  rw [Node.kind] at hkind
  rcases hs : n.signed with ⟨f, value⟩
  rw [hs] at hkind h
  cases f with
  | atom a => cases h
  | not f => cases h; rfl
  | binary c l r => cases hkind
  | quantified q y body =>
      obtain ⟨_, _, rfl⟩ := Option.map_eq_some_iff.1 h
      rfl

theorem grow_cons (t : Tableau) (origin : Nat) (e : Expansion) (leaf : Nat) (leaves : List Nat) :
    t.grow origin e (leaf :: leaves) = (t.extend origin e leaf).grow origin e leaves := rfl

/-- Growing changes the tree and what belongs to it only. -/
theorem grow_frame (t : Tableau) (origin : Nat) (e : Expansion) (leaves : List Nat) :
    (t.grow origin e leaves).options = t.options ∧ (t.grow origin e leaves).terms = t.terms ∧
      (t.grow origin e leaves).openBranches = t.openBranches := by
  induction leaves generalizing t with
  | nil => exact ⟨rfl, rfl, rfl⟩
  | cons leaf leaves ih => exact ih (t.extend origin e leaf)

theorem worklist_grow (t : Tableau) (origin : Nat) (e : Expansion) (leaves : List Nat) :
    ∃ new, (t.grow origin e leaves).worklist = t.worklist ++ new ∧ ∀ id ∈ new, t.slots ≤ id := by
  induction leaves generalizing t with
  | nil => exact ⟨[], (List.append_nil _).symm, fun id hid => by cases hid⟩
  | cons leaf leaves ih =>
      obtain ⟨new, heq, hnew⟩ := ih (t.extend origin e leaf)
      refine ⟨pending (e.toForest origin t.slots) ++ new, ?_, ?_⟩
      · rw [grow_cons, heq, ← List.append_assoc]
        rfl
      · intro id hid
        rcases List.mem_append.1 hid with hid | hid
        · obtain ⟨m, hm, rfl, _⟩ := mem_pending.1 hid
          exact ((e.numberedFrom_toForest origin t.slots).id_bounds hm).1
        · exact (Nat.le_add_right _ _).trans (hnew id hid)

theorem length_leaves_toForest (hne : ∀ chain ∈ e.chains, chain ≠ []) (origin id : Nat) :
    (e.toForest origin id).leaves.length = e.branchDelta + 1 := by
  rw [← Forest.leaves_eq_heads [], Expansion.branches_toForest hne]
  have hhead : ∀ p ∈ e.starts id, ((Node.ofChain origin p.1 p.2).reverse ++ []).head? ≠ none := by
    intro p hp
    rw [List.append_nil, Ne, List.head?_eq_none_iff]
    exact Node.reverse_ofChain_ne_nil (hne p.2 (Expansion.mem_chains_of_mem_starts hp)) origin p.1
  cases e with
  | linear chain =>
      obtain ⟨m, hm⟩ := Option.ne_none_iff_exists'.1 (hhead _ List.mem_cons_self)
      simp only [Expansion.starts, List.map_cons, List.map_nil, List.filterMap_cons, hm]
      rfl
  | branching left right =>
      obtain ⟨m, hm⟩ := Option.ne_none_iff_exists'.1 (hhead _ List.mem_cons_self)
      obtain ⟨k, hk⟩ := Option.ne_none_iff_exists'.1 (hhead _ (List.mem_cons_of_mem _ List.mem_cons_self))
      simp only [Expansion.starts, List.map_cons, List.map_nil, List.filterMap_cons, hm, hk]
      rfl

/-- Every leaf that the result of a rule is put below counts once more for each further chain. -/
theorem openCount_grow {origin : Nat} (hi : Indexed t) (hne : ∀ chain ∈ e.chains, chain ≠ [])
    (hnodup : leaves.Nodup) (hopen : OpenLeaves t leaves) :
    (t.grow origin e leaves).tree.openCount = t.tree.openCount + e.branchDelta * leaves.length := by
  induction leaves generalizing t with
  | nil => rfl
  | cons l leaves ih =>
      obtain ⟨leaf, up, hleaf, rfl, hclosed⟩ := hopen l List.mem_cons_self
      obtain ⟨hnotin, hnodup⟩ := List.nodup_cons.1 hnodup
      have hrest : OpenLeaves t leaves := fun l hl => hopen l (List.mem_cons_of_mem _ hl)
      have hone : (t.extend origin e leaf.id).tree.openCount + 1 = t.tree.openCount + (e.branchDelta + 1) := by
        rw [← length_leaves_toForest hne origin t.slots]
        exact openCount_attach hi hleaf hclosed (Expansion.toForest_ne_nil hne origin t.slots)
          (Forest.isNew_toForest origin t.slots e)
      rw [grow_cons, ih (indexed_extend hi hne hleaf) hnodup (openLeaves_extend hi hne hleaf hnotin hrest),
        List.length_cons, Nat.mul_succ]
      omega

/-- What applying a rule does to a node that was there: the developed node gets the term among its instances and, if
it is done, the tick. -/
def touch (id : Nat) (x : Option Term) (done : Bool) (m : Node) : Node :=
  if m.id = id then { m with instances := x.elim m.instances (Term.enter m.instances), ticked := m.ticked || done }
  else m

theorem touch_of_ne {id : Nat} {m : Node} (h : m.id ≠ id) (x : Option Term) (done : Bool) : touch id x done m = m :=
  if_neg h

theorem sameJudgement_touch (id : Nat) (x : Option Term) (done : Bool) : SameJudgement (touch id x done) := by
  constructor <;> intro n <;> rw [touch] <;> split <;> rfl

theorem touch_none_false (id : Nat) : touch id none false = fun m => m := by
  funext m
  rw [touch]
  split
  · rw [Bool.or_false]
    rfl
  · rfl

theorem touch_some_false (id : Nat) (x : Term) : touch id (some x) false = enterInstance id x := by
  funext m
  rw [touch, enterInstance]
  split
  · rw [Bool.or_false]
    rfl
  · rfl

theorem touch_none_true (id : Nat) : touch id none true = tickNode id := by
  funext m
  rw [touch, tickNode]
  split
  · rw [Bool.or_true]
    rfl
  · rfl

theorem touch_touch (id : Nat) (x : Option Term) (done : Bool) (m : Node) :
    touch id none done (touch id x false m) = touch id x done m := by
  by_cases hid : m.id = id <;> simp [touch, hid]

theorem tree_enterTerm (t : Tableau) (id : Nat) (x : Option Term) :
    (t.enterTerm id x).tree = t.tree.map (touch id x false) := by
  cases x with
  | some x => rw [touch_some_false]; rfl
  | none => rw [touch_none_false, Tree.map_id]; rfl

theorem branches_enterTerm (t : Tableau) (id : Nat) (x : Option Term) :
    (t.enterTerm id x).tree.branches = t.tree.branches.map (List.map (touch id x false)) := by
  rw [tree_enterTerm, Tree.branches_map]

end Tableau

/-- How a tableau comes out of the application of a rule, before its branches are checked: every branch that ends at
one of the leaves is prolonged by each chain, every other branch is kept. -/
structure Applied (n : Node) (x : Option Term) (e : Expansion) (leaves : List Nat) (t t' : Tableau) : Prop where
  options : t'.options = t.options
  terms : t'.terms = x.elim t.terms (Term.enter t.terms)
  slots_le : t.slots ≤ t'.slots
  worklist : ∃ new, t'.worklist = (if n.kind.isReusable then t.worklist else t.worklist.erase n.id) ++ new ∧
    ∀ id ∈ new, t.slots ≤ id
  kept : ∀ b ∈ t.tree.branches, ¬ EndsIn leaves b →
    b.map (Tableau.touch n.id x !n.kind.isReusable) ∈ t'.tree.branches
  prolonged : ∀ b ∈ t.tree.branches, EndsIn leaves b → ∀ chain ∈ e.chains, ∃ id, t.slots ≤ id ∧
    (Node.ofChain n.id id chain).reverse ++ b.map (Tableau.touch n.id x !n.kind.isReusable) ∈ t'.tree.branches
  source : ∀ b' ∈ t'.tree.branches, ∃ b ∈ t.tree.branches,
    (¬ EndsIn leaves b ∧ b' = b.map (Tableau.touch n.id x !n.kind.isReusable)) ∨
    (EndsIn leaves b ∧ ∃ chain ∈ e.chains, ∃ id, t.slots ≤ id ∧
      b' = (Node.ofChain n.id id chain).reverse ++ b.map (Tableau.touch n.id x !n.kind.isReusable))

/-- Every node is still there after a rule has been applied. -/
theorem Applied.mem_labels {n : Node} {x : Option Term} {e : Expansion} {leaves : List Nat} {t t' : Tableau}
    (h : Applied n x e leaves t t') {m : Node} (hm : m ∈ t.tree.labels) :
    Tableau.touch n.id x (!n.kind.isReusable) m ∈ t'.tree.labels := by
  obtain ⟨b, hb, hmb⟩ := Tree.exists_branch_of_mem_labels hm
  by_cases hends : EndsIn leaves b
  · obtain ⟨chain, hchain⟩ := List.exists_mem_of_ne_nil e.chains (by cases e <;> exact List.cons_ne_nil _ _)
    obtain ⟨_, _, hmem⟩ := h.prolonged b hb hends chain hchain
    exact Tree.mem_labels_of_mem_branch hmem (List.mem_append_right _ (List.mem_map_of_mem hmb))
  · exact Tree.mem_labels_of_mem_branch (h.kept b hb hends) (List.mem_map_of_mem hmb)

/-- Every node was there before, or is new and stands in a chain of the rule. -/
theorem Applied.label_cases {n : Node} {x : Option Term} {e : Expansion} {leaves : List Nat} {t t' : Tableau}
    (h : Applied n x e leaves t t') {m : Node} (hm : m ∈ t'.tree.labels) :
    (∃ k ∈ t.tree.labels, m = Tableau.touch n.id x (!n.kind.isReusable) k) ∨
    ∃ chain ∈ e.chains, ∃ s ∈ chain, t.slots ≤ m.id ∧ m = .ofSigned m.id s (some n.id) := by
  obtain ⟨b', hb', hmb'⟩ := Tree.exists_branch_of_mem_labels hm
  obtain ⟨b, hb, ⟨_, rfl⟩ | ⟨_, chain, hchain, id, hle, rfl⟩⟩ := h.source b' hb'
  · obtain ⟨k, hk, rfl⟩ := List.mem_map.1 hmb'
    exact Or.inl ⟨k, Tree.mem_labels_of_mem_branch hb hk, rfl⟩
  · rcases List.mem_append.1 hmb' with hm | hm
    · have hm := List.mem_reverse.1 hm
      obtain ⟨s, hs, heq⟩ := Node.exists_of_mem_ofChain hm
      exact Or.inr ⟨chain, hchain, s, hs, hle.trans (Node.id_bounds_of_mem_ofChain hm).1, heq⟩
    · obtain ⟨k, hk, rfl⟩ := List.mem_map.1 hm
      exact Or.inl ⟨k, Tree.mem_labels_of_mem_branch hb hk, rfl⟩

theorem endsIn_map {g : Node → Node} (hg : ∀ n, (g n).id = n.id) {leaves : List Nat} {b : List Node} :
    EndsIn leaves (b.map g) ↔ EndsIn leaves b := by
  cases b with
  | nil => rfl
  | cons leaf up => rw [List.map_cons, endsIn_cons, endsIn_cons, hg]

namespace Tableau

variable {t : Tableau} {n : Node} {x : Option Term} {e : Expansion} {leaves : List Nat}

theorem tree_applied (t : Tableau) (n : Node) (x : Option Term) (e : Expansion) (leaves : List Nat) :
    (t.applied n x e leaves).tree =
      ((t.enterTerm n.id x).grow n.id e leaves).tree.map (touch n.id none !n.kind.isReusable) := by
  rw [applied]
  cases n.kind.isReusable with
  | true => rw [if_pos rfl, Bool.not_true, touch_none_false, Tree.map_id]
  | false => rw [if_neg Bool.false_ne_true, Bool.not_false, touch_none_true, tree_tick]

theorem slots_enterTerm (t : Tableau) (id : Nat) (x : Option Term) : (t.enterTerm id x).slots = t.slots := by
  cases x <;> rfl

theorem worklist_enterTerm (t : Tableau) (id : Nat) (x : Option Term) :
    (t.enterTerm id x).worklist = t.worklist := by
  cases x <;> rfl

theorem openBranches_enterTerm (t : Tableau) (id : Nat) (x : Option Term) :
    (t.enterTerm id x).openBranches = t.openBranches := by
  cases x <;> rfl

theorem indexed_enterTerm (h : Indexed t) (id : Nat) (x : Option Term) : Indexed (t.enterTerm id x) := by
  refine (sameJudgement_touch id x false).indexed h (tree_enterTerm t id x) (slots_enterTerm t id x) ?_
  cases x <;> rfl

theorem openLeaves_enterTerm (h : OpenLeaves t leaves) (id : Nat) (x : Option Term) :
    OpenLeaves (t.enterTerm id x) leaves := by
  intro l hl
  obtain ⟨leaf, up, hb, hid, hopen⟩ := h l hl
  have hmem : (leaf :: up).map (touch id x false) ∈ (t.enterTerm id x).tree.branches := by
    rw [branches_enterTerm]
    exact List.mem_map_of_mem hb
  have hsame := sameJudgement_touch id x false
  exact ⟨_, _, hmem, (hsame.id leaf).trans hid, (hsame.branchClosed leaf).trans hopen⟩

/-- The new nodes are not touched. -/
theorem map_touch_ofChain {id start : Nat} (h : id < start) (x : Option Term) (done : Bool) (chain : List Signed) :
    (Node.ofChain id start chain).map (touch id x done) = Node.ofChain id start chain := by
  conv_rhs => rw [← List.map_id (Node.ofChain id start chain)]
  apply List.map_congr_left
  intro m hm
  have hbound := (Node.id_bounds_of_mem_ofChain hm).1
  exact touch_of_ne (by omega) x done

theorem map_touch_branch (id : Nat) (x : Option Term) (done : Bool) (b : List Node) :
    (b.map (touch id x false)).map (touch id none done) = b.map (touch id x done) := by
  rw [List.map_map]
  apply List.map_congr_left
  intro m _
  exact touch_touch id x done m

/-- A tick changes neither the options nor the terms nor the numbering. -/
theorem applied_frame (t : Tableau) (n : Node) (x : Option Term) (e : Expansion) (leaves : List Nat) :
    (t.applied n x e leaves).options = t.options ∧
      (t.applied n x e leaves).terms = x.elim t.terms (Term.enter t.terms) ∧
      (t.applied n x e leaves).slots = ((t.enterTerm n.id x).grow n.id e leaves).slots := by
  obtain ⟨hoptions, hterms, _⟩ := grow_frame (t.enterTerm n.id x) n.id e leaves
  have hframe : (t.enterTerm n.id x).options = t.options ∧
      (t.enterTerm n.id x).terms = x.elim t.terms (Term.enter t.terms) := by
    cases x <;> exact ⟨rfl, rfl⟩
  rw [← hframe.1, ← hframe.2, ← hoptions, ← hterms, applied]
  split <;> exact ⟨rfl, rfl, rfl⟩

/-- The application of a rule does what is said of it: it is the growth between entering the term and the tick. -/
theorem applied_spec (hi : Indexed t) (hn : n ∈ t.tree.labels) (hwaits : n.id ∈ t.worklist)
    (hne : ∀ chain ∈ e.chains, chain ≠ []) (hnodup : leaves.Nodup) (hopen : OpenLeaves t leaves) :
    Applied n x e leaves t (t.applied n x e leaves) := by
  have hgrown : Grown n.id e leaves (t.enterTerm n.id x) ((t.enterTerm n.id x).grow n.id e leaves) :=
    grown_foldl_extend (indexed_enterTerm hi n.id x) hne hnodup (openLeaves_enterTerm hopen n.id x)
  have hid : n.id < t.slots := hi.id_lt n hn
  have hslots := slots_enterTerm t n.id x
  have htouch := sameJudgement_touch n.id x false
  have hbranches : (t.applied n x e leaves).tree.branches =
      ((t.enterTerm n.id x).grow n.id e leaves).tree.branches.map (List.map (touch n.id none !n.kind.isReusable)) := by
    rw [tree_applied, Tree.branches_map]
  have henter : ∀ b ∈ t.tree.branches, b.map (touch n.id x false) ∈ (t.enterTerm n.id x).tree.branches := by
    intro b hb
    rw [branches_enterTerm]
    exact List.mem_map_of_mem hb
  obtain ⟨hoptions, hterms, hsame⟩ := applied_frame t n x e leaves
  constructor
  case options => exact hoptions
  case terms => exact hterms
  case slots_le =>
    rw [hsame, ← hslots]
    exact hgrown.slots_le
  case worklist =>
    obtain ⟨new, heq, hnew⟩ := worklist_grow (t.enterTerm n.id x) n.id e leaves
    rw [worklist_enterTerm] at heq
    rw [hslots] at hnew
    refine ⟨new, ?_, hnew⟩
    rw [applied]
    split
    · exact heq
    · rw [tick, heq, List.erase_append_left _ hwaits]
  case kept =>
    intro b hb hends
    rw [hbranches, ← map_touch_branch]
    exact List.mem_map_of_mem (hgrown.kept _ (henter b hb) (by rwa [endsIn_map htouch.id]))
  case prolonged =>
    intro b hb hends chain hchain
    obtain ⟨id, hle, hmem⟩ := hgrown.prolonged _ (henter b hb) ((endsIn_map htouch.id).2 hends) chain hchain
    rw [hslots] at hle
    refine ⟨id, hle, ?_⟩
    rw [hbranches]
    have hmem := List.mem_map_of_mem (f := List.map (touch n.id none !n.kind.isReusable)) hmem
    rwa [List.map_append, List.map_reverse, map_touch_ofChain (by omega), map_touch_branch] at hmem
  case source =>
    intro b' hb'
    rw [hbranches, List.mem_map] at hb'
    obtain ⟨c, hc, rfl⟩ := hb'
    rcases hgrown.source c hc with ⟨hc, hends⟩ | ⟨b₁, hb₁, hends, chain, hchain, id, hle, rfl⟩
    · rw [branches_enterTerm, List.mem_map] at hc
      obtain ⟨b, hb, rfl⟩ := hc
      exact ⟨b, hb, Or.inl ⟨by rwa [endsIn_map htouch.id] at hends, map_touch_branch _ _ _ _⟩⟩
    · rw [branches_enterTerm, List.mem_map] at hb₁
      obtain ⟨b, hb, rfl⟩ := hb₁
      rw [hslots] at hle
      refine ⟨b, hb, Or.inr ⟨(endsIn_map htouch.id).1 hends, chain, hchain, id, hle, ?_⟩⟩
      rw [List.map_append, List.map_reverse, map_touch_ofChain (by omega), map_touch_branch]

theorem marked_enterTerm (h : Marked t) (id : Nat) (x : Option Term) : Marked (t.enterTerm id x) := by
  cases x with
  | some x => exact marked_instantiate h id x
  | none => exact h

theorem settled_enterTerm (h : ∀ n ∈ t.tree.labels, n.Settled t.terms t.names) (id : Nat) (x : Option Term) :
    ∀ n ∈ (t.enterTerm id x).tree.labels, n.Settled (t.enterTerm id x).terms (t.enterTerm id x).names := by
  cases x with
  | some x => exact settled_instantiate h id x
  | none => exact h

/-- Growing below open leaves keeps marks, comparisons and nodes right; only the open branches are not yet counted. -/
theorem grow_spec (origin : Nat) (hi : Indexed t) (hm : Marked t) (hj : Judged t)
    (hs : ∀ n ∈ t.tree.labels, n.Settled t.terms t.names) (hne : ∀ chain ∈ e.chains, chain ≠ [])
    (hnodup : leaves.Nodup) (hopen : OpenLeaves t leaves) :
    Indexed (t.grow origin e leaves) ∧ Marked (t.grow origin e leaves) ∧ Judged (t.grow origin e leaves) ∧
      ∀ n ∈ (t.grow origin e leaves).tree.labels,
        n.Settled (t.grow origin e leaves).terms (t.grow origin e leaves).names := by
  refine foldl_extend_induction
    (P := fun t => Marked t ∧ Judged t ∧ ∀ n ∈ t.tree.labels, n.Settled t.terms t.names)
    hne ?_ hi hnodup hopen ⟨hm, hj, hs⟩
  rintro t leaf up hi hleaf hclosed ⟨hm, hj, hs⟩
  have hnil := Expansion.toForest_ne_nil hne origin t.slots
  have hnew := Forest.isNew_toForest origin t.slots e
  exact ⟨marked_attach hi hm hleaf hclosed (e.numberedFrom_toForest origin t.slots) hnil hnew,
    judged_attach hi hj hleaf hnil hnew, settled_attach hi hleaf hnew hs⟩

/-- An old node is still there after growth. -/
theorem mem_labels_grow (origin : Nat) (hi : Indexed t) (hne : ∀ chain ∈ e.chains, chain ≠ [])
    (hnodup : leaves.Nodup) (hopen : OpenLeaves t leaves) {m : Node} (hm : m ∈ t.tree.labels) :
    m ∈ (t.grow origin e leaves).tree.labels := by
  refine (foldl_extend_induction (P := fun t => m ∈ t.tree.labels) hne ?_ hi hnodup hopen hm).2
  intro t leaf up hi hleaf _ hm
  exact (mem_labels_attach hi.numbered hleaf).2 (Or.inl hm)

theorem valid_applied (h : Valid t) (hn : n ∈ t.tree.labels) (hne : ∀ chain ∈ e.chains, chain ≠ [])
    (hdelta : n.kind.isReusable = true → e.branchDelta = 0) (hnodup : leaves.Nodup) (hopen : OpenLeaves t leaves) :
    Valid (t.applied n x e leaves) := by
  have hi := indexed_enterTerm h.toIndexed n.id x
  have hopen' := openLeaves_enterTerm hopen n.id x
  have hj := (sameJudgement_touch n.id x false).judged h.toJudged (tree_enterTerm t n.id x)
  obtain ⟨hi₁, hm₁, hj₁, hs₁⟩ := grow_spec n.id hi (marked_enterTerm h.toMarked n.id x) hj
    (settled_enterTerm h.settled n.id x) hne hnodup hopen'
  have hcount : ((t.enterTerm n.id x).grow n.id e leaves).tree.openCount =
      t.openBranches + e.branchDelta * leaves.length := by
    rw [openCount_grow hi hne hnodup hopen', tree_enterTerm, (sameJudgement_touch n.id x false).openCount,
      h.openBranches_eq]
  have hframe : ((t.enterTerm n.id x).grow n.id e leaves).openBranches = t.openBranches := by
    rw [(grow_frame _ n.id e leaves).2.2, openBranches_enterTerm]
  rw [applied]
  split
  · rename_i hkind
    refine ⟨⟨hi₁, hm₁, hj₁, ?_⟩, hs₁⟩
    rw [hframe, hcount, hdelta hkind, Nat.zero_mul, Nat.add_zero]
  · rename_i hkind
    have htick := sameJudgement_tickNode n.id
    refine ⟨⟨htick.indexed hi₁ (tree_tick _ _ _) rfl rfl, marked_tick hm₁ _ _,
      htick.judged hj₁ (tree_tick _ _ _), ?_⟩, ?_⟩
    · rw [tree_tick, htick.openCount, hcount, ← hframe]
      rfl
    · have hmem : touch n.id x false n ∈ (t.enterTerm n.id x).tree.labels := by
        rw [tree_enterTerm, Tree.labels_map]
        exact List.mem_map_of_mem hn
      have hsame := sameJudgement_touch n.id x false
      have hkind' : (touch n.id x false n).kind.isReusable = false := by
        rw [Node.kind, hsame.signed]
        exact Bool.not_eq_true _ ▸ hkind
      have hsettled := settled_tick hi₁ (mem_labels_grow n.id hi hne hnodup hopen' hmem) hkind'
        (e.branchDelta * leaves.length) hs₁
      rwa [hsame.id] at hsettled

/-- A node lies on an open branch exactly if it is not closed. -/
theorem openLeavesBelow_eq_nil (h : Coherent t) (hn : n ∈ t.tree.labels) :
    t.openLeavesBelow n.id = [] ↔ n.branchClosed = true := by
  constructor
  · intro hnil
    by_contra hopen
    obtain ⟨leaf, up, hb, hmem, hleaf⟩ := h.agree.exists_open_leaf hn (Bool.not_eq_true _ ▸ hopen)
    have hin := (mem_openLeavesBelow h.numbered h.agree).2 ⟨leaf, up, hb, rfl, hleaf, n, hmem, rfl⟩
    rw [hnil] at hin
    cases hin
  · intro hclosed
    rw [List.eq_nil_iff_forall_not_mem]
    intro l hl
    obtain ⟨leaf, up, hb, _, hleaf, m, hm, hid⟩ := (mem_openLeavesBelow h.numbered h.agree).1 hl
    have hopen := h.agree.openBranch hb hleaf m hm
    rw [h.numbered.eq_of_id_eq (Tree.mem_labels_of_mem_branch hb hm) hn hid, hclosed] at hopen
    cases hopen

/-- A branch that ends at an open leaf below a node goes through the node and is open. -/
theorem mem_of_endsIn_openLeavesBelow (h : Coherent t) (hn : n ∈ t.tree.labels) {b : List Node}
    (hb : b ∈ t.tree.branches) (hends : EndsIn (t.openLeavesBelow n.id) b) : n ∈ b ∧ OpenBranch b := by
  obtain ⟨leaf, up, rfl⟩ := Tree.exists_cons_of_mem_branches hb
  obtain ⟨leaf', up', hb', hid, hopen, m, hm, hmid⟩ :=
    (mem_openLeavesBelow h.numbered h.agree).1 (endsIn_cons.1 hends)
  obtain ⟨rfl, rfl⟩ := h.numbered.eq_of_leaf_id_eq hb' hb hid
  obtain rfl := h.numbered.eq_of_id_eq (Tree.mem_labels_of_mem_branch hb hm) hn hmid
  exact ⟨hm, h.agree.openBranch hb hopen⟩

theorem endsIn_openLeavesBelow (h : Coherent t) {b : List Node} (hb : b ∈ t.tree.branches) (hopen : OpenBranch b)
    (hn : n ∈ b) : EndsIn (t.openLeavesBelow n.id) b := by
  obtain ⟨leaf, up, rfl⟩ := Tree.exists_cons_of_mem_branches hb
  rw [endsIn_cons, mem_openLeavesBelow h.numbered h.agree]
  exact ⟨leaf, up, hb, rfl, hopen leaf List.mem_cons_self, n, hn, rfl⟩

/-- A node that waits has a rule, and the bookkeeping is right after the rule has been applied below the open leaves
under the node. -/
theorem applied_waiting (h : Valid t) (hn : n ∈ t.tree.labels) (hticked : n.ticked = false)
    (hclosed : n.branchClosed = false) (term : Option Term) :
    ∃ e, n.signed.expansion (t.given n term) = some e ∧
      Applied n (t.given n term) e (t.openLeavesBelow n.id) t
        (t.applied n (t.given n term) e (t.openLeavesBelow n.id)) ∧
      Valid (t.applied n (t.given n term) e (t.openLeavesBelow n.id)) := by
  obtain ⟨e, he⟩ := exists_expansion (h.settled n hn) hticked t term
  have hne := Signed.chain_ne_nil he
  have hopen := openLeaves_openLeavesBelow h.toCoherent n.id
  have hnodup := nodup_openLeavesBelow h.numbered n.id
  have hwaits : n.id ∈ t.worklist := (h.waiting n.id).2 ⟨n, hn, rfl, hticked, hclosed⟩
  exact ⟨e, he, applied_spec h.toIndexed hn hwaits hne hnodup hopen,
    valid_applied h hn hne (fun hkind => branchDelta_of_reusable hkind he) hnodup hopen⟩

/-- What the development of a node that waits comes to. -/
theorem develop_eq {id : Nat} {term : Option Term} (h : Valid t) (hnode : t.node id = .ok n)
    (hticked : n.ticked = false) (hclosed : n.branchClosed = false)
    (he : n.signed.expansion (t.given n term) = some e) :
    t.develop id term =
      (.ok true, ((t.applied n (t.given n term) e (t.openLeavesBelow id)).closeBranches id).1) := by
  obtain ⟨hn, rfl⟩ := node_eq_ok hnode
  have hne : t.openLeavesBelow n.id ≠ [] := by
    rw [Ne, openLeavesBelow_eq_nil h.toCoherent hn, hclosed]
    exact Bool.false_ne_true
  obtain ⟨l, rest, hleaves⟩ := List.exists_cons_of_ne_nil hne
  rw [develop, hnode, hleaves]
  simp only [hticked, Bool.false_eq_true, if_false, applyRule_eq he]

/-- The three ways a development can go: the number is refused, there is nothing to do, or the rule is applied and
the branches through the node are checked. -/
theorem develop_cases (h : Valid t) (id : Nat) (term : Option Term) :
    (∃ refusal, t.node id = .error refusal ∧ t.develop id term = (.error refusal, t)) ∨
    (∃ n, t.node id = .ok n ∧ (n.ticked = true ∨ n.branchClosed = true) ∧ t.develop id term = (.ok false, t)) ∨
    ∃ n e t', t.node id = .ok n ∧ n.ticked = false ∧ n.branchClosed = false ∧
      n.signed.expansion (t.given n term) = some e ∧ Applied n (t.given n term) e (t.openLeavesBelow id) t t' ∧
      Valid t' ∧ t.develop id term = (.ok true, (t'.closeBranches id).1) := by
  cases hnode : t.node id with
  | error refusal => exact Or.inl ⟨refusal, rfl, by rw [develop, hnode]⟩
  | ok n =>
      obtain ⟨hn, rfl⟩ := node_eq_ok hnode
      refine Or.inr ?_
      cases hticked : n.ticked with
      | true => exact Or.inl ⟨n, rfl, Or.inl hticked, by simp [develop, hnode, hticked]⟩
      | false =>
          cases hclosed : n.branchClosed with
          | true =>
              have hleaves := (openLeavesBelow_eq_nil h.toCoherent hn).2 hclosed
              exact Or.inl ⟨n, rfl, Or.inr hclosed, by simp [develop, hnode, hticked, hleaves]⟩
          | false =>
              obtain ⟨e, he, happlied, hvalid⟩ := applied_waiting h hn hticked hclosed term
              exact Or.inr ⟨n, e, _, rfl, hticked, hclosed, he, happlied, hvalid,
                develop_eq h hnode hticked hclosed he⟩

end Tableau

end Tableaux
