import Mathlib
import Tableaux.Arena.Development
import Tableaux.Proofs.Application
import Tableaux.Proofs.Arena.Looking

/-!
Growth of an arena. Making a node and hanging it behind the children of another puts a forest of one node there. The
result of a rule is put below a leaf node by node, each below the one before, which comes to the same as hanging the
whole of it there.
-/

namespace Tableaux

namespace Forest

variable {α : Type} {p q : α → Bool} {f new rest : Forest α}

theorem graft_append (p : α → Bool) (new f g : Forest α) :
    graft p new (f.append g) = (graft p new f).append (graft p new g) := by
  induction f with
  | nil => rfl
  | cons a below beside _ ih => rw [append, graft, graft, append, ih]

/-- What hangs below a new node may be hung there afterwards. -/
theorem graft_below {a : α} (ha : q a = true) (hfree : ∀ b ∈ f.labels, q b = false) (p : α → Bool) (rest : Forest α) :
    graft q rest (graft p (cons a nil nil) f) = graft p (cons a rest nil) f := by
  induction f with
  | nil => rfl
  | cons b below beside ihb ihs =>
      simp only [labels, List.mem_cons, List.mem_append] at hfree
      have hbelow := fun c hc => hfree c (Or.inr (Or.inl hc))
      rw [graft, graft, ihs fun c hc => hfree c (Or.inr (Or.inr hc)), hfree b (Or.inl rfl), if_neg Bool.false_ne_true,
        graft]
      by_cases hp : p b = true
      · rw [if_pos hp, if_pos hp, graft_append, graft_of_forall_not hbelow, graft, if_pos ha]
        rfl
      · rw [if_neg hp, if_neg hp, ihb hbelow]

/-- What hangs beside new nodes may be hung there afterwards. -/
theorem graft_beside (p : α → Bool) (new rest f : Forest α) :
    graft p rest (graft p new f) = graft p (new.append rest) f := by
  induction f with
  | nil => rfl
  | cons a below beside ihb ihs =>
      rw [graft, graft, graft, ihs]
      by_cases hp : p a = true
      · rw [if_pos hp, if_pos hp, if_pos hp, append_assoc]
      · rw [if_neg hp, if_neg hp, if_neg hp, ihb]

theorem graft_nil (p : α → Bool) (f : Forest α) : graft p nil f = f := by
  induction f with
  | nil => rfl
  | cons a below beside ihb ihs =>
      rw [graft, ihs, ihb, append_nil, ite_self]

end Forest

/-- The nodes have different numbers, which have been given out. -/
structure Spaced (t : Tableau) : Prop where
  numbered : t.tree.Numbered
  id_lt : ∀ n ∈ t.tree.labels, n.id < t.slots

theorem Indexed.spaced {t : Tableau} (h : Indexed t) : Spaced t :=
  ⟨h.numbered, h.id_lt⟩

namespace Spaced

variable {t : Tableau} (h : Spaced t) {n : Node} (hn : n ∈ t.tree.labels) {new : Forest Node}

include h hn

theorem mem_labels_attach {m : Node} : m ∈ (t.attach n.id new).tree.labels ↔ m ∈ t.tree.labels ∨ m ∈ new.labels := by
  rw [(Tableau.labels_attach_perm_of_mem h.numbered hn new).mem_iff, List.mem_append]

theorem attach (hnum : new.NumberedFrom t.slots) : Spaced (t.attach n.id new) where
  numbered := by
    have hperm := (Tableau.labels_attach_perm_of_mem h.numbered hn new).map Node.id
    rw [Tree.Numbered, hperm.nodup_iff, List.map_append, List.nodup_append]
    refine ⟨h.numbered, hnum ▸ List.nodup_range', ?_⟩
    intro i hi j hj
    obtain ⟨n, hn, rfl⟩ := List.mem_map.1 hi
    obtain ⟨m, hm, rfl⟩ := List.mem_map.1 hj
    exact Nat.ne_of_lt (Nat.lt_of_lt_of_le (h.id_lt n hn) (hnum.id_bounds hm).1)
  id_lt := by
    intro m hm
    rcases (h.mem_labels_attach hn).1 hm with hm | hm
    · exact Nat.lt_of_lt_of_le (h.id_lt m hm) (Nat.le_add_right _ _)
    · exact (hnum.id_bounds hm).2

end Spaced

namespace Tableau

variable {t : Tableau} {n : Node} {new rest : Forest Node}

theorem pending_append (f g : Forest Node) : pending (f.append g) = pending f ++ pending g := by
  rw [pending, pending, pending, Forest.labels_append, List.filter_append, List.map_append]

theorem enterNames_append (names : List Term) (f g : Forest Node) :
    enterNames names (f.append g) = enterNames (enterNames names f) g := by
  rw [enterNames, enterNames, enterNames, Forest.labels_append, List.foldl_append]

theorem attach_nil (t : Tableau) (id : Nat) : t.attach id .nil = t := by
  have htree : t.tree.graft (·.id == id) .nil = t.tree := 
    Tree.eq_of_toForest (Forest.graft_nil (fun n : Node => n.id == id) t.tree.toForest)
  rw [attach, htree, pending, enterNames]
  simp [Forest.labels, Forest.size]

/-- Forests side by side may be hung one after the other. -/
theorem attach_beside (t : Tableau) (id : Nat) (new rest : Forest Node) :
    (t.attach id new).attach id rest = t.attach id (new.append rest) := by
  have htree : (t.tree.graft (·.id == id) new).graft (·.id == id) rest = t.tree.graft (·.id == id) (new.append rest) :=
    Tree.eq_of_toForest (Forest.graft_beside (fun n : Node => n.id == id) new rest t.tree.toForest)
  have hsize : (new.append rest).size = new.size + rest.size := by
    rw [← Forest.length_labels, Forest.labels_append, List.length_append, Forest.length_labels, Forest.length_labels]
  rw [attach, attach, attach]
  simp only [htree, hsize, pending_append, enterNames_append, Nat.add_assoc, List.append_assoc]

/-- What hangs below a new node may be hung there afterwards. -/
theorem attach_below (hfree : ∀ m ∈ t.tree.labels, m.id ≠ n.id) (id : Nat) (rest : Forest Node) :
    (t.attach id (.cons n .nil .nil)).attach n.id rest = t.attach id (.cons n rest .nil) := by
  have htree : (t.tree.graft (·.id == id) (.cons n .nil .nil)).graft (·.id == n.id) rest =
      t.tree.graft (·.id == id) (.cons n rest .nil) :=
    Tree.eq_of_toForest (Forest.graft_below (q := fun m : Node => m.id == n.id) (f := t.tree.toForest)
      (beq_self_eq_true n.id) (fun m hm => beq_eq_false_iff_ne.2 (hfree m hm)) (·.id == id) rest)
  have hsize : (Forest.cons n rest .nil).size = (Forest.cons n .nil .nil).size + rest.size := by
    simp [Forest.size]
  have hlabels : (Forest.cons n rest .nil).labels = (Forest.cons n .nil .nil).labels ++ rest.labels := by
    simp [Forest.labels]
  rw [attach, attach, attach]
  simp only [htree, hsize, pending, enterNames, hlabels, List.filter_append, List.map_append, List.foldl_append,
    Nat.add_assoc, List.append_assoc]

end Tableau

namespace Arena

variable {a a' : Arena} {t : Tableau} {n : Node}

/-- A new node behind the children of another is in the forest that its slot and that of the other show. -/
theorem Holds.graft {up : Option Nat} {f : Forest Node} {p : Nat} {new : Node} (h : a.Holds up f)
    (hnodup : (f.labels.map Node.id).Nodup) (hnew : a'.slot new.id = some ⟨new, some p, [], false⟩)
    (hparent : ∀ s, a.slot p = some s → a'.slot p = some { s with children := s.children ++ [new.id] })
    (heq : ∀ n ∈ f.labels, n.id ≠ p → a'.slot n.id = a.slot n.id) :
    a'.Holds up (Forest.graft (·.id == p) (.cons new .nil .nil) f) := by
  induction f generalizing up with
  | nil => trivial
  | cons n below beside ihb ihs =>
      obtain ⟨hslot, hbelow, hbeside⟩ := h
      rw [Forest.labels, List.map_cons, List.map_append, List.nodup_cons, List.nodup_append] at hnodup
      obtain ⟨hn, hnodup, hnodup', _⟩ := hnodup
      simp only [Forest.labels, List.mem_cons, List.mem_append] at heq
      have hs := ihs hbeside hnodup' fun m hm => heq m (Or.inr (Or.inr hm))
      rw [Forest.graft]
      by_cases hp : n.id = p
      · subst hp
        rw [if_pos (beq_self_eq_true n.id)]
        refine ⟨?_, ?_, hs⟩
        · rw [hparent _ hslot, Forest.roots_append, List.map_append]
          rfl
        · have hkept : ∀ m ∈ below.labels, a'.slot m.id = a.slot m.id := by
            intro m hm
            refine heq m (Or.inr (Or.inl hm)) fun hid => hn ?_
            exact List.mem_append_left _ (List.mem_map.2 ⟨m, hm, hid⟩)
          exact (hbelow.congr hkept).append ⟨hnew, trivial, trivial⟩
      · rw [if_neg (by simpa using hp)]
        refine ⟨?_, ihb hbelow hnodup fun m hm => heq m (Or.inr (Or.inl hm)), hs⟩
        rw [heq n (Or.inl rfl) hp, hslot, Forest.roots_graft]

theorem slot_create_self (s : Signed) :
    (a.create s).2.slot a.slots.length = some { node := .ofSigned a.slots.length s none } :=
  List.getElem?_concat_length

theorem slot_create_of_lt {j : Nat} (h : j < a.slots.length) (s : Signed) : (a.create s).2.slot j = a.slot j :=
  List.getElem?_append_left h

/-- Making a node and linking it to a node of the tree. -/
theorem append_sim (h : a.Represents t) (hs : Spaced t) (hn : n ∈ t.tree.labels) (s : Signed) (origin : Option Nat) :
    ∃ a', (a.create s).2.append n.id (a.create s).1 origin = some a' ∧
      a'.Represents (t.attach n.id (.cons (.ofSigned t.slots s origin) .nil .nil)) := by
  obtain ⟨p, hslot, _, _⟩ := h.exists_slot hn
  rw [← h.length]
  have hlt : ∀ m ∈ t.tree.labels, m.id < a.slots.length := fun m hm => h.length ▸ hs.id_lt m hm
  have hcreate : ∀ j < a.slots.length, (a.create s).2.slot j = a.slot j := fun j hj => slot_create_of_lt hj s
  have hchild := slot_create_self (a := a) s
  -- first the link from the new node to its parent, then the link back
  let child : Slot := ⟨.ofSigned a.slots.length s origin, some n.id, [], false⟩
  let parent : Slot := { p with children := p.children ++ [a.slots.length] }
  have hfirst : (a.create s).2.alter a.slots.length (fun s => { s with parent := some n.id, node.origin := origin }) =
      some ((a.create s).2.put a.slots.length child) := alter_eq hchild _
  have hparent : ((a.create s).2.put a.slots.length child).slot n.id = some p := by
    rw [slot_put_ne (Nat.ne_of_lt (hlt n hn)), hcreate n.id (hlt n hn), hslot]
  have happend : (a.create s).2.append n.id (a.create s).1 origin =
      some (((a.create s).2.put a.slots.length child).put n.id parent) := by
    change ((a.create s).2.alter a.slots.length _).bind _ = _
    rw [hfirst]
    exact alter_eq hparent _
  have hkept : ∀ j < a.slots.length, j ≠ n.id →
      (((a.create s).2.put a.slots.length child).put n.id parent).slot j = a.slot j := by
    intro j hj hne
    rw [slot_put_ne hne, slot_put_ne (Nat.ne_of_lt hj), hcreate j hj]
  refine ⟨_, happend, h.options, h.root, ?_, congrArg (· + 1) h.nodeCount, h.openBranches, h.terms, ?_, ?_, ?_, ?_⟩
  · rw [length_put, length_put]
    exact List.length_append.trans (congrArg (· + 1) h.length)
  · change List.foldl Term.enter a.names _ = Tableau.enterNames t.names _
    rw [h.names]
    rfl
  · change (if (Node.ofSigned a.slots.length s origin).ticked then a.worklist else a.worklist ++ [a.slots.length]) =
      t.worklist ++ Tableau.pending (.cons (.ofSigned a.slots.length s origin) .nil .nil)
    rw [h.worklist, Tableau.pending, Forest.labels, Forest.labels, List.nil_append, List.filter_singleton]
    cases (Node.ofSigned a.slots.length s origin).ticked with
    | true => exact (List.append_nil _).symm
    | false => rfl
  · refine h.holds.graft hs.numbered ?_ ?_ fun m hm hne => hkept m.id (hlt m hm) hne
    · change Arena.slot _ a.slots.length = some child
      rw [slot_put_ne (Nat.ne_of_gt (hlt n hn)), slot_put_self hchild]
    · intro s' hs'
      obtain rfl := Option.some.inj (hslot.symm.trans hs')
      rw [slot_put_self hparent]
      rfl
  · intro j hj hfree
    have hmem : ∀ m, m ∈ (t.attach n.id (.cons (.ofSigned a.slots.length s origin) .nil .nil)).tree.labels ↔ _ :=
      fun _ => hs.mem_labels_attach hn
    have hne : j ≠ a.slots.length := by
      rintro rfl
      exact hfree _ ((hmem _).2 (Or.inr List.mem_cons_self)) rfl
    have hlt : j < a.slots.length := by
      have hj : j < t.slots + 1 := hj
      rw [h.length] at hne ⊢
      exact Nat.lt_of_le_of_ne (Nat.le_of_lt_succ hj) hne
    have hfree : ∀ m ∈ t.tree.labels, m.id ≠ j := fun m hm => hfree m ((hmem m).2 (Or.inl hm))
    rw [hkept j hlt fun heq => hfree n hn heq.symm]
    exact h.buried j (h.length ▸ hlt) hfree

theorem size_ofChain (origin id : Nat) (chain : List Signed) :
    (Forest.ofChain origin id chain).size = chain.length := by
  rw [← Forest.length_labels, Forest.labels_ofChain, Node.length_ofChain]

/-- A path of new nodes is made and linked node by node. -/
theorem appendChain_sim {chain : List Signed} (h : a.Represents t) (hs : Spaced t) (hn : n ∈ t.tree.labels)
    (origin : Nat) : ∃ a', a.appendChain origin n.id chain = some a' ∧
      a'.Represents (t.attach n.id (.ofChain origin t.slots chain)) := by
  induction chain generalizing a t n with
  | nil =>
      refine ⟨a, rfl, ?_⟩
      rw [Forest.ofChain, Tableau.attach_nil]
      exact h
  | cons s chain ih =>
      obtain ⟨a₁, happend, h₁⟩ := append_sim h hs hn s (some origin)
      have hs₁ := hs.attach hn (Forest.numberedFrom_singleton t.slots s (some origin))
      have hn₁ : Node.ofSigned t.slots s (some origin) ∈
          (t.attach n.id (.cons (.ofSigned t.slots s (some origin)) .nil .nil)).tree.labels :=
        (hs.mem_labels_attach hn).2 (Or.inr List.mem_cons_self)
      obtain ⟨a₂, hchain, h₂⟩ := ih h₁ hs₁ hn₁
      have hfree : ∀ m ∈ t.tree.labels, m.id ≠ (Node.ofSigned t.slots s (some origin)).id :=
        fun m hm => Nat.ne_of_lt (hs.id_lt m hm)
      rw [Tableau.attach_below hfree] at h₂
      refine ⟨a₂, ?_, h₂⟩
      change ((a.create s).2.append n.id (a.create s).1 (some origin)).bind _ = _
      rw [happend, Option.bind_some]
      rw [h.length]
      exact hchain

/-- The result of a rule is put below a leaf. -/
theorem extend_sim {e : Expansion} (h : a.Represents t) (hs : Spaced t) (hn : n ∈ t.tree.labels) (origin : Nat) :
    ∃ a', a.extend origin n.id e = some a' ∧ a'.Represents (t.extend origin e n.id) := by
  cases e with
  | linear chain => exact appendChain_sim h hs hn origin
  | branching left right =>
      obtain ⟨a₁, hleft, h₁⟩ := appendChain_sim h hs hn origin
      have hs₁ := hs.attach hn ((Expansion.linear left).numberedFrom_toForest origin t.slots)
      obtain ⟨a₂, hright, h₂⟩ := appendChain_sim h₁ hs₁ ((hs.mem_labels_attach hn).2 (Or.inl hn)) origin
      have hslots : (t.attach n.id (.ofChain origin t.slots left)).slots = t.slots + left.length :=
        congrArg (t.slots + ·) (size_ofChain origin t.slots left)
      rw [hslots, Tableau.attach_beside] at h₂
      refine ⟨a₂, ?_, h₂⟩
      change (a.appendChain origin n.id left).bind _ = _
      rw [hleft]
      exact hright

/-- The result of a rule is put below several leaves, one after the other. -/
theorem extendAll_sim {e : Expansion} {leaves : List Nat} (h : a.Represents t) (hs : Spaced t)
    (hleaves : ∀ l ∈ leaves, ∃ n ∈ t.tree.labels, n.id = l) (origin : Nat) :
    ∃ a', a.extendAll origin e leaves = some a' ∧ a'.Represents (t.grow origin e leaves) := by
  induction leaves generalizing a t with
  | nil => exact ⟨a, rfl, h⟩
  | cons l leaves ih =>
      obtain ⟨n, hn, rfl⟩ := hleaves l List.mem_cons_self
      obtain ⟨a₁, hextend, h₁⟩ := extend_sim h hs hn origin
      have hrest : ∀ l ∈ leaves, ∃ m ∈ (t.extend origin e n.id).tree.labels, m.id = l := by
        intro l hl
        obtain ⟨m, hm, hid⟩ := hleaves l (List.mem_cons_of_mem _ hl)
        exact ⟨m, (hs.mem_labels_attach hn).2 (Or.inl hm), hid⟩
      obtain ⟨a₂, hall, h₂⟩ := ih h₁ (hs.attach hn (e.numberedFrom_toForest origin t.slots)) hrest
      refine ⟨a₂, ?_, h₂⟩
      change (a.extend origin n.id e).bind _ = _
      rw [hextend]
      exact hall

namespace Represents

variable (h : a.Represents t)

include h

theorem retermed (terms : List Term) : Represents { a with terms } { t with terms } :=
  ⟨h.options, h.root, h.length, h.nodeCount, h.openBranches, rfl, h.names, h.worklist, h.holds.congr fun _ _ => rfl,
    h.buried⟩

theorem freshTerm_eq : a.freshTerm = t.freshTerm := by
  rw [freshTerm, Tableau.freshTerm, h.options, h.terms, h.names]

end Represents

/-- A term is entered among the terms and among the instances of a node. -/
theorem use_sim (h : a.Represents t) (hi : Indexed t) (hn : n ∈ t.tree.labels) (x : Term) :
    ∃ a', (a.addTerm x).use n.id x = some (some x, a') ∧ a'.Represents (t.instantiate n.id x) := by
  have h₁ : (a.addTerm x).Represents { t with terms := Term.enter t.terms x } := by
    rw [addTerm, h.terms]
    exact h.retermed _
  obtain ⟨a', hmark, h'⟩ := h₁.mark (hi.of_rel
    (Forest.Rel.refl (R := fun n m : Node => m.id = n.id) (fun _ => rfl) _) (fun _ _ h => h) rfl rfl) hn
    (G := fun n => { n with instances := Term.enter n.instances x }) fun _ => rfl
  refine ⟨a', ?_, h'⟩
  change ((a.addTerm x).mark n.id _).bind _ = _
  rw [hmark]
  rfl

/-- The term for the rule of a node is found and entered. -/
theorem instantiate_sim (h : a.Represents t) (hi : Indexed t) (hn : n ∈ t.tree.labels) (term : Option Term) :
    ∃ a', a.instantiate n.id term = some (t.given n term, a') ∧
      a'.Represents (t.enterTerm n.id (t.given n term)) := by
  obtain ⟨s, hslot, rfl, _⟩ := h.exists_slot hn
  have hnode : a.instantiate s.node.id term =
      if s.node.kind.isQuantified then a.findTerm s.node.id term else some (none, a) := by
    rw [instantiate, hslot]
    rfl
  rw [hnode, Tableau.given]
  by_cases hquantified : s.node.kind.isQuantified = true
  · rw [if_pos hquantified, if_pos hquantified, findTerm, hslot]
    cases term with
    | some x => exact use_sim h hi hn x
    | none =>
        simp only [Option.bind_eq_bind, Option.bind_some]
        rw [Tableau.termFor, h.terms, h.freshTerm_eq]
        by_cases hreusable : s.node.kind.isReusable = true
        · rw [if_pos hreusable, if_pos hreusable]
          cases hfind : t.terms.find? fun x => !s.node.instances.contains x with
          | none => exact use_sim h hi hn t.freshTerm
          | some x =>
              -- the term is there already
              have hadd : a.addTerm x = a := by
                have hmem : x ∈ a.terms := h.terms ▸ List.mem_of_find?_eq_some hfind
                rw [addTerm, Term.enter, if_pos (List.contains_iff_mem.2 hmem)]
              have huse := use_sim h hi hn x
              rw [hadd] at huse
              exact huse
        · rw [if_neg hreusable, if_neg hreusable]
          exact use_sim h hi hn t.freshTerm
  · rw [if_neg hquantified, if_neg hquantified]
    exact ⟨a, rfl, h⟩

theorem tick_sim (h : a.Represents t) (hi : Indexed t) (hn : n ∈ t.tree.labels) (opened : Nat) :
    ∃ a', a.tick n.id opened = some a' ∧ a'.Represents (t.tick n.id opened) := by
  obtain ⟨a₁, hmark, h₁⟩ := h.mark hi hn (G := fun n => { n with ticked := true }) fun _ => rfl
  have h₂ := (h₁.dequeue n.id).recount (t.openBranches + opened)
  refine ⟨_, ?_, h₂⟩
  change (a.mark n.id _).bind _ = _
  rw [hmark, ← h₁.openBranches]
  rfl

/-- The rule of a node that waits is applied below the open leaves under it. -/
theorem applyRule_sim {x : Option Term} {term : Option Term} {e : Expansion} (h : a.Represents t) (hv : Valid t)
    (hn : n ∈ t.tree.labels) (hx : t.given n term = x) (he : n.signed.expansion x = some e) :
    ∃ a', a.applyRule n.id (t.openLeavesBelow n.id) term = some (true, a') ∧
      a'.Represents (t.applied n x e (t.openLeavesBelow n.id)) := by
  obtain ⟨a₁, hinstantiate, h₁⟩ := instantiate_sim h hv.toIndexed hn term
  rw [hx] at hinstantiate h₁
  have hi₁ := Tableau.indexed_enterTerm hv.toIndexed n.id x
  have hopen := Tableau.openLeaves_enterTerm (Tableau.openLeaves_openLeavesBelow hv.toCoherent n.id) n.id x
  have hleaves : ∀ l ∈ t.openLeavesBelow n.id, ∃ m ∈ (t.enterTerm n.id x).tree.labels, m.id = l := by
    intro l hl
    obtain ⟨leaf, up, hb, hid, _⟩ := hopen l hl
    exact ⟨leaf, Tree.mem_labels_of_mem_branch hb List.mem_cons_self, hid⟩
  obtain ⟨a₂, hgrow, h₂⟩ := extendAll_sim (e := e) h₁ hi₁.spaced hleaves n.id
  have hne := Signed.chain_ne_nil he
  have hnodup := Tableau.nodup_openLeavesBelow hv.numbered n.id
  -- the node with the term entered, before and after the growth
  have hsame := Tableau.sameJudgement_touch n.id x false
  have hn₁ : Tableau.touch n.id x false n ∈ (t.enterTerm n.id x).tree.labels := by
    rw [Tableau.tree_enterTerm, Tree.labels_map]
    exact List.mem_map_of_mem hn
  have hn₂ := Tableau.mem_labels_grow n.id hi₁ hne hnodup hopen hn₁
  obtain ⟨s₁, hslot₁, hnode₁, _⟩ := h₁.exists_slot hn₁
  obtain ⟨s₂, hslot₂, hnode₂, _⟩ := h₂.exists_slot hn₂
  rw [hsame.id] at hslot₁ hslot₂
  have hkind : s₂.node.kind = n.kind := by
    rw [hnode₂, Node.kind, hsame.signed]
    rfl
  have hrule : a.applyRule n.id (t.openLeavesBelow n.id) term =
      if n.kind.isReusable then some (true, a₂)
      else (a₂.tick n.id (e.branchDelta * (t.openLeavesBelow n.id).length)).bind fun a => some (true, a) := by
    rw [applyRule, hinstantiate]
    simp only [Option.bind_eq_bind, Option.bind_some, hslot₁, hnode₁, hsame.signed, he, hgrow, hslot₂, hkind]
    rfl
  rw [hrule, Tableau.applied]
  by_cases hreusable : n.kind.isReusable = true
  · rw [if_pos hreusable, if_pos hreusable]
    exact ⟨a₂, rfl, h₂⟩
  · rw [if_neg hreusable, if_neg hreusable]
    have hi₂ : Indexed ((t.enterTerm n.id x).grow n.id e (t.openLeavesBelow n.id)) :=
      (Tableau.foldl_extend_induction (P := fun _ => True) hne (fun _ _ _ _ _ _ _ => trivial) hi₁ hnodup hopen
        trivial).1
    obtain ⟨a₃, htick, h₃⟩ := tick_sim h₂ hi₂ hn₂ (e.branchDelta * (t.openLeavesBelow n.id).length)
    rw [hsame.id] at htick h₃
    rw [htick]
    exact ⟨a₃, rfl, h₃⟩

/-- Developing a node. -/
theorem develop_sim (h : a.Represents t) (hv : Valid t) (id : Nat) (term : Option Term) :
    Simulates (a.develop id term) (t.develop id term) := by
  rcases h.live_eq hv.toIndexed id with ⟨n, s, hnode, hlive, rfl, _, _⟩ | ⟨refusal, hnode, hlive⟩
  · obtain ⟨hn, rfl⟩ := Tableau.node_eq_ok hnode
    obtain ⟨r, hr, hroot⟩ := Forest.exists_site_of_mem_labels hn []
    have hleaves := h.openLeavesBelow_eq hv.toIndexed hr
    rw [hroot] at hleaves
    rw [develop, hlive]
    cases hticked : s.node.ticked with
    | true =>
        have hnothing : t.develop s.node.id term = (.ok false, t) := by
          simp [Tableau.develop, hnode, hticked]
        rw [hnothing]
        refine ⟨a, ?_, h⟩
        simp [hticked]
    | false =>
        simp only [hticked, Bool.false_eq_true, if_false, hleaves, Option.bind_eq_bind, Option.bind_some]
        cases hclosed : s.node.branchClosed with
        | true =>
            have hnil := (Tableau.openLeavesBelow_eq_nil hv.toCoherent hn).2 hclosed
            have hnothing : t.develop s.node.id term = (.ok false, t) := by
              simp [Tableau.develop, hnode, hticked, hnil]
            rw [hnothing, hnil]
            exact ⟨a, rfl, h⟩
        | false =>
            obtain ⟨e, he, happlied, hvalid⟩ := Tableau.applied_waiting hv hn hticked hclosed term
            obtain ⟨a₁, happly, h₁⟩ := applyRule_sim h hv hn rfl he
            have hne : ¬ (t.openLeavesBelow s.node.id).isEmpty = true := by
              rw [List.isEmpty_iff, Tableau.openLeavesBelow_eq_nil hv.toCoherent hn, hclosed]
              exact Bool.false_ne_true
            obtain ⟨a₂, hclose, h₂⟩ := closeBranches_sim h₁ hvalid.toCoherent (happlied.mem_labels hn)
            rw [(Tableau.sameJudgement_touch s.node.id _ _).id] at hclose h₂
            rw [Tableau.develop_eq hv hnode hticked hclosed he, if_neg hne, happly, Option.bind_some]
            refine ⟨a₂, ?_, h₂⟩
            change (a₁.closeBranches s.node.id).bind _ = _
            rw [hclose]
            rfl
  · rw [develop, hlive, Tableau.develop, hnode]
    exact ⟨a, rfl, h⟩

/-- Stating another premise. -/
theorem assume_sim (h : a.Represents t) (hi : Indexed t) (s : Signed) : Simulates (a.assume s) (t.assume s) := by
  rw [assume, h.leaves_eq hi, Tableau.assume]
  cases hleaves : t.tree.leaves with
  | nil => exact ⟨a, rfl, h⟩
  | cons leaf rest =>
      cases rest with
      | cons leaf' rest =>
          refine ⟨a, ?_, h⟩
          simp
      | nil =>
          have hmem : leaf ∈ t.tree.labels := by
            apply (Forest.leaves_sublist_labels t.tree.toForest).mem
            rw [← Tree.leaves, hleaves]
            exact List.mem_cons_self
          obtain ⟨p, hslot, rfl, _⟩ := h.exists_slot hmem
          simp only [Option.bind_eq_bind, Option.bind_some, List.map_cons, List.map_nil, hslot]
          cases hclosed : p.node.branchClosed with
          | true =>
              rw [if_pos rfl, if_pos rfl]
              exact ⟨a, rfl, h⟩
          | false =>
              rw [if_neg Bool.false_ne_true, if_neg Bool.false_ne_true]
              have hseeded : (a.seedTerms s.formula).Represents
                  { t with terms := Tableau.seed t.options t.terms s.formula } := by
                have hseed : Tableau.seed a.options a.terms s.formula = Tableau.seed t.options t.terms s.formula := by
                  rw [h.options, h.terms]
                rw [seedTerms, hseed]
                exact h.retermed _
              obtain ⟨a', happend, h'⟩ := append_sim hseeded ⟨hi.numbered, hi.id_lt⟩ hmem s none
              rw [happend]
              refine ⟨a', ?_, h'⟩
              rw [← h.length]
              rfl

theorem sendToBack_sim (h : a.Represents t) (id : Nat) : (a.sendToBack id).Represents (t.sendToBack id) := by
  rw [sendToBack, Tableau.sendToBack, h.worklist]
  split
  · exact h.requeue _
  · exact h

/-- Sending a node to the back of the worklist. -/
theorem defer_sim (h : a.Represents t) (hi : Indexed t) (id : Nat) : Simulates (some (a.defer id)) (t.defer id) := by
  rcases h.live_eq hi id with ⟨n, s, hnode, hlive, _, _, _⟩ | ⟨refusal, hnode, hlive⟩
  · rw [defer, hlive, Tableau.defer, hnode]
    exact ⟨_, rfl, sendToBack_sim h id⟩
  · rw [defer, hlive, Tableau.defer, hnode]
    exact ⟨a, rfl, h⟩

/-- The arena and the tableau of the first premise. -/
theorem start_sim (o : Options) (s : Signed) : (start o s).Represents (.start o s) where
  options := rfl
  root := rfl
  length := rfl
  nodeCount := rfl
  openBranches := rfl
  terms := rfl
  names := rfl
  worklist := by
    change (if (Node.ofSigned 0 s none).ticked then [] else [0]) =
      Tableau.pending (.cons (.ofSigned 0 s none) .nil .nil)
    rw [Tableau.pending, Forest.labels, Forest.labels, List.nil_append, List.filter_singleton]
    cases (Node.ofSigned 0 s none).ticked <;> rfl
  holds := ⟨rfl, trivial, trivial⟩
  buried := by
    intro id hid hfree
    have hid : id < 1 := hid
    exact absurd (Nat.lt_one_iff.1 hid).symm (hfree _ List.mem_cons_self)

end Arena

end Tableaux
