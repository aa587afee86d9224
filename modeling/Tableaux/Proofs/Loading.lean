import Mathlib
import Tableaux.Proofs.Contradictions
import Tableaux.Proofs.Occurrences

/-!
How a problem becomes a tableau. It does exactly if something is stated and every atom has as many arguments as its
predicate has places; otherwise the first atom that has not is named. The tableau is a single path of the formulas in
their order, its terms are those that occur free in them, and its branch is closed exactly if two of them contradict
each other, since all of them are compared when the last one has been stated.
-/

namespace Tableaux

/-- The value that was put in last is found. -/
theorem FieldMap.get?_insert (m : FieldMap) (key value : String) : (m.insert key value).get? key = some value := by
  obtain ⟨entries, hsorted⟩ := m
  change (insertEntry key value entries).lookup key = some value
  clear hsorted
  induction entries with
  | nil => simp [insertEntry]
  | cons entry entries ih =>
      rw [insertEntry]
      split
      · exact List.lookup_cons_self
      · split
        · exact List.lookup_cons_self
        · rename_i hne
          rw [List.lookup_cons, beq_false_of_ne hne]
          exact ih

theorem Fault.field?_withField (f : Fault) (key value : String) : (f.withField key value).field? key = some value :=
  FieldMap.get?_insert _ key value

/-- The atom has as many arguments as its predicate has places. -/
def Atom.WellFormed (a : Atom) : Prop :=
  a.predicate.arity = a.args.length

instance (a : Atom) : Decidable a.WellFormed :=
  inferInstanceAs (Decidable (_ = _))

namespace Formula

/-- The atoms from left to right. -/
def atoms : Formula → List Atom
  | atom a => [a]
  | not f => f.atoms
  | binary _ l r => l.atoms ++ r.atoms
  | quantified _ _ body => body.atoms

def WellFormed (f : Formula) : Prop :=
  ∀ a ∈ f.atoms, a.WellFormed

/-- The atom is the first from the left whose number of arguments is wrong. -/
def LeftmostMismatch (f : Formula) (a : Atom) : Prop :=
  ∃ left right, f.atoms = left ++ a :: right ∧ ¬ a.WellFormed ∧ ∀ b ∈ left, b.WellFormed

theorem LeftmostMismatch.not_wellFormed {f : Formula} {a : Atom} (h : f.LeftmostMismatch a) : ¬ f.WellFormed := by
  obtain ⟨left, right, heq, hmisfit, _⟩ := h
  intro hf
  exact hmisfit (hf a (by rw [heq]; exact List.mem_append_right _ List.mem_cons_self))

/-- A mismatch of arities is looked for among the atoms from left to right. -/
theorem arityMismatch?_eq (f : Formula) : f.arityMismatch? = f.atoms.find? fun a => !decide a.WellFormed := by
  induction f with
  | atom a =>
      by_cases h : a.WellFormed
      · have hsome : (atom a).arityMismatch? = none := if_pos h
        simp [hsome, atoms, h]
      · have hsome : (atom a).arityMismatch? = some a := if_neg h
        simp [hsome, atoms, h]
  | not f ih => exact ih
  | binary c l r ihl ihr =>
      rw [arityMismatch?, ihl, ihr, atoms, List.find?_append]
      cases l.atoms.find? fun a => !decide a.WellFormed <;> rfl
  | quantified q x body ih => exact ih

theorem arityMismatch?_eq_none_iff {f : Formula} : f.arityMismatch? = none ↔ f.WellFormed := by
  rw [arityMismatch?_eq, List.find?_eq_none]
  simp [WellFormed]

theorem arityMismatch?_eq_some_iff {f : Formula} {a : Atom} :
    f.arityMismatch? = some a ↔ f.LeftmostMismatch a := by
  rw [arityMismatch?_eq, List.find?_eq_some_iff_append]
  simp only [Bool.not_not, Bool.not_eq_true', decide_eq_false_iff_not, decide_eq_true_eq]
  constructor
  · rintro ⟨hmisfit, left, right, heq, hleft⟩
    exact ⟨left, right, heq, hmisfit, hleft⟩
  · rintro ⟨left, right, heq, hmisfit, hleft⟩
    exact ⟨hmisfit, left, right, heq, hleft⟩

end Formula

namespace Problem

open Tableau

variable {p : Problem} {o : Options}

section Validation

/-- The atom is the first that is wrong in the first formula with such an atom, which has the given index. -/
def FirstMismatch (l : List Signed) (index : Nat) (a : Atom) : Prop :=
  ∃ s, l[index]? = some s ∧ s.formula.LeftmostMismatch a ∧ ∀ r ∈ l.take index, r.formula.WellFormed

theorem firstMismatch_cons_zero {s : Signed} {l : List Signed} {a : Atom} :
    FirstMismatch (s :: l) 0 a ↔ s.formula.LeftmostMismatch a := by
  simp [FirstMismatch]

theorem firstMismatch_cons_succ {s : Signed} {l : List Signed} {index : Nat} {a : Atom} :
    FirstMismatch (s :: l) (index + 1) a ↔ s.formula.WellFormed ∧ FirstMismatch l index a := by
  simp only [FirstMismatch, List.getElem?_cons_succ, List.take_succ_cons, List.forall_mem_cons]
  constructor
  · rintro ⟨r, hr, hmismatch, hs, hbefore⟩
    exact ⟨hs, r, hr, hmismatch, hbefore⟩
  · rintro ⟨hs, r, hr, hmismatch, hbefore⟩
    exact ⟨r, hr, hmismatch, hs, hbefore⟩

theorem firstMismatch_eq_none_iff {index : Nat} {l : List Signed} :
    firstMismatch index l = none ↔ ∀ s ∈ l, s.formula.WellFormed := by
  induction l generalizing index with
  | nil => simp [firstMismatch]
  | cons s l ih =>
      rw [firstMismatch, List.forall_mem_cons, ← @ih (index + 1), ← Formula.arityMismatch?_eq_none_iff]
      cases s.formula.arityMismatch? <;> simp

theorem firstMismatch_eq_some_iff {index : Nat} {l : List Signed} {e : Obstacle} :
    firstMismatch index l = some e ↔ ∃ i a, FirstMismatch l i a ∧ e = .arity (index + i) a := by
  induction l generalizing index with
  | nil => simp [firstMismatch, FirstMismatch]
  | cons s l ih =>
      rw [firstMismatch]
      cases hs : s.formula.arityMismatch? with
      | some b =>
          have hmismatch := Formula.arityMismatch?_eq_some_iff.1 hs
          constructor
          · rintro ⟨⟩
            exact ⟨0, b, firstMismatch_cons_zero.2 hmismatch, rfl⟩
          · rintro ⟨i, a, hfirst, rfl⟩
            cases i with
            | zero =>
                rw [firstMismatch_cons_zero, ← Formula.arityMismatch?_eq_some_iff, hs] at hfirst
                rw [Option.some.inj hfirst]
                rfl
            | succ i => exact absurd (firstMismatch_cons_succ.1 hfirst).1 hmismatch.not_wellFormed
      | none =>
          have hwell := Formula.arityMismatch?_eq_none_iff.1 hs
          refine ih.trans ⟨?_, ?_⟩
          · rintro ⟨i, a, hfirst, rfl⟩
            exact ⟨i + 1, a, firstMismatch_cons_succ.2 ⟨hwell, hfirst⟩, by rw [Nat.add_right_comm, Nat.add_assoc]⟩
          · rintro ⟨i, a, hfirst, rfl⟩
            cases i with
            | zero => exact absurd hwell (firstMismatch_cons_zero.1 hfirst).not_wellFormed
            | succ i =>
                exact ⟨i, a, (firstMismatch_cons_succ.1 hfirst).2, by rw [Nat.add_right_comm, Nat.add_assoc]⟩

theorem forall_signedFormulas {P : Formula → Prop} :
    (∀ s ∈ p.signedFormulas, P s.formula) ↔ (∀ s ∈ p.premises, P s.formula) ∧ ∀ f ∈ p.conclusion, P f := by
  rw [signedFormulas, List.forall_mem_append]
  cases p.conclusion <;> simp

theorem defect?_of_stated (h : p.signedFormulas ≠ []) : p.defect? = firstMismatch 0 p.signedFormulas := by
  rw [defect?, if_neg]
  rw [Bool.and_eq_true, List.isEmpty_iff, Option.isNone_iff_eq_none, ← signedFormulas_eq_nil_iff]
  exact h

/-- A problem is valid if something is stated and all atoms have as many arguments as their predicates have places. -/
theorem validate_eq_ok_iff : p.validate = .ok () ↔ (p.premises ≠ [] ∨ p.conclusion ≠ none) ∧
    (∀ s ∈ p.premises, s.formula.WellFormed) ∧ ∀ f ∈ p.conclusion, f.WellFormed := by
  have hok : p.validate = .ok () ↔ p.defect? = none := by
    rw [validate]
    cases p.defect? <;> simp
  rw [hok, ← forall_signedFormulas, ← not_and_or, ← signedFormulas_eq_nil_iff]
  by_cases h : p.signedFormulas = []
  · rw [defect?_of_nothing h]
    simp [h]
  · rw [defect?_of_stated h, firstMismatch_eq_none_iff]
    simp [h]

/-- What is wrong with a problem is that nothing is stated, or else its first wrong atom. -/
theorem validate_eq_error_iff {e : Obstacle} : p.validate = .error e ↔
    (p.premises = [] ∧ p.conclusion = none ∧ e = .noPremises) ∨
      ∃ index a, FirstMismatch p.signedFormulas index a ∧ e = .arity index a := by
  have herror : p.validate = .error e ↔ p.defect? = some e := by
    rw [validate]
    cases p.defect? <;> simp
  rw [herror, ← and_assoc, ← signedFormulas_eq_nil_iff]
  by_cases h : p.signedFormulas = []
  · rw [defect?_of_nothing h]
    simp [h, FirstMismatch, eq_comm]
  · rw [defect?_of_stated h, firstMismatch_eq_some_iff]
    simp [h]

/-- Nothing but an invalid problem stands in the way of a tableau. -/
theorem toTableau_eq_error_iff {e : Obstacle} : p.toTableau o = .error e ↔ p.validate = .error e := by
  cases hvalid : p.validate with
  | ok =>
      obtain ⟨first, rest, hformulas⟩ := List.exists_cons_of_ne_nil (signedFormulas_ne_nil hvalid)
      rw [toTableau_eq hvalid hformulas]
      simp
  | error e' =>
      have herror : p.toTableau o = .error e' := by
        rw [toTableau, hvalid]
        rfl
      rw [herror]
      simp

theorem exists_toTableau_iff : (∃ t, p.toTableau o = .ok t) ↔ p.validate = .ok () := by
  constructor
  · rintro ⟨t, ht⟩
    exact validate_of_toTableau ht
  · intro hvalid
    obtain ⟨first, rest, hformulas⟩ := List.exists_cons_of_ne_nil (signedFormulas_ne_nil hvalid)
    exact ⟨_, toTableau_eq hvalid hformulas o⟩

end Validation

end Problem

namespace Tableau

variable {t : Tableau}

/-- The nodes of premises that are stated one after the other, numbered from `id` on. -/
def statements (id : Nat) (l : List Signed) : List Node :=
  (l.zipIdx id).map fun s => .ofSigned s.2 s.1 none

theorem map_statements (id : Nat) (l : List Signed) :
    (statements id l).map (fun n => (n.signed, n.id)) = (l.map Signed.fold).zipIdx id := by
  rw [statements, List.map_map, List.zipIdx_map]
  rfl

/-- With seeding the free occurrences of terms in a premise are entered. -/
theorem seed_eq (o : Options) (terms : List Term) (f : Formula) :
    seed o terms f = if o.seedConstants then f.freeOccurrences.foldl Term.enter terms else terms := by
  rw [seed, Formula.freeTerms_eq, Term.foldl_enter_eraseDups]

theorem foldl_seed (o : Options) (l : List Signed) :
    l.foldl (fun terms s => seed o terms s.formula) [] =
      if o.seedConstants then (l.flatMap fun s => s.formula.freeOccurrences).eraseDups else [] := by
  simp only [seed_eq]
  cases o.seedConstants with
  | true => simp only [if_true, ← Term.foldl_enter_nil, List.foldl_flatMap]
  | false => simp only [Bool.false_eq_true, if_false, List.foldl_fixed]

/-- A premise prolongs the only branch, and with seeding its free terms are entered. -/
theorem assume_path (h : Valid t) (hstraight : Straight t) {b : List Node} (hpath : t.tree.branches = [b])
    (s : Signed) : (t.assume s).2.tree.branches = [.ofSigned t.slots s none :: b] ∧
      (t.assume s).2.slots = t.slots + 1 ∧ (t.assume s).2.options = t.options ∧
      (t.assume s).2.terms = seed t.options t.terms s.formula := by
  rcases assume_cases t s with ⟨_, heq⟩ | ⟨leaf, up, hbranches, _, heq⟩
  · rw [(assume_straight h hstraight s).1] at heq
    cases heq
  · obtain rfl : b = leaf :: up := (List.cons.inj (hpath.symm.trans hbranches)).1
    rw [heq]
    exact ⟨branches_stated h.numbered s hbranches, rfl, rfl, rfl⟩

/-- Stating premises puts their nodes below each other at the end of the only branch. -/
theorem run_assume_path (h : Valid t) (hstraight : Straight t) {b : List Node} (hpath : t.tree.branches = [b])
    (rest : List Signed) :
    (t.run (rest.map .assume)).tree.branches = [(statements t.slots rest).reverse ++ b] ∧
      (t.run (rest.map .assume)).terms = rest.foldl (fun terms s => seed t.options terms s.formula) t.terms := by
  induction rest generalizing t b with
  | nil => exact ⟨hpath, rfl⟩
  | cons s rest ih =>
      obtain ⟨hnext, hslots, hoptions, hterms⟩ := assume_path h hstraight hpath s
      obtain ⟨hbranches, hall⟩ := ih (valid_assume h s) (assume_straight h hstraight s).2 hnext
      rw [hslots] at hbranches
      rw [hoptions, hterms] at hall
      refine ⟨hbranches.trans ?_, hall⟩
      rw [statements, statements, List.zipIdx_cons, List.map_cons, List.reverse_cons, List.append_assoc]
      rfl

end Tableau

namespace Problem

open Tableau

variable {p : Problem} {o : Options}

/-- Two of the formulas in the tableau are the same and have opposite values. -/
def StatesContradiction (p : Problem) : Prop :=
  ∃ s ∈ p.signedFormulas, ∃ r ∈ p.signedFormulas, s.fold.formula = r.fold.formula ∧ s.fold.value ≠ r.fold.value

/-- The tableau of a problem. -/
structure Loaded (p : Problem) (o : Options) (t : Tableau) : Prop where
  /-- The tree is a single path, with a node for each formula in their order. -/
  path : ∃ b, t.tree.branches = [b] ∧
    b.reverse.map (fun n => (n.signed, n.id)) = (p.signedFormulas.map Signed.fold).zipIdx
  /-- The terms are those that occur free, in order of their first occurrences. -/
  terms : t.terms =
    if o.seedConstants then (p.signedFormulas.flatMap fun s => s.formula.freeOccurrences).eraseDups else []
  /-- The only branch is closed exactly if it holds a contradiction. -/
  closed : ∀ leaf up, t.tree.branches = [leaf :: up] → (leaf.closed = true ↔ p.StatesContradiction)
  openBranches : t.openBranches = 0 ↔ p.StatesContradiction

/-- The contradictions on a path are those that the problem states. -/
theorem contradictory_iff {b : List Node}
    (hb : b.reverse.map (fun n => (n.signed, n.id)) = (p.signedFormulas.map Signed.fold).zipIdx) :
    Contradictory b ↔ p.StatesContradiction := by
  have hsigned : b.reverse.map Node.signed = p.signedFormulas.map Signed.fold := by
    have hfst := congrArg (List.map Prod.fst) hb
    rwa [List.map_map, List.zipIdx_map_fst] at hfst
  have hmem : ∀ r, (∃ n ∈ b, n.signed = r) ↔ ∃ s ∈ p.signedFormulas, s.fold = r := by
    intro r
    rw [← List.mem_map, ← List.mem_map, ← hsigned, List.map_reverse, List.mem_reverse]
  constructor
  · rintro ⟨n, hn, m, hm, hformula, hvalue⟩
    obtain ⟨s, hs, hsn⟩ := (hmem n.signed).1 ⟨n, hn, rfl⟩
    obtain ⟨r, hr, hrm⟩ := (hmem m.signed).1 ⟨m, hm, rfl⟩
    rw [← hsn, ← hrm] at hformula hvalue
    exact ⟨s, hs, r, hr, hformula, hvalue⟩
  · rintro ⟨s, hs, r, hr, hformula, hvalue⟩
    obtain ⟨n, hn, hns⟩ := (hmem s.fold).2 ⟨s, hs, rfl⟩
    obtain ⟨m, hm, hmr⟩ := (hmem r.fold).2 ⟨r, hr, rfl⟩
    rw [← hns, ← hmr] at hformula hvalue
    exact ⟨n, hn, m, hm, hformula, hvalue⟩

/-- The tableau of a problem is a checked one, which before the check is a single path of the formulas. -/
theorem exists_stated {t : Tableau} (h : p.toTableau o = .ok t) :
    ∃ u : Tableau, Valid u ∧ Recorded u ∧ u.tree.branches = [(statements 0 p.signedFormulas).reverse] ∧
      u.terms = p.signedFormulas.foldl (fun terms s => seed o terms s.formula) [] ∧
      (u.checkClosed u.tree.root.id).2 = t := by
  have hvalid := validate_of_toTableau h
  obtain ⟨first, rest, hformulas⟩ := List.exists_cons_of_ne_nil (signedFormulas_ne_nil hvalid)
  obtain ⟨hbranches, hterms⟩ :=
    run_assume_path (valid_start o first) (straight_start o first) (branches_start o first) rest
  refine ⟨(start o first).run (rest.map .assume), valid_run o first _, recorded_run o first _, ?_, ?_, ?_⟩
  · rw [hbranches, hformulas, statements, statements, List.zipIdx_cons, List.map_cons, List.reverse_cons]
    rfl
  · rw [hterms, hformulas]
    rfl
  · rw [toTableau_eq hvalid hformulas o, steps, run_append] at h
    rw [root_id_run_assume]
    exact Except.ok.inj h

/-- What the tableau of a problem is. -/
theorem loaded_of_toTableau {t : Tableau} (h : p.toTableau o = .ok t) : p.Loaded o t := by
  obtain ⟨u, hvalid, hrecorded, hbranches, hterms, rfl⟩ := exists_stated h
  -- the check sets marks only, and afterwards there is no contradiction left that it has not found
  have hcloses := closesTo_checkClosed u u.tree.root.id
  have hvalid' := valid_checkClosed hvalid u.tree.root.id
  have hrecorded' := recorded_checkClosed hvalid.toCoherent hrecorded u.tree.root.id
  have hrechecked := (Checked.checkClosed_root hvalid.toCoherent).rechecked hvalid' hrecorded'
  generalize (u.checkClosed u.tree.root.id).2 = t at *
  obtain ⟨b, hpath, hmarked⟩ := hcloses.exists_path hbranches
  have hb : b.reverse.map (fun n => (n.signed, n.id)) = (p.signedFormulas.map Signed.fold).zipIdx := by
    rw [← map_statements, List.map_reverse, map_eq_of_marked (fun hnm => by rw [hnm.signed, hnm.id]) hmarked,
      List.map_reverse, List.reverse_reverse]
  have hclosed : ∀ leaf up, t.tree.branches = [leaf :: up] → (leaf.closed = true ↔ p.StatesContradiction) := by
    intro leaf up hleaf
    obtain rfl : b = leaf :: up := (List.cons.inj (hpath.symm.trans hleaf)).1
    have hmem : leaf :: up ∈ t.tree.branches := by
      rw [hleaf]
      exact List.mem_cons_self
    exact (hrechecked.closed_iff leaf up hmem).trans (contradictory_iff hb)
  refine ⟨⟨b, hpath, hb⟩, ?_, hclosed, ?_⟩
  · rw [hcloses.terms, hterms, foldl_seed]
  · have hmem : b ∈ t.tree.branches := by
      rw [hpath]
      exact List.mem_cons_self
    obtain ⟨leaf, up, rfl⟩ := Tree.exists_cons_of_mem_branches hmem
    rw [← hclosed leaf up hpath, hrecorded'.leaf leaf up hmem, hvalid'.toCoherent.openBranches_eq_zero, hpath]
    simp

/-- How a problem is loaded. -/
structure Loading (p : Problem) (o : Options) : Prop where
  /-- There is a tableau exactly if the problem is valid. -/
  accepted : (∃ t, p.toTableau o = .ok t) ↔ p.validate = .ok ()
  /-- The problem is valid exactly if something is stated and no atom has the wrong number of arguments. -/
  valid : p.validate = .ok () ↔ (p.premises ≠ [] ∨ p.conclusion ≠ none) ∧
    (∀ s ∈ p.premises, s.formula.WellFormed) ∧ ∀ f ∈ p.conclusion, f.WellFormed
  /-- What is wrong is that nothing is stated, or else the first atom with a wrong number of arguments. -/
  invalid : ∀ e, p.validate = .error e ↔ (p.premises = [] ∧ p.conclusion = none ∧ e = .noPremises) ∨
    ∃ index a, FirstMismatch p.signedFormulas index a ∧ e = .arity index a
  refused : ∀ e, p.toTableau o = .error e ↔ p.validate = .error e
  /-- A wrong atom is reported with its predicate, with the number of its arguments and with the index of its formula. -/
  reported : ∀ index a, FirstMismatch p.signedFormulas index a → ∃ e, p.validate = .error e ∧
    e.fault.code = .invalidInput ∧
    e.fault.message = "predicate " ++ a.predicate.display ++ " applied to " ++ toString a.args.length ++ " arguments" ∧
    e.fault.field? "premise" = some (toString index)
  loaded : ∀ t, p.toTableau o = .ok t → p.Loaded o t

/-- A problem is loaded exactly if it is valid. -/
theorem loading (p : Problem) (o : Options) : p.Loading o where
  accepted := exists_toTableau_iff
  valid := validate_eq_ok_iff
  invalid _ := validate_eq_error_iff
  refused _ := toTableau_eq_error_iff
  reported index a hfirst :=
    ⟨.arity index a, validate_eq_error_iff.2 (Or.inr ⟨index, a, hfirst, rfl⟩), rfl, rfl, Fault.field?_withField _ _ _⟩
  loaded _ := loaded_of_toTableau

end Problem

end Tableaux
