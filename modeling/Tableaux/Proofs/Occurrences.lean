import Mathlib
import Tableaux.Proofs.Substitution

/-!
Free occurrences. The free occurrences of terms in a formula, from left to right, are those of its parts except for
what a quantifier binds. The free terms, which are collected with the binders on the way at hand, are these
occurrences without repetitions; and to enter terms one after the other is to put the new ones behind, each at its
first place.

The arguments of the atoms make up the places of a formula. A term that is free at some place is listed once, behind
exactly the terms that are free before its first place, and it does not matter where else it is bound.
-/

namespace Tableaux

namespace Term

/-- Entering terms puts those that are new behind, in order of first occurrence. -/
theorem foldl_enter (ts us : List Term) : us.foldl enter ts = ts ++ (us.filter fun u => !ts.contains u).eraseDups := by
  induction us generalizing ts with
  | nil => exact (List.append_nil ts).symm
  | cons u us ih =>
      rw [List.foldl_cons, ih]
      by_cases hu : u ∈ ts
      · rw [enter_of_mem hu, List.filter_cons_of_neg (by simpa using hu)]
      · have hfilter : (us.filter fun v => !(ts ++ [u]).contains v) =
            (us.filter fun v => !ts.contains v).filter fun v => !v == u := by
          rw [List.filter_filter]
          apply List.filter_congr
          intro v _
          by_cases hvu : v = u <;> simp [hvu]
        rw [enter_of_not_mem hu, List.filter_cons_of_pos (by simpa using hu), List.eraseDups_cons, hfilter,
          List.append_assoc, List.singleton_append]

theorem foldl_enter_nil (us : List Term) : us.foldl enter [] = us.eraseDups := by
  simpa using foldl_enter [] us

/-- It makes no difference whether repetitions are left out before. -/
theorem foldl_enter_eraseDups (ts us : List Term) : us.eraseDups.foldl enter ts = us.foldl enter ts := by
  rw [← foldl_enter_nil]
  induction us using List.reverseRecOn with
  | nil => rfl
  | append_singleton us u ih =>
      rw [List.foldl_append, List.foldl_append, List.foldl_cons, List.foldl_nil, List.foldl_cons, List.foldl_nil, ← ih]
      by_cases hu : u ∈ us.foldl enter []
      · have hmem : u ∈ (us.foldl enter []).foldl enter ts := mem_foldl_enter.2 (Or.inr hu)
        rw [enter_of_mem hu, enter_of_mem hmem]
      · rw [enter_of_not_mem hu, List.foldl_append, List.foldl_cons, List.foldl_nil]

/-- Without repetitions, a term stands right behind what stands before its first occurrence. -/
theorem eraseDups_append_cons {us : List Term} {t : Term} (h : t ∉ us) (vs : List Term) :
    ∃ after, (us ++ t :: vs).eraseDups = us.eraseDups ++ t :: after ∧ t ∉ after := by
  have hnew : t ∉ us.eraseDups := fun hmem => h (List.mem_eraseDups.1 hmem)
  rw [← foldl_enter_nil, List.foldl_append, foldl_enter_nil, List.foldl_cons, enter_of_not_mem hnew, foldl_enter,
    List.append_assoc, List.singleton_append]
  refine ⟨_, rfl, fun hmem => ?_⟩
  simp at hmem

end Term

namespace Formula

/-- The free occurrences of terms from left to right, with repetitions. -/
def freeOccurrences : Formula → List Term
  | atom a => a.args
  | not f => f.freeOccurrences
  | binary _ l r => l.freeOccurrences ++ r.freeOccurrences
  | quantified _ y body => body.freeOccurrences.filter (· ≠ y)

theorem collectFree_eq (bound found : List Term) (f : Formula) :
    f.collectFree bound found = (f.freeOccurrences.filter fun x => !bound.contains x).foldl Term.enter found := by
  induction f generalizing bound found with
  | atom a =>
      rw [collectFree, freeOccurrences, List.foldl_filter]
      congr 1
      funext found x
      cases bound.contains x <;> rfl
  | not f ih => exact ih bound found
  | binary c l r ihl ihr =>
      rw [collectFree, ihr, ihl, freeOccurrences, List.filter_append, List.foldl_append]
  | quantified q y body ih =>
      rw [collectFree, ih, freeOccurrences, List.filter_filter]
      congr 1
      apply List.filter_congr
      intro x _
      by_cases hxy : x = y <;> simp [hxy]

/-- The free terms are the free occurrences, each at its first place. -/
theorem freeTerms_eq (f : Formula) : f.freeTerms = f.freeOccurrences.eraseDups := by
  rw [freeTerms, collectFree_eq, Term.foldl_enter_nil]
  simp

end Formula

/-- An argument of an atom in a formula, with the binders in whose scopes it stands, innermost first. -/
structure Argument where
  term : Term
  binders : List Term
deriving DecidableEq

namespace Argument

/-- No quantifier binds the argument. -/
def Free (o : Argument) : Prop :=
  o.term ∉ o.binders

instance (o : Argument) : Decidable o.Free :=
  inferInstanceAs (Decidable (_ ∉ _))

/-- The terms that are free among arguments, with repetitions. -/
def freeTerms (l : List Argument) : List Term :=
  (l.filter fun o => o.Free).map term

theorem freeTerms_append (l r : List Argument) : freeTerms (l ++ r) = freeTerms l ++ freeTerms r := by
  rw [freeTerms, List.filter_append, List.map_append]
  rfl

theorem freeTerms_cons {o : Argument} (h : o.Free) (l : List Argument) : freeTerms (o :: l) = o.term :: freeTerms l := by
  simp [freeTerms, h]

/-- The terms that are free among arguments are those that are free at some place. -/
theorem mem_freeTerms {l : List Argument} {t : Term} :
    t ∈ freeTerms l ↔ ∃ place : Nat, ∃ o ∈ l[place]?, o.term = t ∧ o.Free := by
  rw [freeTerms, List.mem_map]
  constructor
  · rintro ⟨o, ho, rfl⟩
    obtain ⟨hmem, hfree⟩ := List.mem_filter.1 ho
    obtain ⟨place, hget⟩ := List.mem_iff_getElem?.1 hmem
    exact ⟨place, o, hget, rfl, of_decide_eq_true hfree⟩
  · rintro ⟨place, o, hget, rfl, hfree⟩
    exact ⟨o, List.mem_filter.2 ⟨List.mem_of_getElem? hget, decide_eq_true hfree⟩, rfl⟩

end Argument

namespace Formula

variable {f : Formula} {place : Nat} {s t : Term}

/-- The arguments from left to right of a formula in the scopes of the given binders. -/
def arguments (binders : List Term) : Formula → List Argument
  | atom a => a.args.map fun x => ⟨x, binders⟩
  | not f => f.arguments binders
  | binary _ l r => l.arguments binders ++ r.arguments binders
  | quantified _ y body => body.arguments (y :: binders)

/-- The term is the argument at the given place, counted from the left, and no quantifier binds it there. -/
def FreeAt (f : Formula) (place : Nat) (t : Term) : Prop :=
  ∃ o ∈ (f.arguments [])[place]?, o.term = t ∧ o.Free

instance : Decidable (f.FreeAt place t) :=
  inferInstanceAs (Decidable (∃ _ ∈ _, _))

/-- The place is the first one at which the term is free. -/
def FirstFreeAt (f : Formula) (place : Nat) (t : Term) : Prop :=
  f.FreeAt place t ∧ ∀ earlier < place, ¬ f.FreeAt earlier t

instance : Decidable (f.FirstFreeAt place t) :=
  inferInstanceAs (Decidable (_ ∧ _))

theorem exists_firstFreeAt (h : ∃ place, f.FreeAt place t) : ∃ place, f.FirstFreeAt place t :=
  ⟨Nat.find h, Nat.find_spec h, fun _ => Nat.find_min h⟩

theorem FirstFreeAt.le {first : Nat} (h : f.FirstFreeAt first t) (hfree : f.FreeAt place t) : first ≤ place :=
  Nat.not_lt.1 fun hlt => h.2 place hlt hfree

/-- In the scopes of further binders, the free occurrences are free unless they are bound there. -/
theorem freeTerms_arguments (binders : List Term) (f : Formula) :
    Argument.freeTerms (f.arguments binders) = f.freeOccurrences.filter (· ∉ binders) := by
  induction f generalizing binders with
  | atom a =>
      rw [Argument.freeTerms, arguments, List.filter_map, List.map_map, freeOccurrences]
      exact List.map_id _
  | not f ih => exact ih binders
  | binary c l r ihl ihr =>
      rw [arguments, Argument.freeTerms_append, ihl, ihr, freeOccurrences, List.filter_append]
  | quantified q y body ih =>
      rw [arguments, freeOccurrences, ih, List.filter_filter]
      apply List.filter_congr
      intro x _
      by_cases hxy : x = y <;> simp [hxy]

/-- The free occurrences are the arguments that are free where they stand. -/
theorem freeOccurrences_eq (f : Formula) : f.freeOccurrences = Argument.freeTerms (f.arguments []) := by
  rw [freeTerms_arguments]
  simp

/-- A term occurs free if it is free at some place. -/
theorem hasFree_iff_exists_freeAt : f.hasFree t = true ↔ ∃ place, f.FreeAt place t := by
  rw [← mem_freeTerms, freeTerms_eq, List.mem_eraseDups, freeOccurrences_eq]
  exact Argument.mem_freeTerms

/-- The terms that are free before a place. -/
theorem mem_freeTerms_take_iff :
    s ∈ Argument.freeTerms ((f.arguments []).take place) ↔ ∃ earlier < place, f.FreeAt earlier s := by
  rw [Argument.mem_freeTerms]
  constructor
  · rintro ⟨earlier, o, hget, hfree⟩
    rw [List.getElem?_take] at hget
    split at hget
    · rename_i hlt
      exact ⟨earlier, hlt, o, hget, hfree⟩
    · cases hget
  · rintro ⟨earlier, hlt, o, hget, hfree⟩
    rw [← List.getElem?_take_of_lt hlt] at hget
    exact ⟨earlier, o, hget, hfree⟩

/-- A term is listed once, behind exactly the terms that are free before its first place. -/
theorem freeTerms_eq_of_firstFreeAt (h : f.FirstFreeAt place t) :
    ∃ before after, f.freeTerms = before ++ t :: after ∧ t ∉ before ∧ t ∉ after ∧
      ∀ s, s ∈ before ↔ ∃ earlier < place, f.FreeAt earlier s := by
  obtain ⟨⟨o, hget, rfl, hfree⟩, hfirst⟩ := h
  obtain ⟨hlt, rfl⟩ := List.getElem?_eq_some_iff.1 hget
  have hnew : (f.arguments [])[place].term ∉ Argument.freeTerms ((f.arguments []).take place) := by
    rw [mem_freeTerms_take_iff]
    rintro ⟨earlier, hearlier, hfree⟩
    exact hfirst earlier hearlier hfree
  have hsplit : f.freeOccurrences = Argument.freeTerms ((f.arguments []).take place) ++
      (f.arguments [])[place].term :: Argument.freeTerms ((f.arguments []).drop (place + 1)) := by
    conv_lhs => rw [freeOccurrences_eq, ← List.take_append_drop place (f.arguments []), List.drop_eq_getElem_cons hlt]
    rw [Argument.freeTerms_append, Argument.freeTerms_cons hfree]
  obtain ⟨after, heq, hafter⟩ :=
    Term.eraseDups_append_cons hnew (Argument.freeTerms ((f.arguments []).drop (place + 1)))
  refine ⟨_, after, by rw [freeTerms_eq, hsplit, heq], ?_, hafter, fun s => ?_⟩
  · rwa [List.mem_eraseDups]
  · rw [List.mem_eraseDups, mem_freeTerms_take_iff]

/-- The terms are listed in the order of their first free places. -/
theorem freeTerms_pairwise (f : Formula) :
    f.freeTerms.Pairwise fun s t => ∃ i j, f.FirstFreeAt i s ∧ f.FirstFreeAt j t ∧ i < j := by
  rw [List.pairwise_iff_forall_sublist]
  intro s t hst
  have hpair : ([s] ++ [t]).Sublist f.freeTerms := hst
  obtain ⟨front, back, hlist, hs, ht⟩ := List.append_sublist_iff.1 hpair
  have hfree : f.hasFree t = true := mem_freeTerms.1 (hst.mem (List.mem_cons_of_mem _ List.mem_cons_self))
  obtain ⟨j, hj⟩ := exists_firstFreeAt (hasFree_iff_exists_freeAt.1 hfree)
  obtain ⟨before, after, heq, hnot, hafter, hbefore⟩ := freeTerms_eq_of_firstFreeAt hj
  -- `t` is listed once, so what stands before it here is what is free before its first place
  obtain ⟨middle, rest, rfl⟩ := List.append_of_mem (List.singleton_sublist.1 ht)
  rw [heq, ← List.append_assoc, List.append_cons_inj_of_notMem hnot hafter] at hlist
  have hmem : s ∈ before := by
    rw [hlist.1]
    exact List.mem_append_left _ (List.singleton_sublist.1 hs)
  obtain ⟨earlier, hlt, hearlier⟩ := (hbefore s).1 hmem
  obtain ⟨i, hi⟩ := exists_firstFreeAt ⟨earlier, hearlier⟩
  exact ⟨i, j, hi, hj, (hi.le hearlier).trans_lt hlt⟩

/-- How the free terms of a formula are listed. -/
structure FreeListing (f : Formula) : Prop where
  nodup : f.freeTerms.Nodup
  mem_iff : ∀ t, t ∈ f.freeTerms ↔ f.hasFree t = true
  hasFree_iff : ∀ t, f.hasFree t = true ↔ ∃ place, f.FreeAt place t
  /-- Of two terms, the one whose first free place comes first is listed first. -/
  ordered : f.freeTerms.Pairwise fun s t => ∃ i j, f.FirstFreeAt i s ∧ f.FirstFreeAt j t ∧ i < j
  identified : ∀ t ∈ f.freeTerms, t ∈ f.identifiers
  /-- Whatever binds it elsewhere, a term with a first free place is listed once, and what is listed before it are the
  terms that are free at an earlier place. -/
  once : ∀ t place, f.FirstFreeAt place t → ∃ before after, f.freeTerms = before ++ t :: after ∧
    t ∉ before ∧ t ∉ after ∧ ∀ s, s ∈ before ↔ ∃ earlier < place, f.FreeAt earlier s

/-- The free terms are those that occur free, each listed once and at its first free place. -/
theorem freeTerms_listing (f : Formula) : f.FreeListing where
  nodup := by
    refine f.freeTerms_pairwise.imp ?_
    rintro s _ ⟨i, j, hi, hj, hlt⟩ rfl
    exact Nat.not_le.2 hlt (hj.le hi.1)
  mem_iff _ := mem_freeTerms
  hasFree_iff _ := hasFree_iff_exists_freeAt
  ordered := f.freeTerms_pairwise
  identified _ ht := mem_identifiers_of_hasFree (mem_freeTerms.1 ht)
  once _ _ := freeTerms_eq_of_firstFreeAt

/-- For every `x` holds `R(x, b)`, and there is a `b` such that `R(x, b)`: each name is bound in one part and free in
the other. -/
def halfBound : Formula :=
  binary .conjunction (quantified .universal ⟨"x"⟩ (atom (.of "R" [⟨"x"⟩, ⟨"b"⟩])))
    (quantified .existential ⟨"b"⟩ (atom (.of "R" [⟨"x"⟩, ⟨"b"⟩])))

/-- At the first place of all `x` is bound. Its first free place is behind that of `b`, and so it is listed behind. -/
theorem freeTerms_listing_half_bound :
    (halfBound.arguments [])[0]? = some ⟨⟨"x"⟩, [⟨"x"⟩]⟩ ∧ halfBound.FirstFreeAt 2 ⟨"x"⟩ ∧
      halfBound.freeTerms = [⟨"b"⟩, ⟨"x"⟩] ∧
      ∃ before after, halfBound.freeTerms = before ++ ⟨"x"⟩ :: after ∧ (⟨"x"⟩ : Term) ∉ before ∧
        (⟨"x"⟩ : Term) ∉ after ∧ ∀ s, s ∈ before ↔ ∃ earlier < 2, halfBound.FreeAt earlier s := by
  have hfirst : halfBound.FirstFreeAt 2 ⟨"x"⟩ := by decide +kernel
  exact ⟨by decide +kernel, hfirst, by decide +kernel, (freeTerms_listing halfBound).once ⟨"x"⟩ 2 hfirst⟩

end Formula

end Tableaux
