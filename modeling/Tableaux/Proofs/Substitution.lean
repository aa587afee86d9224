import Mathlib
import Tableaux.Formula.Substitution

/-!
Names and substitution. The search for an unused name succeeds within its bound, because the candidates are
pairwise different. Substitution keeps the size of a formula, and the free terms of its result are the free terms
of the formula other than the variable, and possibly the inserted term.
-/

namespace Tableaux

theorem Term.mem_enter {ts : List Term} {t s : Term} : s ∈ enter ts t ↔ s ∈ ts ∨ s = t := by
  unfold enter
  split
  · rename_i hmem
    have ht : t ∈ ts := by simpa using hmem
    constructor
    · exact Or.inl
    · rintro (hs | rfl)
      · exact hs
      · exact ht
  · simp

theorem Term.enter_of_mem {ts : List Term} {t : Term} (h : t ∈ ts) : enter ts t = ts :=
  if_pos (List.contains_iff_mem.2 h)

theorem Term.enter_of_not_mem {ts : List Term} {t : Term} (h : t ∉ ts) : enter ts t = ts ++ [t] :=
  if_neg fun hmem => h (List.contains_iff_mem.1 hmem)

theorem Term.prefix_enter (terms : List Term) (x : Term) : terms <+: enter terms x := by
  rw [enter]
  split
  · exact List.prefix_refl _
  · exact List.prefix_append _ _

/-- The terms are still there after one more may have been entered. -/
theorem Term.prefix_elim_enter (terms : List Term) (x : Option Term) : terms <+: x.elim terms (enter terms) := by
  cases x with
  | none => exact List.prefix_refl _
  | some y => exact prefix_enter terms y

theorem Term.mem_foldl_enter {ts us : List Term} {s : Term} : s ∈ us.foldl enter ts ↔ s ∈ ts ∨ s ∈ us := by
  induction us generalizing ts with
  | nil => simp
  | cons u us ih => rw [List.foldl_cons, ih, mem_enter, List.mem_cons, or_assoc]

section Naming

variable {candidate : Nat → Term} {used : List Term}

/-- Of one more candidate than there are names in use, one is unused. -/
theorem exists_unused (hinj : Function.Injective candidate) (used : List Term) :
    ∃ n ∈ List.range (used.length + 1), candidate n ∉ used := by
  by_contra hnone
  push Not at hnone
  have hsub : (List.range (used.length + 1)).map candidate ⊆ used := by
    intro t ht
    obtain ⟨n, hn, rfl⟩ := List.mem_map.1 ht
    exact hnone n hn
  have hnodup : ((List.range (used.length + 1)).map candidate).Nodup := List.nodup_range.map hinj
  have hlen := (hnodup.subperm hsub).length_le
  simp only [List.length_map, List.length_range] at hlen
  omega

/-- The search finds the first unused candidate, and passes over no more candidates than there are names in use. -/
theorem isLeast_leastUnused (hinj : Function.Injective candidate) (used : List Term) :
    IsLeast {n | candidate n ∉ used} (leastUnused candidate used) ∧ leastUnused candidate used ≤ used.length := by
  obtain ⟨n, hn, hunused⟩ := exists_unused hinj used
  have hsome : ((List.range (used.length + 1)).find? fun n => !used.contains (candidate n)).isSome := by
    rw [List.find?_isSome]
    exact ⟨n, hn, by simpa using hunused⟩
  obtain ⟨m, hm⟩ := Option.isSome_iff_exists.1 hsome
  obtain ⟨hfound, hmem, hbefore⟩ := List.find?_range_eq_some.1 hm
  rw [leastUnused, hm, Option.getD_some]
  refine ⟨⟨by simpa using hfound, fun k hk => ?_⟩, Nat.lt_succ_iff.1 (List.mem_range.1 hmem)⟩
  by_contra hlt
  have hused := hbefore k (Nat.not_le.1 hlt)
  exact hk (by simpa using hused)

theorem candidate_leastUnused_not_mem (hinj : Function.Injective candidate) :
    candidate (leastUnused candidate used) ∉ used :=
  (isLeast_leastUnused hinj used).1.1

end Naming

namespace Term

theorem indexed_injective (stem : String) : Function.Injective (indexed stem) := by
  intro m n h
  have hname : stem ++ toString m = stem ++ toString n := congrArg Term.name h
  exact Nat.repr_injective ((String.append_right_inj stem).1 hname)

theorem primed_injective (t : Term) : Function.Injective t.primed := by
  intro m n h
  have hname := (String.append_right_inj t.name).1 (congrArg Term.name h)
  have hlist := congrArg List.length (String.ofList_injective hname)
  simpa only [List.length_replicate] using hlist

theorem freshIndexed_not_mem (stem : String) (used : List Term) : freshIndexed stem used ∉ used :=
  candidate_leastUnused_not_mem (indexed_injective stem)

theorem freshPrimed_not_mem (t : Term) (used : List Term) : t.freshPrimed used ∉ used :=
  candidate_leastUnused_not_mem (fun _ _ h => Nat.succ_injective (primed_injective t h))

end Term

namespace Formula

theorem size_pos (f : Formula) : 0 < f.size := by
  cases f <;> simp only [size] <;> omega

theorem mem_identifiers_of_hasFree {x : Term} {f : Formula} (h : f.hasFree x = true) : x ∈ f.identifiers := by
  induction f with
  | atom a => simpa [hasFree, Atom.mentions, identifiers] using h
  | not f ih => exact ih h
  | binary c l r ihl ihr =>
      simp only [hasFree, Bool.or_eq_true] at h
      exact List.mem_append.2 (h.imp ihl ihr)
  | quantified q y body ih =>
      simp only [hasFree, Bool.and_eq_true] at h
      exact List.mem_cons_of_mem _ (ih h.2)

theorem hasFree_eq_false_of_not_mem {x : Term} {f : Formula} (h : x ∉ f.identifiers) : f.hasFree x = false := by
  rw [← Bool.not_eq_true]
  exact fun hfree => h (mem_identifiers_of_hasFree hfree)

theorem rebound_not_mem (x t y : Term) (body : Formula) : rebound x t y body ∉ x :: t :: body.identifiers :=
  Term.freshPrimed_not_mem _ _

theorem rebound_ne_var (x t y : Term) (body : Formula) : rebound x t y body ≠ x := by
  intro h
  exact rebound_not_mem x t y body (by rw [h]; exact List.mem_cons_self)

theorem rebound_ne_term (x t y : Term) (body : Formula) : rebound x t y body ≠ t := by
  intro h
  exact rebound_not_mem x t y body (by rw [h]; exact List.mem_cons_of_mem _ List.mem_cons_self)

theorem rebound_not_mem_identifiers (x t y : Term) (body : Formula) :
    rebound x t y body ∉ body.identifiers := by
  intro h
  exact rebound_not_mem x t y body (List.mem_cons_of_mem _ (List.mem_cons_of_mem _ h))

/-- Plain replacement by a name that is nowhere in the formula moves the free occurrences and no others. -/
theorem hasFree_replace {y z : Term} {f : Formula} (hz : z ∉ f.identifiers) (w : Term) :
    (f.replace y z).hasFree w = true ↔ (f.hasFree w = true ∧ w ≠ y) ∨ (w = z ∧ f.hasFree y = true) := by
  induction f with
  | atom a =>
      simp only [replace, hasFree, Atom.mentions, Atom.replace, List.contains_eq_mem, decide_eq_true_eq,
        List.mem_map]
      constructor
      · rintro ⟨s, hs, rfl⟩
        split
        · rename_i hsy
          exact Or.inr ⟨rfl, hsy ▸ hs⟩
        · rename_i hsy
          exact Or.inl ⟨hs, hsy⟩
      · rintro (⟨hw, hwy⟩ | ⟨rfl, hy⟩)
        · exact ⟨w, hw, if_neg hwy⟩
        · exact ⟨y, hy, if_pos rfl⟩
  | not f ih => exact ih hz
  | binary c l r ihl ihr =>
      simp only [identifiers, List.mem_append, not_or] at hz
      simp only [replace, hasFree, Bool.or_eq_true, ihl hz.1, ihr hz.2]
      rw [or_and_right, and_or_left]
      exact or_or_or_comm
  | quantified q v body ih =>
      simp only [identifiers, List.mem_cons, not_or] at hz
      simp only [replace]
      split
      · rename_i hvy
        simp only [hasFree, Bool.and_eq_true, decide_eq_true_eq, hvy]
        constructor
        · rintro ⟨hyw, hw⟩
          exact Or.inl ⟨⟨hyw, hw⟩, fun h => hyw h.symm⟩
        · rintro (⟨h, _⟩ | ⟨_, h, _⟩)
          · exact h
          · exact absurd rfl h
      · rename_i hvy
        simp only [hasFree, Bool.and_eq_true, decide_eq_true_eq, ih hz.2]
        constructor
        · rintro ⟨hvw, ⟨hw, hwy⟩ | ⟨hwz, hy⟩⟩
          · exact Or.inl ⟨⟨hvw, hw⟩, hwy⟩
          · exact Or.inr ⟨hwz, hvy, hy⟩
        · rintro (⟨⟨hvw, hw⟩, hwy⟩ | ⟨hwz, _, hy⟩)
          · exact ⟨hvw, Or.inl ⟨hw, hwy⟩⟩
          · exact ⟨fun hvw => hz.1 (hwz.symm.trans hvw.symm), Or.inr ⟨hwz, hy⟩⟩

@[simp]
theorem size_subst (x t : Term) (f : Formula) : (f.subst x t).size = f.size := by
  fun_induction subst x t f with
  | case1 a => rfl
  | case2 f ih => simp [size, ih]
  | case3 c l r ihl ihr => simp [size, ihl, ihr]
  | case4 q body => rfl
  | case5 q y body hyx hcap ih => simp [size, ih]
  | case6 q y body hyx hcap ih => simp [size, ih]

/-- The free terms after a substitution: those from before but the variable, and the inserted term if the
variable was there. -/
theorem hasFree_subst (x t : Term) (f : Formula) (w : Term) :
    (f.subst x t).hasFree w = true ↔ (f.hasFree w = true ∧ w ≠ x) ∨ (w = t ∧ f.hasFree x = true) := by
  fun_induction subst x t f with
  | case1 a =>
      simp only [hasFree, Atom.mentions, Atom.replace, List.contains_eq_mem, decide_eq_true_eq, List.mem_map]
      constructor
      · rintro ⟨s, hs, rfl⟩
        split
        · rename_i hsx
          exact Or.inr ⟨rfl, hsx ▸ hs⟩
        · rename_i hsx
          exact Or.inl ⟨hs, hsx⟩
      · rintro (⟨hw, hwx⟩ | ⟨rfl, hx⟩)
        · exact ⟨w, hw, if_neg hwx⟩
        · exact ⟨x, hx, if_pos rfl⟩
  | case2 f ih => exact ih
  | case3 c l r ihl ihr =>
      simp only [hasFree, Bool.or_eq_true, ihl, ihr]
      rw [or_and_right, and_or_left]
      exact or_or_or_comm
  | case4 q body =>
      simp only [hasFree, Bool.and_eq_true, decide_eq_true_eq]
      constructor
      · rintro ⟨hxw, hw⟩
        exact Or.inl ⟨⟨hxw, hw⟩, fun h => hxw h.symm⟩
      · rintro (⟨h, _⟩ | ⟨_, h, _⟩)
        · exact h
        · exact absurd rfl h
  | case5 q y body hyx hcap ih =>
      -- The binder is the inserted term; its new name is not, and occurs nowhere in the scope.
      have hcap : y = t ∧ body.hasFree x = true := by simpa [captures] using hcap
      have hzid := rebound_not_mem_identifiers x t y body
      have hzt := rebound_ne_term x t y body
      have hzfree := hasFree_eq_false_of_not_mem hzid
      simp only [hasFree, Bool.and_eq_true, decide_eq_true_eq, ih, hasFree_replace hzid]
      constructor
      · rintro ⟨hzw, ⟨⟨hw, hwy⟩ | ⟨hwz, _⟩, hwx⟩ | ⟨hwt, _⟩⟩
        · exact Or.inl ⟨⟨fun h => hwy h.symm, hw⟩, hwx⟩
        · exact absurd hwz.symm hzw
        · exact Or.inr ⟨hwt, hyx, hcap.2⟩
      · rintro (⟨⟨hyw, hw⟩, hwx⟩ | ⟨hwt, _, hx⟩)
        · refine ⟨fun hzw => ?_, Or.inl ⟨Or.inl ⟨hw, fun h => hyw h.symm⟩, hwx⟩⟩
          rw [← hzw, hzfree] at hw
          exact Bool.false_ne_true hw
        · exact ⟨fun hzw => hzt (hzw.trans hwt), Or.inr ⟨hwt, Or.inl ⟨hx, fun h => hyx h.symm⟩⟩⟩
  | case6 q y body hyx hcap ih =>
      have hcap : y = t → body.hasFree x = false := by simpa [captures] using hcap
      simp only [hasFree, Bool.and_eq_true, decide_eq_true_eq, ih]
      constructor
      · rintro ⟨hyw, ⟨hw, hwx⟩ | ⟨hwt, hx⟩⟩
        · exact Or.inl ⟨⟨hyw, hw⟩, hwx⟩
        · exact Or.inr ⟨hwt, hyx, hx⟩
      · rintro (⟨⟨hyw, hw⟩, hwx⟩ | ⟨hwt, _, hx⟩)
        · exact ⟨hyw, Or.inl ⟨hw, hwx⟩⟩
        · refine ⟨fun hyw => ?_, Or.inr ⟨hwt, hx⟩⟩
          rw [hcap (hyw.trans hwt)] at hx
          exact Bool.false_ne_true hx

theorem mem_collectFree {bound found : List Term} {f : Formula} {x : Term} :
    x ∈ f.collectFree bound found ↔ x ∈ found ∨ (f.hasFree x = true ∧ x ∉ bound) := by
  induction f generalizing bound found with
  | atom a =>
      rw [collectFree, hasFree, Atom.mentions, List.contains_iff_mem]
      induction a.args generalizing found with
      | nil => simp
      | cons t args ih =>
          rw [List.foldl_cons, ih]
          split
          · rename_i ht
            rw [List.contains_iff_mem] at ht
            simp only [List.mem_cons]
            constructor
            · rintro (hx | ⟨hx, hbound⟩)
              · exact Or.inl hx
              · exact Or.inr ⟨Or.inr hx, hbound⟩
            · rintro (hx | ⟨rfl | hx, hbound⟩)
              · exact Or.inl hx
              · exact absurd ht hbound
              · exact Or.inr ⟨hx, hbound⟩
          · rename_i ht
            rw [List.contains_iff_mem] at ht
            simp only [Term.mem_enter, List.mem_cons]
            constructor
            · rintro ((hx | rfl) | ⟨hx, hbound⟩)
              · exact Or.inl hx
              · exact Or.inr ⟨Or.inl rfl, ht⟩
              · exact Or.inr ⟨Or.inr hx, hbound⟩
            · rintro (hx | ⟨rfl | hx, hbound⟩)
              · exact Or.inl (Or.inl hx)
              · exact Or.inl (Or.inr rfl)
              · exact Or.inr ⟨hx, hbound⟩
  | not f ih => exact ih
  | binary c l r ihl ihr =>
      rw [collectFree, ihr, ihl, hasFree, Bool.or_eq_true, or_assoc, or_and_right]
  | quantified q y body ih =>
      rw [collectFree, ih, hasFree, Bool.and_eq_true, decide_eq_true_iff, List.mem_cons, not_or]
      constructor
      · rintro (hx | ⟨hx, hne, hbound⟩)
        · exact Or.inl hx
        · exact Or.inr ⟨⟨Ne.symm hne, hx⟩, hbound⟩
      · rintro (hx | ⟨⟨hne, hx⟩, hbound⟩)
        · exact Or.inl hx
        · exact Or.inr ⟨hx, Ne.symm hne, hbound⟩

/-- The free terms that are listed are those that occur free. -/
theorem mem_freeTerms {f : Formula} {x : Term} : x ∈ f.freeTerms ↔ f.hasFree x = true := by
  rw [freeTerms, mem_collectFree]
  simp

end Formula

end Tableaux
