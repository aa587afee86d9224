import Mathlib
import Tableaux.Document.Fault
import Tableaux.Document.Problem
import Tableaux.Document.Snapshot
import Tableaux.Proofs.Forest
import Tableaux.Proofs.JsonStructure

/-!
Documents survive a round trip. A formula, a problem, a snapshot or a fault, written as JSON text on one line or over
several lines, is read back as it was, if no more brackets are open at once than a reader allows and the numbers are
ones of 64 bits. The readers accept more texts than are ever written: keys in any order, fields that are left out,
records as arrays; so each field has to be followed from the writer to its place in the reader's draft.
-/

namespace Tableaux

namespace Json

mutual

/-- How many brackets are open at once in the text of a value. -/
def nesting : Json → Nat
  | null => 0
  | bool _ => 0
  | nat _ => 0
  | str _ => 0
  | arr items => 1 + itemsNesting items
  | obj members => 1 + membersNesting members

def itemsNesting : List Json → Nat
  | [] => 0
  | item :: items => max item.nesting (itemsNesting items)

def membersNesting : List (String × Json) → Nat
  | [] => 0
  | (_, value) :: members => max value.nesting (membersNesting members)

end

mutual

/-- The numbers in a value. -/
def numbers : Json → List Nat
  | null => []
  | bool _ => []
  | nat n => [n]
  | str _ => []
  | arr items => itemsNumbers items
  | obj members => membersNumbers members

def itemsNumbers : List Json → List Nat
  | [] => []
  | item :: items => item.numbers ++ itemsNumbers items

def membersNumbers : List (String × Json) → List Nat
  | [] => []
  | (_, value) :: members => value.numbers ++ membersNumbers members

end

/-- A value that a reader can take in: no more brackets are open at once than it allows, and the numbers have 64 bits
at most. -/
structure Readable (budget : Nat) (j : Json) : Prop where
  nesting_le : j.nesting ≤ budget
  numbers_lt : ∀ n ∈ j.numbers, n < 2 ^ 64

theorem itemsNesting_le_iff {items : List Json} {budget : Nat} :
    itemsNesting items ≤ budget ↔ ∀ j ∈ items, j.nesting ≤ budget := by
  induction items with
  | nil => simp [itemsNesting]
  | cons item items ih => rw [itemsNesting, Nat.max_le, ih, List.forall_mem_cons]

theorem membersNesting_le_iff {members : List (String × Json)} {budget : Nat} :
    membersNesting members ≤ budget ↔ ∀ member ∈ members, member.2.nesting ≤ budget := by
  induction members with
  | nil => simp [membersNesting]
  | cons member members ih => rw [membersNesting, Nat.max_le, ih, List.forall_mem_cons]

theorem mem_itemsNumbers {items : List Json} {n : Nat} : n ∈ itemsNumbers items ↔ ∃ j ∈ items, n ∈ j.numbers := by
  induction items with
  | nil => simp [itemsNumbers]
  | cons item items ih => simp [itemsNumbers, ih]

theorem mem_membersNumbers {members : List (String × Json)} {n : Nat} :
    n ∈ membersNumbers members ↔ ∃ member ∈ members, n ∈ member.2.numbers := by
  induction members with
  | nil => simp [membersNumbers]
  | cons member members ih => simp [membersNumbers, ih]

namespace Readable

variable {budget : Nat}

theorem nat_le {n : Nat} (h : Readable budget (nat n)) : n ≤ maxNat := by
  have hn := h.numbers_lt n List.mem_cons_self
  have hmax : maxNat = 2 ^ 64 - 1 := rfl
  omega

/-- Inside of an array there is room for one bracket less. -/
theorem items {items : List Json} (h : Readable budget (arr items)) :
    ∃ inner, budget = inner + 1 ∧ ∀ j ∈ items, Readable inner j := by
  have hnesting := h.nesting_le
  rw [nesting] at hnesting
  refine ⟨budget - 1, by omega, fun j hj => ⟨?_, fun n hn => ?_⟩⟩
  · exact itemsNesting_le_iff.1 (by omega) j hj
  · exact h.numbers_lt n (mem_itemsNumbers.2 ⟨j, hj, hn⟩)

/-- Inside of an object there is room for one bracket less. -/
theorem members {members : List (String × Json)} (h : Readable budget (obj members)) :
    ∃ inner, budget = inner + 1 ∧ ∀ member ∈ members, Readable inner member.2 := by
  have hnesting := h.nesting_le
  rw [nesting] at hnesting
  refine ⟨budget - 1, by omega, fun member hmember => ⟨?_, fun n hn => ?_⟩⟩
  · exact membersNesting_le_iff.1 (by omega) member hmember
  · exact h.numbers_lt n (mem_membersNumbers.2 ⟨member, hmember, hn⟩)

end Readable

end Json

open Json

/-! Formulas. -/

theorem Connective.ofTag?_tag (c : Connective) : ofTag? c.tag = some c := by
  cases c <;> decide

theorem Quantifier.ofTag?_tag (q : Quantifier) : ofTag? q.tag = some q := by
  cases q <;> decide

theorem Connective.ofTag?_quantifier (q : Quantifier) : Connective.ofTag? q.tag = none := by
  cases q <;> decide

theorem Term.reads (t : Term) (l : Layout) : Reads Term.read (t.toJson.write l) t :=
  (reads_str t.name l).map Term.mk

/-- A list of terms is read back. -/
theorem Term.reads_list (budget : Nat) (ts : List Term) (l : Layout) :
    Reads (readList (budget + 1) fun _ _ => Term.read) ((Json.arr (ts.map Term.toJson)).write l) ts :=
  Json.reads_list (fun t _ => t.reads l.inner) fun t _ h => by cases h

theorem Predicate.reads (p : Predicate) {budget : Nat} (h : p.toJson.Readable budget) (l : Layout) :
    Reads (Predicate.read budget) (p.toJson.write l) p := by
  obtain ⟨inner, rfl, hmembers⟩ := h.members
  have harity := (hmembers ("arity", .nat p.arity) (by simp)).nat_le
  refine reads_record ⟨some p.name, some p.arity⟩ ?_ rfl
  refine .member rfl rfl (reads_str p.name l.inner) ?_
  exact .member rfl rfl (reads_nat harity l.inner) (.nil _)

theorem Atom.reads (a : Atom) {budget : Nat} (h : a.toJson.Readable budget) (l : Layout) :
    Reads (Atom.read budget) (a.toJson.write l) a := by
  obtain ⟨inner, rfl, hmembers⟩ := h.members
  have hpredicate := hmembers ("predicate", a.predicate.toJson) (by simp)
  obtain ⟨deeper, rfl, _⟩ := (hmembers ("args", .arr (a.args.map Term.toJson)) (by simp)).items
  refine reads_record ⟨some a.predicate, some a.args⟩ ?_ rfl
  refine .member rfl rfl (a.predicate.reads hpredicate l.inner) ?_
  exact .member rfl rfl (Term.reads_list deeper a.args l.inner) (.nil _)

theorem Formula.toJson_ne_null (f : Formula) : f.toJson ≠ .null := by
  cases f <;> exact fun h => by cases h

/-- The text of a formula is read as the formula. The induction is on the formula, and the budget of brackets gets
smaller with each part. -/
theorem Formula.reads (f : Formula) {budget : Nat} (h : f.toJson.Readable budget) (l : Layout) :
    Reads (Formula.read budget) (f.toJson.write l) f := by
  induction f generalizing budget l with
  | atom a =>
      obtain ⟨inner, rfl, hmembers⟩ := h.members
      have hatom := a.reads (hmembers ("Atom", a.toJson) List.mem_cons_self) l.inner
      rw [Formula.read]
      exact reads_tagged (if_pos rfl) (hatom.map atom)
  | not f ih =>
      obtain ⟨inner, rfl, hmembers⟩ := h.members
      have hf := ih (hmembers ("Not", f.toJson) List.mem_cons_self) l.inner
      rw [Formula.read]
      exact reads_tagged (by rw [if_neg (by decide), if_pos rfl]) (hf.map not)
  | binary c left right ihl ihr =>
      obtain ⟨inner, rfl, hmembers⟩ := h.members
      obtain ⟨deeper, rfl, hitems⟩ := (hmembers (c.tag, .arr [left.toJson, right.toJson]) List.mem_cons_self).items
      have hl := ihl (hitems left.toJson (by simp)) l.inner.inner
      have hr := ihr (hitems right.toJson (by simp)) l.inner.inner
      have htag : c.tag ≠ "Atom" ∧ c.tag ≠ "Not" := by cases c <;> decide
      rw [Formula.read]
      refine reads_tagged (by rw [if_neg htag.1, if_neg htag.2, Connective.ofTag?_tag])
        ((reads_pair hl hr left.toJson_ne_null right.toJson_ne_null).map fun pair => binary c pair.1 pair.2)
  | quantified q x body ih =>
      obtain ⟨inner, rfl, hmembers⟩ := h.members
      obtain ⟨deeper, rfl, hitems⟩ := (hmembers (q.tag, .arr [x.toJson, body.toJson]) List.mem_cons_self).items
      have hbody := ih (hitems body.toJson (by simp)) l.inner.inner
      have htag : q.tag ≠ "Atom" ∧ q.tag ≠ "Not" := by cases q <;> decide
      rw [Formula.read]
      refine reads_tagged (by rw [if_neg htag.1, if_neg htag.2, Connective.ofTag?_quantifier, Quantifier.ofTag?_tag])
        ((reads_pair (x.reads l.inner.inner) hbody (fun h => by cases h) body.toJson_ne_null).map
          fun pair => quantified q pair.1 pair.2)

/-! Problems. -/

theorem Signed.reads (s : Signed) {budget : Nat} (h : s.toJson.Readable budget) (l : Layout) :
    Reads (Signed.read budget) (s.toJson.write l) s := by
  obtain ⟨inner, rfl, hmembers⟩ := h.members
  have hformula := s.formula.reads (hmembers ("formula", s.formula.toJson) (by simp)) l.inner
  refine reads_record ⟨some s.formula, some s.value⟩ ?_ rfl
  refine .member rfl rfl hformula ?_
  exact .member rfl rfl (reads_bool s.value l.inner) (.nil _)

theorem Problem.reads (p : Problem) {budget : Nat} (h : p.toJson.Readable budget) (l : Layout) :
    Reads (Problem.read budget) (p.toJson.write l) p := by
  obtain ⟨premises, conclusion⟩ := p
  obtain ⟨inner, rfl, hmembers⟩ := h.members
  obtain ⟨deeper, rfl, hitems⟩ := (hmembers ("premises", .arr (premises.map Signed.toJson)) (by simp)).items
  have hpremises : Reads (readList (deeper + 1) fun deeper _ => Signed.read deeper)
      ((Json.arr (premises.map Signed.toJson)).write l.inner) premises :=
    reads_list (fun s hs => s.reads (hitems s.toJson (List.mem_map_of_mem hs)) l.inner.inner)
      fun s _ h => by cases h
  cases conclusion with
  | none =>
      refine reads_record ⟨some premises, none⟩ ?_ rfl
      exact .member rfl rfl hpremises (.nil _)
  | some f =>
      have hf := f.reads (hmembers ("conclusion", f.toJson) (by simp)) l.inner
      refine reads_record ⟨some premises, some (some f)⟩ ?_ rfl
      refine .member rfl rfl hpremises ?_
      exact .member rfl rfl (hf.option (opens_write f.toJson_ne_null l.inner)) (.nil _)

/-! Snapshots. -/

theorem Kind.ofName?_name (k : Kind) : ofName? k.name = some k := by
  cases k with
  | literal value => cases value <;> decide
  | falseNegation => decide
  | binary c value => cases c <;> cases value <;> decide
  | quantified q value => cases q <;> cases value <;> decide

theorem Snapshot.forestToJson_eq (g : Forest SnapshotEntry) : forestToJson g = g.trees.map toJson := by
  induction g with
  | nil => rfl
  | cons e below beside _ ih => rw [forestToJson, ih, Forest.trees, List.map_cons, toJson]

/-- What is left out only if it is what a reader assumes is not lost. -/
theorem getD_of_omitted {α : Type} {omitted : Bool} {a assumed : α} (h : omitted = true → a = assumed) :
    (if omitted then none else some a).getD assumed = a := by
  cases omitted with
  | true => exact (h rfl).symm
  | false => rfl

theorem getD_of_optional {α : Type} (a? : Option α) : (a?.map some).getD none = a? := by
  cases a? <;> rfl

/-- The text of a snapshot is read as the snapshot if this is so for the snapshots below its root. -/
theorem Snapshot.reads_of_below (s : Snapshot)
    (hbelow : ∀ t ∈ s.below.trees, ∀ {budget : Nat}, (toJson t).Readable budget → ∀ l : Layout,
      Reads (Snapshot.read budget) ((toJson t).write l) t)
    {budget : Nat} (h : s.toJson.Readable budget) (l : Layout) :
    Reads (Snapshot.read budget) (s.toJson.write l) s := by
  obtain ⟨e, below⟩ := s
  have hdocument : toJson ⟨e, below⟩ = e.toJson (below.trees.map toJson) := by
    rw [toJson, forestToJson_eq]
  rw [hdocument] at h ⊢
  obtain ⟨inner, rfl, hmembers⟩ := h.members
  have hid := (hmembers ("id", .nat e.id) (by simp)).nat_le
  have hformula := e.signed.formula.reads (hmembers ("formula", e.signed.formula.toJson) (by simp)) l.inner
  have horigin : ∀ id ∈ e.origin, Reads (readOption readNat) ((Json.nat id).write l.inner) (some id) := by
    intro id hid
    have hle := (hmembers ("developed_from", .nat id) (by simp [Option.mem_def.1 hid])).nat_le
    exact (reads_nat hle l.inner).option (opens_write (by simp) l.inner)
  have hinstances : e.instances.isEmpty = false →
      Reads (readList inner fun _ _ => Term.read) ((Json.arr (e.instances.map Term.toJson)).write l.inner)
        e.instances := by
    intro hne
    obtain ⟨deeper, rfl, _⟩ := (hmembers ("used_terms", .arr (e.instances.map Term.toJson)) (by simp [hne])).items
    exact Term.reads_list deeper e.instances l.inner
  have hchildren : (below.trees.map toJson).isEmpty = false →
      Reads (readList inner fun deeper _ => Snapshot.read deeper)
        ((Json.arr (below.trees.map toJson)).write l.inner) below.trees := by
    intro hne
    obtain ⟨deeper, rfl, hitems⟩ := (hmembers ("children", .arr (below.trees.map toJson)) (by simp [hne])).items
    exact reads_list (fun t ht => hbelow t ht (hitems t.toJson (List.mem_map_of_mem ht)) l.inner.inner)
      fun t _ h => by cases h
  rw [Snapshot.read]
  have hfinish : Draft.finish ⟨some e.id, some e.signed.formula, some e.signed.value, some e.kind, some e.ticked,
      some e.closed, some e.branchClosed, some e.contradictory, e.origin.map some,
      if e.instances.isEmpty then none else some e.instances,
      if (below.trees.map toJson).isEmpty then none else some below.trees⟩ = some ⟨e, below⟩ := by
    simp only [Draft.finish, getD_of_optional, getD_of_omitted List.isEmpty_iff.1, List.isEmpty_map,
      below.ofTrees_trees, Option.bind_eq_bind, Option.bind_some]
  -- what is always written comes first; the draft it leads to is given, so that it is not carried along unreduced
  refine reads_record _ (.append ⟨some e.id, some e.signed.formula, some e.signed.value, some e.kind, some e.ticked,
    some e.closed, some e.branchClosed, some e.contradictory, none, none, none⟩ ?_ ?_) hfinish
  · refine .member rfl rfl (reads_nat hid l.inner) ?_
    refine .member rfl rfl hformula ?_
    refine .member rfl rfl (reads_bool e.signed.value l.inner) ?_
    refine .member rfl rfl (reads_name inner e.kind.ofName?_name l.inner) ?_
    refine .member rfl rfl (reads_bool e.ticked l.inner) ?_
    refine .member rfl rfl (reads_bool e.closed l.inner) ?_
    refine .member rfl rfl (reads_bool e.branchClosed l.inner) ?_
    exact .member rfl rfl (reads_bool e.contradictory l.inner) (.nil _)
  · refine .append _ (.optional (fun (d : Draft) v => { d with origin := v }) rfl rfl rfl (fun _ => rfl) horigin) ?_
    refine .append _ (.omittable (fun (d : Draft) v => { d with instances := v }) rfl rfl rfl (fun _ => rfl)
      hinstances) ?_
    exact .omittable (fun (d : Draft) v => { d with children := v }) rfl rfl rfl (fun _ => rfl) hchildren

theorem Snapshot.reads_of_mem_trees {g : Forest SnapshotEntry} {s : Snapshot} (hs : s ∈ g.trees) {budget : Nat}
    (h : s.toJson.Readable budget) (l : Layout) : Reads (Snapshot.read budget) (s.toJson.write l) s := by
  induction g generalizing s budget l with
  | nil => cases hs
  | cons e below beside ihbelow ihbeside =>
      rcases List.mem_cons.1 hs with rfl | hs
      · exact reads_of_below ⟨e, below⟩ (fun t ht _ h l => ihbelow ht h l) h l
      · exact ihbeside hs h l

theorem Snapshot.reads (s : Snapshot) {budget : Nat} (h : s.toJson.Readable budget) (l : Layout) :
    Reads (Snapshot.read budget) (s.toJson.write l) s :=
  reads_of_mem_trees (g := s.toForest) List.mem_cons_self h l

/-! Faults. -/

theorem FaultCode.ofName?_name (c : FaultCode) : ofName? c.name = some c := by
  cases c <;> decide

/-- An entry whose key is greater than all others is put behind them. -/
theorem FieldMap.insertEntry_of_lt {key value : String} {entries : List (String × String)}
    (h : ∀ entry ∈ entries, entry.1 < key) : insertEntry key value entries = entries ++ [(key, value)] := by
  induction entries with
  | nil => rfl
  | cons entry entries ih =>
      have hlt : entry.1 < key := h entry List.mem_cons_self
      have hge : ¬ key < entry.1 := fun hlt' => String.lt_irrefl _ (String.lt_trans hlt hlt')
      have hne : key ≠ entry.1 := fun heq => String.lt_irrefl key (heq ▸ hlt)
      rw [insertEntry, if_neg hge, if_neg hne, ih fun entry hentry => h entry (List.mem_cons_of_mem _ hentry),
        List.cons_append]

theorem FieldMap.entries_foldl_insert {m : FieldMap} {entries : List (String × String)}
    (h : (m.entries ++ entries).Pairwise fun a b => a.1 < b.1) :
    (entries.foldl (fun m entry => m.insert entry.1 entry.2) m).entries = m.entries ++ entries := by
  induction entries generalizing m with
  | nil => rw [List.foldl_nil, List.append_nil]
  | cons entry entries ih =>
      have hinsert : (m.insert entry.1 entry.2).entries = m.entries ++ [entry] :=
        insertEntry_of_lt fun first hfirst => (List.pairwise_append.1 h).2.2 first hfirst entry List.mem_cons_self
      rw [List.foldl_cons, ih, hinsert, List.append_assoc, List.singleton_append]
      rw [hinsert, List.append_assoc, List.singleton_append]
      exact h

/-- A map is made up from its own entries. -/
theorem FieldMap.ofList_entries (m : FieldMap) : ofList m.entries = m := by
  have hentries : (ofList m.entries).entries = m.entries := entries_foldl_insert m.sorted
  obtain ⟨entries, sorted⟩ := m
  cases hm : ofList entries with
  | mk entries' sorted' =>
      rw [hm] at hentries
      congr

theorem FieldMap.eq_empty_of_isEmpty (m : FieldMap) (h : m.isEmpty = true) : m = empty := by
  obtain ⟨entries, sorted⟩ := m
  cases List.isEmpty_iff.1 h
  rfl

theorem FaultContext.reads (c : FaultContext) {budget : Nat} (h : c.toJson.Readable budget) (l : Layout) :
    Reads (FaultContext.read budget) (c.toJson.write l) c := by
  obtain ⟨inner, rfl, hmembers⟩ := h.members
  have hentries : c.fields.isEmpty = false → Reads (readStringMap inner)
      ((Json.obj (c.fields.entries.map fun entry => (entry.1, .str entry.2))).write l.inner) c.fields.entries := by
    intro hne
    obtain ⟨deeper, rfl, _⟩ := (hmembers ("fields", .obj (c.fields.entries.map fun entry => (entry.1, .str entry.2)))
      (by simp [hne])).members
    exact reads_stringMap deeper c.fields.entries l.inner
  have hcauses : c.causes.isEmpty = false →
      Reads (readList inner fun _ _ => readStr) ((Json.arr (c.causes.map .str)).write l.inner) c.causes := by
    intro hne
    obtain ⟨deeper, rfl, _⟩ := (hmembers ("causes", .arr (c.causes.map .str)) (by simp [hne])).items
    exact Json.reads_list (fun cause _ => reads_str cause l.inner.inner) fun cause _ h => by cases h
  refine reads_record ⟨if c.fields.isEmpty then none else some c.fields,
    if c.causes.isEmpty then none else some c.causes⟩ ?_ ?_
  · refine .append _ (.omittable (b := c.fields) (fun (d : Draft) v => { d with fields := v }) rfl rfl rfl
      (fun _ => rfl) fun hne => ?_) ?_
    · have hmap := (hentries hne).map FieldMap.ofList
      rwa [c.fields.ofList_entries] at hmap
    · exact .omittable (fun (d : Draft) v => { d with causes := v }) rfl rfl rfl (fun _ => rfl) hcauses
  · simp only [getD_of_omitted c.fields.eq_empty_of_isEmpty, getD_of_omitted List.isEmpty_iff.1]

theorem Fault.reads (f : Fault) {budget : Nat} (h : f.toJson.Readable budget) (l : Layout) :
    Reads (Fault.read budget) (f.toJson.write l) f := by
  obtain ⟨inner, rfl, hmembers⟩ := h.members
  have hcontext : ∀ c ∈ f.context, Reads (readOption (FaultContext.read inner)) (c.toJson.write l.inner) (some c) := by
    intro c hc
    have hc := c.reads (hmembers ("context", c.toJson) (by simp [Option.mem_def.1 hc])) l.inner
    exact hc.option (opens_write (fun h => by cases h) l.inner)
  have hhint : ∀ hint ∈ f.hint, Reads (readOption readStr) ((Json.str hint).write l.inner) (some hint) :=
    fun hint _ => (reads_str hint l.inner).option (opens_write (by simp) l.inner)
  refine reads_record _ (.append ⟨some f.code, some f.message, none, none⟩ ?_ (.append _
    (.optional (fun (d : Draft) v => { d with context := v }) rfl rfl rfl (fun _ => rfl) hcontext)
    (.optional (fun (d : Draft) v => { d with hint := v }) rfl rfl rfl (fun _ => rfl) hhint))) ?_
  · refine .member rfl rfl (reads_name inner f.code.ofName?_name l.inner) ?_
    exact .member rfl rfl (reads_str f.message l.inner) (.nil _)
  · simp only [getD_of_optional, Option.bind_eq_bind, Option.bind_some]

/-! Whole texts. -/

/-- The text of a value, on one line or over several. -/
theorem Json.toList_of_text {j : Json} {text : String} (h : text = j.compact ∨ text = j.pretty) :
    ∃ l, text.toList = j.write l := by
  rcases h with rfl | rfl
  · exact ⟨.compact, String.toList_ofList⟩
  · exact ⟨.indented 0, String.toList_ofList⟩

theorem Json.readAll_text {α : Type} {read : Reader α} {j : Json} {a : α} (h : ∀ l, Reads read (j.write l) a)
    {text : String} (htext : text = j.compact ∨ text = j.pretty) : readAll read text.toList = .ok a := by
  obtain ⟨l, hl⟩ := toList_of_text htext
  rw [hl]
  exact (h l).readAll

/-- The text of a problem is not blank, so it is read, and then judged. -/
theorem Problem.ofText_of_ofRawText {p : Problem} {text : String}
    (htext : text = p.toJson.compact ∨ text = p.toJson.pretty) (h : ofRawText text = .ok p) :
    ofText text = p.validate.map fun _ => p := by
  have hblank : text.toList.all Text.isBlank = false := by
    obtain ⟨l, hl⟩ := toList_of_text htext
    rw [hl]
    rfl
  rw [ofText, hblank, if_neg Bool.false_ne_true, h]
  cases hvalidate : p.validate with
  | error obstacle => simp only [hvalidate, Except.map]
  | ok => simp only [hvalidate, Except.map]

/-- A formula, a problem, a snapshot or a fault that does not nest too deeply is read back from its text, on one line or
over several; where a problem is to be valid as well, the answer is the problem or what makes it invalid. -/
theorem documents_round_trip :
    (∀ f : Formula, f.toJson.Readable 127 → ∀ text, text = f.toJson.compact ∨ text = f.toJson.pretty →
      Formula.ofText text = .ok f) ∧
    (∀ p : Problem, p.toJson.Readable 127 → ∀ text, text = p.toJson.compact ∨ text = p.toJson.pretty →
      Problem.ofRawText text = .ok p ∧ Problem.ofText text = p.validate.map fun _ => p) ∧
    (∀ s : Snapshot, s.toJson.Readable 127 → ∀ text, text = s.toJson.compact ∨ text = s.toJson.pretty →
      Snapshot.ofText text = .ok s) ∧
    (∀ f : Fault, f.toJson.Readable 127 → ∀ text, text = f.toJson.compact ∨ text = f.toJson.pretty →
      Fault.ofText text = .ok f) := by
  refine ⟨?_, ?_, ?_, ?_⟩
  · intro f hf text htext
    exact readAll_text (f.reads hf) htext
  · intro p hp text htext
    have hraw : Problem.ofRawText text = .ok p := readAll_text (p.reads hp) htext
    exact ⟨hraw, Problem.ofText_of_ofRawText htext hraw⟩
  · intro s hs text htext
    exact readAll_text (s.reads hs) htext
  · intro f hf text htext
    exact readAll_text (f.reads hf) htext

/-- A formula whose names hold quotes, backslashes, control characters and characters beyond the basic plane, and with
the greatest arity. -/
def Formula.awkward : Formula :=
  .quantified .universal ⟨"x\"\\\x01"⟩
    (.binary .implication (.atom ⟨⟨"\n", 2 ^ 64 - 1⟩, [⟨"x\"\\\x01"⟩, ⟨"𝄞"⟩]⟩) (.not (.atom ⟨⟨"", 0⟩, []⟩)))

def Problem.awkward : Problem :=
  ⟨[⟨Formula.awkward, false⟩, ⟨Formula.awkward.not, true⟩], some Formula.awkward⟩

def Snapshot.awkward : Snapshot :=
  ⟨⟨0, ⟨Formula.awkward, true⟩, .quantified .universal true, false, false, false, false, none, [⟨"\t"⟩]⟩,
    .cons ⟨2 ^ 64 - 1, ⟨Formula.awkward, false⟩, .quantified .universal false, true, false, true, false, some 0, []⟩
      .nil .nil⟩

def Fault.awkward : Fault :=
  Fault.withHint (Fault.withCause (Fault.withField ⟨.unknownNode, "\r\x7f", none, none⟩ "é" "/") "") "\\u0000"

theorem documents_round_trip_awkward :
    (Formula.awkward.toJson.Readable 127 ∧ Formula.ofText Formula.awkward.toJson.pretty = .ok Formula.awkward) ∧
    (Problem.awkward.toJson.Readable 127 ∧ Problem.ofRawText Problem.awkward.toJson.compact = .ok Problem.awkward) ∧
    (Snapshot.awkward.toJson.Readable 127 ∧ Snapshot.ofText Snapshot.awkward.toJson.pretty = .ok Snapshot.awkward) ∧
    (Fault.awkward.toJson.Readable 127 ∧ Fault.ofText Fault.awkward.toJson.compact = .ok Fault.awkward) := by
  have hformula : Formula.awkward.toJson.Readable 127 := ⟨by decide, by decide⟩
  have hproblem : Problem.awkward.toJson.Readable 127 := ⟨by decide, by decide⟩
  have hsnapshot : Snapshot.awkward.toJson.Readable 127 := ⟨by decide, by decide⟩
  have hfault : Fault.awkward.toJson.Readable 127 := ⟨by decide, by decide⟩
  obtain ⟨hformulas, hproblems, hsnapshots, hfaults⟩ := documents_round_trip
  exact ⟨⟨hformula, hformulas _ hformula _ (.inr rfl)⟩, ⟨hproblem, (hproblems _ hproblem _ (.inl rfl)).1⟩,
    ⟨hsnapshot, hsnapshots _ hsnapshot _ (.inr rfl)⟩, ⟨hfault, hfaults _ hfault _ (.inl rfl)⟩⟩

end Tableaux
