import Mathlib
import Tableaux.Proofs.JsonText

/-!
Reading back arrays, records, maps and tagged alternatives. The text of a compound value is read as that value if the
texts of its parts are, since what comes behind a part, a comma or a closing bracket, ends it. The members of a record
fill a draft one after the other; the order in which they were written does not matter, only that no field comes twice.
-/

namespace Tableaux.Json

variable {α β σ : Type}

theorem opens_write {j : Json} (h : j ≠ null) (l : Layout) : Opens (j.write l) := by
  cases j with
  | null => exact absurd rfl h
  | bool b => cases b <;> exact ⟨_, _, rfl, by decide⟩
  | nat n => exact opens_toDigits n
  | str s => exact ⟨_, _, rfl, by decide⟩
  | arr items => cases items <;> exact ⟨_, _, rfl, by decide⟩
  | obj members => cases members <;> exact ⟨_, _, rfl, by decide⟩

/-! Parts that are read alone. -/

theorem reads_nat {n : Nat} (hn : n ≤ maxNat) (l : Layout) : Reads readNat ((nat n).write l) n := by
  intro blank rest hblank hrest
  have hread := readUnsigned_toDigits hn hrest
  obtain ⟨c, ds, hds, hdigit⟩ := exists_decimal_eq_cons n
  rw [write, readNat, skipBlank_opens hblank (opens_toDigits n)]
  rw [hds, List.cons_append] at hread ⊢
  simp only [hdigit, if_true, hread]

theorem reads_bool (b : Bool) (l : Layout) : Reads readBool ((bool b).write l) b := by
  intro blank rest hblank hrest
  have hopens : Opens ((bool b).write l) := opens_write (by simp) l
  rw [readBool, skipBlank_opens hblank hopens]
  cases b <;> rfl

theorem reads_str (s : String) (l : Layout) : Reads readStr ((str s).write l) s := by
  intro blank rest hblank hrest
  have hopens : Opens ((str s).write l) := opens_write (by simp) l
  rw [readStr, skipBlank_opens hblank hopens]
  simp only [write, quote, List.cons_append, List.append_assoc, List.nil_append]
  exact readString_quoted s rest

theorem Reads.map {read : Reader α} {text : List Char} {a : α} (h : Reads read text a) (f : α → β) :
    Reads (fun s => do
      let (a, s) ← read s
      .ok (f a, s)) text (f a) := by
  intro blank rest hblank hrest
  simp only [h blank rest hblank hrest, bind, Except.bind]

theorem Reads.option {read : Reader α} {text : List Char} {a : α} (h : Reads read text a) (hopens : Opens text) :
    Reads (readOption read) text (some a) := by
  intro blank rest hblank hrest
  have hread := h [] rest blank_nil hrest
  rw [readOption, skipBlank_opens hblank hopens]
  obtain ⟨c, s, rfl, _, _, hn⟩ := hopens
  rw [List.nil_append, List.cons_append] at hread
  simp [hn, hread, bind, Except.bind]

/-- A text that holds nothing else is read whole. -/
theorem Reads.readAll {read : Reader α} {text : List Char} {a : α} (h : Reads read text a) :
    readAll read text = .ok a := by
  have hread := h [] [] blank_nil ends_nil
  rw [List.nil_append, List.append_nil] at hread
  simp [Json.readAll, hread, skipBlank, bind, Except.bind]

/-! Arrays. -/

theorem nextItem_first {blank text : List Char} (hblank : Blank blank) (h : Opens text) (rest : List Char) :
    nextItem true (blank ++ (text ++ rest)) = .ok (.item (text ++ rest)) := by
  rw [nextItem, skipBlank_opens hblank h]
  obtain ⟨c, s, rfl, _, hc, _⟩ := h
  simp

theorem nextItem_later {blank text : List Char} (hblank : Blank blank) (h : Opens text) (rest : List Char) :
    nextItem false (',' :: (blank ++ (text ++ rest))) = .ok (.item (text ++ rest)) := by
  have hskip := skipBlank_opens hblank h rest
  obtain ⟨c, s, rfl, _, hc, _⟩ := h
  rw [List.cons_append] at hskip
  rw [nextItem, skipBlank_cons (by decide)]
  simp only [↓Char.isValue, Char.reduceEq, imp_self, Bool.false_eq_true, ↓reduceIte, List.cons_append, hskip]
  split
  · rename_i heq
    cases heq
  · rename_i heq
    exact absurd (List.cons.inj heq).1 hc
  · rfl

theorem nextItem_end (first : Bool) {blank : List Char} (hblank : Blank blank) (rest : List Char) :
    nextItem first (blank ++ ']' :: rest) = .ok (.done rest) := by
  rw [nextItem, skipBlank_append hblank, skipBlank_cons (by decide)]
  rfl

theorem ends_writeItems (l l' : Layout) (items : List Json) (rest : List Char) :
    Ends (writeItems l items ++ (l'.lineBreak ++ ']' :: rest)) := by
  cases items with
  | nil => exact ends_lineBreak l' (by decide) rest
  | cons item items => exact ends_cons (by decide) _

theorem length_le_writeItems (l : Layout) (items : List Json) : items.length ≤ (writeItems l items).length := by
  induction items with
  | nil => exact Nat.le_refl _
  | cons item items ih =>
      simp only [writeItems, List.length_cons, List.length_append]
      omega

section List

variable {read : Reader α} {toJson : α → Json} {l : Layout}

theorem readItems_writeItems (l' : Layout) {as : List α} (h : ∀ a ∈ as, Reads read ((toJson a).write l) a)
    (hopens : ∀ a ∈ as, toJson a ≠ null) (fuel : Nat) (hfuel : as.length < fuel) (rest : List Char) :
    readItems read fuel false (writeItems l (as.map toJson) ++ (l'.lineBreak ++ ']' :: rest)) = .ok (as, rest) := by
  induction as generalizing fuel with
  | nil =>
      obtain ⟨fuel, rfl⟩ : ∃ k, fuel = k + 1 := ⟨fuel - 1, by simp at hfuel; omega⟩
      simp only [readItems, List.map_nil, writeItems, List.nil_append, nextItem_end false (blank_lineBreak l') rest,
        bind, Except.bind]
  | cons a as ih =>
      rw [List.length_cons] at hfuel
      obtain ⟨fuel, rfl⟩ : ∃ k, fuel = k + 1 := ⟨fuel - 1, by omega⟩
      have hread := h a List.mem_cons_self [] _ blank_nil (ends_writeItems l l' (as.map toJson) rest)
      have hrest := ih (fun b hb => h b (List.mem_cons_of_mem _ hb)) (fun b hb => hopens b (List.mem_cons_of_mem _ hb))
        fuel (by omega)
      rw [List.nil_append] at hread
      simp only [readItems, List.map_cons, writeItems, List.cons_append, List.append_assoc,
        nextItem_later (blank_lineBreak l) (opens_write (hopens a List.mem_cons_self) l), hread, hrest,
        bind, Except.bind]

end List

/-- An array is read as a list if each of its items is read as an element of the list. -/
theorem reads_list {budget : Nat} {read : (inner : Nat) → inner < budget + 1 → Reader α} {toJson : α → Json}
    {l : Layout} {as : List α}
    (h : ∀ a ∈ as, Reads (read budget (Nat.lt_succ_self budget)) ((toJson a).write l.inner) a)
    (hopens : ∀ a ∈ as, toJson a ≠ null) :
    Reads (readList (budget + 1) read) ((arr (as.map toJson)).write l) as := by
  intro blank rest hblank hrest
  rw [readList, skipBlank_opens hblank (opens_write (by simp) l)]
  cases as with
  | nil => rfl
  | cons a as =>
      have hread := h a List.mem_cons_self [] _ blank_nil (ends_writeItems l.inner l (as.map toJson) rest)
      have hlength := length_le_writeItems l.inner (as.map toJson)
      rw [List.length_map] at hlength
      rw [List.nil_append] at hread
      simp only [List.map_cons, write, List.cons_append, List.append_assoc, List.nil_append]
      rw [readItems, nextItem_first (blank_lineBreak l.inner) (opens_write (hopens a List.mem_cons_self) l.inner)]
      have hitems := readItems_writeItems l (fun b hb => h b (List.mem_cons_of_mem _ hb))
        (fun b hb => hopens b (List.mem_cons_of_mem _ hb)) (l.inner.lineBreak ++ ((toJson a).write l.inner ++
          (writeItems l.inner (as.map toJson) ++ (l.lineBreak ++ ']' :: rest)))).length
        (by simp only [List.length_append, List.length_cons]; omega) rest
      simp only [hread, hitems, bind, Except.bind]

/-- An array of two items is read as a pair. -/
theorem reads_pair {budget : Nat} {readLeft : (inner : Nat) → inner < budget + 1 → Reader α}
    {readRight : (inner : Nat) → inner < budget + 1 → Reader β} {left right : Json} {l : Layout} {a : α} {b : β}
    (hleft : Reads (readLeft budget (Nat.lt_succ_self budget)) (left.write l.inner) a)
    (hright : Reads (readRight budget (Nat.lt_succ_self budget)) (right.write l.inner) b) (hl : left ≠ null)
    (hr : right ≠ null) : Reads (readPair (budget + 1) readLeft readRight) ((arr [left, right]).write l) (a, b) := by
  intro blank rest hblank hrest
  have ha := hleft [] _ blank_nil (ends_writeItems l.inner l [right] rest)
  have hb := hright [] _ blank_nil (ends_lineBreak l (c := ']') (by decide) rest)
  have hend : readEnd (l.lineBreak ++ ']' :: rest) = .ok rest := by
    rw [readEnd, skipBlank_append (blank_lineBreak l), skipBlank_cons (by decide)]
    rfl
  rw [readPair, skipBlank_opens hblank (opens_write (by simp) l)]
  simp only [writeItems, List.nil_append, List.cons_append, List.append_assoc] at ha hb
  simp only [write, writeItems, List.cons_append, List.append_assoc, List.nil_append, readItem,
    nextItem_first (blank_lineBreak l.inner) (opens_write hl l.inner), ha,
    nextItem_later (blank_lineBreak l.inner) (opens_write hr l.inner), hb, hend, bind, Except.bind]

/-! Objects. -/

theorem nextKey_first {blank : List Char} (hblank : Blank blank) (key : String) (rest : List Char) :
    nextKey true (blank ++ (quote key ++ rest)) = .ok (some key, rest) := by
  have hread := readString_quoted key rest
  rw [nextKey, skipBlank_append hblank, quote, List.cons_append, skipBlank_cons (by decide)]
  simp [hread, bind, Except.bind]

theorem nextKey_later {blank : List Char} (hblank : Blank blank) (key : String) (rest : List Char) :
    nextKey false (',' :: (blank ++ (quote key ++ rest))) = .ok (some key, rest) := by
  have hread := readString_quoted key rest
  have hskip : skipBlank (blank ++ '"' :: (key.toList.flatMap escape ++ '"' :: rest)) =
      '"' :: (key.toList.flatMap escape ++ '"' :: rest) := by
    rw [skipBlank_append hblank, skipBlank_cons (by decide)]
  rw [nextKey, skipBlank_cons (by decide)]
  simp [hskip, quote, hread, bind, Except.bind]

theorem nextKey_end (first : Bool) {blank : List Char} (hblank : Blank blank) (rest : List Char) :
    nextKey first (blank ++ '\x7d' :: rest) = .ok (none, rest) := by
  rw [nextKey, skipBlank_append hblank, skipBlank_cons (by decide)]
  rfl

theorem ends_writeMembers (l l' : Layout) (members : List (String × Json)) (rest : List Char) :
    Ends (writeMembers l members ++ (l'.lineBreak ++ '\x7d' :: rest)) := by
  cases members with
  | nil => exact ends_lineBreak l' (by decide) rest
  | cons member members => exact ends_cons (by decide) _

theorem length_le_writeMembers (l : Layout) (members : List (String × Json)) :
    members.length ≤ (writeMembers l members).length := by
  induction members with
  | nil => exact Nat.le_refl _
  | cons member members ih =>
      simp only [writeMembers, List.length_cons, List.length_append]
      omega

/-- Members of a record, written in the given layout, lead from one draft to another: each has the key of a field that
the draft does not have yet, and is read into the draft. -/
inductive Fills (fields : List (Field σ)) (l : Layout) : List (String × Json) → σ → σ → Prop
  | nil (draft : σ) : Fills fields l [] draft draft
  | cons {key : String} {value : Json} {members : List (String × Json)} {draft draft' final : σ} {field : Field σ}
      (hfield : fields.find? (·.key == key) = some field) (hset : field.isSet draft = false)
      (hread : Reads (field.read draft) (value.write l) draft') (hmembers : Fills fields l members draft' final) :
      Fills fields l ((key, value) :: members) draft final

namespace Fills

variable {fields : List (Field σ)} {l : Layout} {members members' : List (String × Json)} {draft final : σ}

theorem append (draft' : σ) (h : Fills fields l members draft draft') (h' : Fills fields l members' draft' final) :
    Fills fields l (members ++ members') draft final := by
  induction h with
  | nil draft => exact h'
  | cons hfield hset hread _ ih => exact .cons hfield hset hread (ih h')

/-- A member of a field that is not set yet leads to the draft with its value set. -/
theorem member {key : String} {get : σ → Option β} {set : σ → β → σ} {read : Reader β} {value : Json} {b : β}
    (hfield : fields.find? (·.key == key) = some (.of key get set read)) (hset : get draft = none)
    (hread : Reads read (value.write l) b) (hmembers : Fills fields l members (set draft b) final) :
    Fills fields l ((key, value) :: members) draft final :=
  .cons hfield (by simp [Field.of, hset]) (hread.map (set draft)) hmembers

/-- A member that is written if there is a value leads to the draft with what there is: `put` leaves the draft as it
is if there is nothing to put there. -/
theorem optional {key : String} {get : σ → Option β} {set : σ → β → σ} {read : Reader β} {toJson : α → Json}
    {value : α → β} {a? : Option α} (put : σ → Option β → σ)
    (hfield : fields.find? (·.key == key) = some (.of key get set read)) (hset : get draft = none)
    (hnone : put draft none = draft) (hsome : ∀ b, put draft (some b) = set draft b)
    (hread : ∀ a ∈ a?, Reads read ((toJson a).write l) (value a)) :
    Fills fields l (a?.map fun a => (key, toJson a)).toList draft (put draft (a?.map value)) := by
  cases a? with
  | none =>
      rw [Option.map_none, Option.map_none, hnone]
      exact .nil draft
  | some a =>
      rw [Option.map_some, Option.map_some, hsome]
      exact .member hfield hset (hread a rfl) (.nil _)

/-- A member that is left out if there is nothing to tell leads to the draft with what there is. -/
theorem omittable {key : String} {get : σ → Option β} {set : σ → β → σ} {read : Reader β} {value : Json} {b : β}
    {omitted : Bool} (put : σ → Option β → σ)
    (hfield : fields.find? (·.key == key) = some (.of key get set read)) (hset : get draft = none)
    (hnone : put draft none = draft) (hsome : ∀ b, put draft (some b) = set draft b)
    (hread : omitted = false → Reads read (value.write l) b) :
    Fills fields l (if omitted then [] else [(key, value)]) draft (put draft (if omitted then none else some b)) := by
  cases omitted with
  | true =>
      rw [if_pos rfl, if_pos rfl, hnone]
      exact .nil draft
  | false =>
      rw [if_neg Bool.false_ne_true, if_neg Bool.false_ne_true, hsome]
      exact .member hfield hset (hread rfl) (.nil _)

theorem readMembers_writeMembers (h : Fills fields l members draft final) (l' : Layout) (fuel : Nat)
    (hfuel : members.length < fuel) (rest : List Char) :
    readMembers fields fuel false draft (writeMembers l members ++ (l'.lineBreak ++ '\x7d' :: rest)) =
      .ok (final, rest) := by
  induction h generalizing fuel with
  | nil draft =>
      obtain ⟨fuel, rfl⟩ : ∃ k, fuel = k + 1 := ⟨fuel - 1, by simp at hfuel; omega⟩
      simp only [readMembers, writeMembers, List.nil_append, nextKey_end false (blank_lineBreak l') rest,
        bind, Except.bind]
  | @cons key value members draft draft' final field hfield hset hread _ ih =>
      rw [List.length_cons] at hfuel
      obtain ⟨fuel, rfl⟩ : ∃ k, fuel = k + 1 := ⟨fuel - 1, by omega⟩
      obtain ⟨gap, hgap, hcolon⟩ := exists_gap l
      have hvalue := hread gap _ hgap (ends_writeMembers l l' members rest)
      simp only [readMembers, writeMembers, List.cons_append, List.append_assoc,
        nextKey_later (blank_lineBreak l) key, hfield, hset, hcolon, hvalue, ih fuel (by omega),
        Bool.false_eq_true, if_false, bind, Except.bind]

end Fills

/-- An object is read as a record if its members fill a draft that lacks nothing. -/
theorem reads_record {budget : Nat} {fields : (inner : Nat) → inner < budget + 1 → List (Field σ)} {empty : σ}
    {finish : σ → Option α} {l : Layout} {members : List (String × Json)} {a : α} (draft : σ)
    (h : Fills (fields budget (Nat.lt_succ_self budget)) l.inner members empty draft)
    (hfinish : finish draft = some a) :
    Reads (readRecord (budget + 1) fields empty finish) ((obj members).write l) a := by
  intro blank rest hblank hrest
  unfold readRecord
  rw [skipBlank_opens hblank (opens_write (by simp) l)]
  cases h with
  | nil => simp [write, readMembers, nextKey, skipBlank, isBlank, hfinish, bind, Except.bind]
  | @cons key value members _ draft' _ field hfield hset hread hmembers =>
      obtain ⟨gap, hgap, hcolon⟩ := exists_gap l
      have hvalue := hread gap _ hgap (ends_writeMembers l.inner l members rest)
      have hlength := length_le_writeMembers l.inner members
      have hrest := hmembers.readMembers_writeMembers l
        (l.inner.lineBreak ++ (quote key ++ (l.colon ++ (value.write l.inner ++
          (writeMembers l.inner members ++ (l.lineBreak ++ '\x7d' :: rest)))))).length
        (by simp only [List.length_append, List.length_cons]; omega) rest
      simp only [write, List.cons_append, List.append_assoc, List.nil_append, readMembers,
        nextKey_first (blank_lineBreak l.inner) key, hfield, hset, hcolon, hvalue, hrest, hfinish,
        Bool.false_eq_true, if_false, bind, Except.bind]

theorem readEntries_writeMembers {l : Layout} (l' : Layout) (entries : List (String × String)) (fuel : Nat)
    (hfuel : entries.length < fuel) (rest : List Char) :
    readEntries fuel false (writeMembers l (entries.map fun entry => (entry.1, .str entry.2)) ++
      (l'.lineBreak ++ '\x7d' :: rest)) = .ok (entries, rest) := by
  induction entries generalizing fuel with
  | nil =>
      obtain ⟨fuel, rfl⟩ : ∃ k, fuel = k + 1 := ⟨fuel - 1, by simp at hfuel; omega⟩
      simp only [readEntries, List.map_nil, writeMembers, List.nil_append, nextKey_end false (blank_lineBreak l') rest,
        bind, Except.bind]
  | cons entry entries ih =>
      rw [List.length_cons] at hfuel
      obtain ⟨fuel, rfl⟩ : ∃ k, fuel = k + 1 := ⟨fuel - 1, by omega⟩
      obtain ⟨gap, hgap, hcolon⟩ := exists_gap l
      have hvalue := reads_str entry.2 l gap _ hgap
        (ends_writeMembers l l' (entries.map fun entry => (entry.1, .str entry.2)) rest)
      simp only [readEntries, List.map_cons, writeMembers, List.cons_append, List.append_assoc,
        nextKey_later (blank_lineBreak l) entry.1, hcolon, hvalue, ih fuel (by omega), bind, Except.bind]

/-- An object of strings is read as the list of its entries. -/
theorem reads_stringMap (budget : Nat) (entries : List (String × String)) (l : Layout) :
    Reads (readStringMap (budget + 1)) ((obj (entries.map fun entry => (entry.1, .str entry.2))).write l) entries := by
  intro blank rest hblank hrest
  unfold readStringMap
  rw [skipBlank_opens hblank (opens_write (by simp) l)]
  cases entries with
  | nil => rfl
  | cons entry entries =>
      obtain ⟨gap, hgap, hcolon⟩ := exists_gap l
      have hvalue := reads_str entry.2 l.inner gap _ hgap
        (ends_writeMembers l.inner l (entries.map fun entry => (entry.1, .str entry.2)) rest)
      rw [write] at hvalue
      have hlength := length_le_writeMembers l.inner (entries.map fun entry => (entry.1, .str entry.2))
      have hrest := readEntries_writeMembers (l := l.inner) l entries
        (l.inner.lineBreak ++ (quote entry.1 ++ (l.colon ++ (quote entry.2 ++
          (writeMembers l.inner (entries.map fun entry => (entry.1, .str entry.2)) ++
            (l.lineBreak ++ '\x7d' :: rest)))))).length
        (by simp only [List.length_append, List.length_cons, List.length_map] at hlength ⊢; omega) rest
      simp only [List.map_cons, write, List.cons_append, List.append_assoc, List.nil_append, readEntries,
        nextKey_first (blank_lineBreak l.inner) entry.1, hcolon, hvalue, hrest, bind, Except.bind]

/-! Tagged alternatives. -/

/-- An object with one member is read as the alternative that its key selects. -/
theorem reads_tagged {budget : Nat} {payload : String → (inner : Nat) → inner < budget + 1 → Option (Reader α)}
    {plain : String → Option α} {tag : String} {value : Json} {l : Layout} {read : Reader α} {a : α}
    (hpayload : payload tag budget (Nat.lt_succ_self budget) = some read) (h : Reads read (value.write l.inner) a) :
    Reads (readTagged (budget + 1) payload plain) ((obj [(tag, value)]).write l) a := by
  intro blank rest hblank hrest
  obtain ⟨gap, hgap, hcolon⟩ := exists_gap l
  have hvalue := h gap _ hgap (ends_lineBreak l (c := '\x7d') (by decide) rest)
  have hends : Ends (l.colon ++ (value.write l.inner ++ (l.lineBreak ++ '\x7d' :: rest))) := by
    cases l <;> exact ends_cons (by decide) _
  have htag := reads_str tag l l.inner.lineBreak _ (blank_lineBreak l.inner) hends
  rw [write] at htag
  have hend : skipBlank (l.lineBreak ++ '\x7d' :: rest) = '\x7d' :: rest := by
    rw [skipBlank_append (blank_lineBreak l), skipBlank_cons (by decide)]
  unfold readTagged
  rw [skipBlank_opens hblank (opens_write (by simp) l)]
  simp only [write, writeMembers, List.cons_append, List.append_assoc, List.nil_append, htag, hpayload, hcolon, hvalue,
    hend, bind, Except.bind]

/-- A string is read as what it is the name of. -/
theorem reads_name (budget : Nat) {ofName? : String → Option α} {name : String} {a : α} (h : ofName? name = some a)
    (l : Layout) : Reads (readName budget ofName?) ((str name).write l) a := by
  intro blank rest hblank hrest
  have hread := readString_quoted name rest
  unfold readName readTagged
  rw [skipBlank_opens hblank (opens_write (by simp) l)]
  simp only [write, quote, List.cons_append, List.append_assoc, List.nil_append, hread, h, bind, Except.bind]

end Tableaux.Json
