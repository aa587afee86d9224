import Mathlib
import Tableaux.Proofs.TomlText
import Tableaux.Settings

/-!
Settings survive a round trip through TOML text. The text has a header and the entries below it for each section; what
the reader has made of the lines so far is a table of the sections, and each line adds to the last of them. Only
settings whose limits are numbers of 64 bits with a sign can be written.
-/

namespace Tableaux.Toml

/-! Tables. -/

section Alter

variable {key : String} {f : Option Toml → Option Toml}

theorem alter_append_of_ne {front : Entries} (h : ∀ entry ∈ front, entry.1 ≠ key) (entries : Entries) :
    alter key f (front ++ entries) = (alter key f entries).map (front ++ ·) := by
  induction front with
  | nil => exact (Option.map_id').symm
  | cons entry front ih =>
      rw [List.cons_append, alter, if_neg (h entry List.mem_cons_self),
        ih fun entry hentry => h entry (List.mem_cons_of_mem _ hentry)]
      cases alter key f entries <;> rfl

/-- What is entered under a new key is put behind all else. -/
theorem alter_of_not_mem {entries : Entries} (h : ∀ entry ∈ entries, entry.1 ≠ key) {value : Toml}
    (hvalue : f none = some value) : alter key f entries = some (entries ++ [(key, value)]) := by
  have happend := alter_append_of_ne (f := f) h []
  rw [List.append_nil, alter, hvalue] at happend
  exact happend

/-- What is under the last key is replaced in its place. -/
theorem alter_last {front : Entries} (h : ∀ entry ∈ front, entry.1 ≠ key) {old value : Toml}
    (hvalue : f (some old) = some value) : alter key f (front ++ [(key, old)]) = some (front ++ [(key, value)]) := by
  rw [alter_append_of_ne h, alter, if_pos rfl, hvalue]
  rfl

end Alter

theorem insertNew_of_not_mem {key : String} {entries : Entries} (h : ∀ entry ∈ entries, entry.1 ≠ key) (value : Toml) :
    insertNew key value entries = some (entries ++ [(key, value)]) :=
  alter_of_not_mem h rfl

theorem openTable_of_not_mem {key : String} {root : Entries} (h : ∀ entry ∈ root, entry.1 ≠ key) :
    openTable [] key root = some (root ++ [(key, table .header [])]) :=
  alter_of_not_mem h rfl

/-- An entry below a header goes to the end of the table of the header. -/
theorem Progress.assign_last {root entries : Entries} {name key : String} (hname : ∀ entry ∈ root, entry.1 ≠ name)
    (hkey : ∀ entry ∈ entries, entry.1 ≠ key) (value : Toml) :
    Progress.assign ⟨root ++ [(name, table .header entries)], some ([], name)⟩ [] key value =
      some ⟨root ++ [(name, table .header (entries ++ [(key, value)]))], some ([], name)⟩ := by
  have hplace : Toml.assign .header [] key value entries = some (entries ++ [(key, value)]) :=
    insertNew_of_not_mem hkey value
  have halter : alterAt false (fun style entries => Toml.assign style [] key value entries) [name] .header
      (root ++ [(name, table .header entries)]) =
        some (root ++ [(name, table .header (entries ++ [(key, value)]))]) := by
    rw [alterAt]
    apply alter_last hname
    simp [alterAt, hplace]
  simp [Progress.assign, halter]

/-! Lines. -/

/-- A key that needs no quotes. -/
def Bare (key : String) : Prop :=
  key.toList ≠ [] ∧ ∀ c ∈ key.toList, isBareKeyChar c = true

/-- The text is read as the value at the end of a line. -/
def Denotes (text : List Char) (value : Toml) : Prop :=
  (∃ c tail, text = c :: tail ∧ isBlank c = false) ∧
    ∀ rest, readValue nestingLimit (text ++ '\n' :: rest) = some (value, '\n' :: rest)

theorem isBlank_of_isBareKeyChar {c : Char} (h : isBareKeyChar c = true) : isBlank c = false := by
  rw [Bool.eq_false_iff]
  intro hblank
  simp only [isBlank, Bool.or_eq_true, beq_iff_eq] at hblank
  rcases hblank with rfl | rfl <;> exact absurd h (by decide)

theorem skipBlank_cons {c : Char} (h : isBlank c = false) (s : List Char) : skipBlank (c :: s) = c :: s := by
  rw [skipBlank, List.dropWhile_cons, if_neg (by rw [h]; exact Bool.false_ne_true)]

/-- A key is read up to the first character behind it that is not blank. -/
theorem readKey_bare {key : String} (h : Bare key) (gap : List Char) (hgap : ∀ c ∈ gap, isBlank c = true) {c : Char}
    (hc : isBlank c = false ∧ c ≠ '.' ∧ isBareKeyChar c = false) (s : List Char) :
    readKey (key.toList ++ (gap ++ c :: s)) = some (([], key), c :: s) := by
  obtain ⟨hne, hbare⟩ := h
  have hspan : (key.toList ++ (gap ++ c :: s)).span isBareKeyChar = (key.toList, gap ++ c :: s) := by
    refine span_run hbare fun d hd => ?_
    cases gap with
    | nil =>
        cases hd
        exact hc.2.2
    | cons b gap =>
        cases hd
        rw [Bool.eq_false_iff]
        intro hd
        have hblank := isBlank_of_isBareKeyChar hd
        rw [hgap d List.mem_cons_self] at hblank
        cases hblank
  have hskip : skipBlank (key.toList ++ (gap ++ c :: s)) = key.toList ++ (gap ++ c :: s) := by
    cases hkey : key.toList with
    | nil => exact absurd hkey hne
    | cons d ds => exact skipBlank_cons (isBlank_of_isBareKeyChar (hbare d (hkey ▸ List.mem_cons_self))) _
  have hpart : readKeyPart (key.toList ++ (gap ++ c :: s)) = some (key, gap ++ c :: s) := by
    unfold readKeyPart
    rw [hspan]
    split
    · rename_i heq
      exact absurd (Prod.mk.inj heq).1 hne
    · rename_i heq
      obtain ⟨rfl, rfl⟩ := Prod.mk.inj heq
      rw [String.ofList_toList]
  have hgap : skipBlank (gap ++ c :: s) = c :: s := by
    rw [skipBlank, List.dropWhile_append_of_pos hgap]
    exact skipBlank_cons hc.1 s
  rw [readKey, nestingLimit, readKeyParts, hskip, hpart, Option.bind_eq_bind, Option.bind_some]
  dsimp only
  rw [hgap]
  split
  · rename_i heq
    exact absurd (List.cons.inj heq).1 hc.2.1
  · rfl

/-! Documents. -/

/-- Reading the lines leads from one state to another, whatever follows them. -/
def Takes (p : Progress) (lines : List (List Char)) (p' : Progress) : Prop :=
  ∀ fuel rest, p.readLines (fuel + lines.length) (lines.flatMap (· ++ ['\n']) ++ rest) = p'.readLines fuel rest

theorem takes_nil (p : Progress) : Takes p [] p :=
  fun _ _ => rfl

theorem Takes.append {p p' p'' : Progress} {lines lines' : List (List Char)} (h : Takes p lines p')
    (h' : Takes p' lines' p'') : Takes p (lines ++ lines') p'' := by
  intro fuel rest
  have hlength : fuel + (lines ++ lines').length = fuel + lines'.length + lines.length := by
    rw [List.length_append]
    omega
  rw [hlength, List.flatMap_append, List.append_assoc, h, h']

theorem Takes.cons {p p' p'' : Progress} {line : List Char} {lines : List (List Char)} (h : Takes p [line] p')
    (h' : Takes p' lines p'') : Takes p (line :: lines) p'' :=
  h.append h'

theorem takes_blank (p : Progress) : Takes p [[]] p :=
  fun _ _ => rfl

/-- A line is taken in one step if what comes before its end is read. -/
theorem takes_line {p p' : Progress} {c : Char} {line : List Char} (hc : isBlank c = false)
    (hc' : c ≠ '#' ∧ c ≠ '\n' ∧ c ≠ '\r')
    (h : ∀ rest, p.readLine (c :: (line ++ '\n' :: rest)) = some (p', '\n' :: rest)) : Takes p [c :: line] p' := by
  intro fuel rest
  have hend : readLineEnd ('\n' :: rest) = some rest := rfl
  obtain ⟨hcomment, hbreak, hreturn⟩ := hc'
  have htext : [c :: line].flatMap (· ++ ['\n']) ++ rest = c :: (line ++ '\n' :: rest) := by simp
  rw [htext, List.length_singleton, Progress.readLines, skipBlank_cons hc]
  simp [hcomment, hbreak, hreturn, h, hend]

/-- The line of a header. -/
def headerLine (name : String) : List Char :=
  '[' :: (name.toList ++ [']'])

/-- The line of an entry. -/
def entryLine (key : String) (text : List Char) : List Char :=
  key.toList ++ ' ' :: '=' :: ' ' :: text

theorem Bare.exists_cons {key : String} (h : Bare key) :
    ∃ c tail, key.toList = c :: tail ∧ isBareKeyChar c = true := by
  obtain ⟨hne, hbare⟩ := h
  cases hkey : key.toList with
  | nil => exact absurd hkey hne
  | cons c tail => exact ⟨c, tail, rfl, hbare c (hkey ▸ List.mem_cons_self)⟩

theorem takes_header {root : Entries} (current : Option (List String × String)) {name : String} (hname : Bare name)
    (hnew : ∀ entry ∈ root, entry.1 ≠ name) :
    Takes ⟨root, current⟩ [headerLine name] ⟨root ++ [(name, table .header [])], some ([], name)⟩ := by
  apply takes_line (by decide) (by decide)
  intro rest
  have hkey := readKey_bare hname [] (by simp) (c := ']') (by decide) ('\n' :: rest)
  obtain ⟨c, tail, hcons, hc⟩ := hname.exists_cons
  have hbracket : c ≠ '[' := by
    rintro rfl
    exact absurd hc (by decide)
  rw [hcons] at hkey ⊢
  simp only [List.nil_append, List.cons_append, List.append_assoc] at hkey ⊢
  simp [Progress.readLine, hbracket, hkey, openTable_of_not_mem hnew]

theorem takes_entry {p p' : Progress} {key : String} (hkey : Bare key) {text : List Char} {value : Toml}
    (htext : Denotes text value) (h : p.assign [] key value = some p') : Takes p [entryLine key text] p' := by
  obtain ⟨⟨d, text', hd, hblank⟩, hvalue⟩ := htext
  have hread := fun rest => readKey_bare hkey [' '] (List.forall_mem_singleton.2 rfl) (c := '=') (by decide)
    (' ' :: (text ++ '\n' :: rest))
  obtain ⟨c, tail, hcons, hc⟩ := hkey.exists_cons
  have hc' : c ≠ '#' ∧ c ≠ '\n' ∧ c ≠ '\r' ∧ c ≠ '[' := by
    refine ⟨?_, ?_, ?_, ?_⟩ <;> (rintro rfl; exact absurd hc (by decide))
  rw [entryLine, hcons, List.cons_append]
  refine takes_line (isBlank_of_isBareKeyChar hc) ⟨hc'.1, hc'.2.1, hc'.2.2.1⟩ fun rest => ?_
  have hskip : skipBlank (' ' :: (text ++ '\n' :: rest)) = text ++ '\n' :: rest := by
    rw [hd]
    exact skipBlank_cons hblank _
  have hkey := hread rest
  rw [hcons] at hkey
  simp only [List.nil_append, List.cons_append, List.append_assoc] at hkey ⊢
  simp [Progress.readLine, hc'.2.2.2, hkey, hskip, hvalue, h]

/-- An entry as it is written, with its value. -/
structure Entry where
  key : String
  text : List Char
  value : Toml

/-- An entry that is read as it is meant. -/
def Entry.Sound (e : Entry) : Prop :=
  Bare e.key ∧ Denotes e.text e.value

theorem takes_entries {root : Entries} {name : String} (done : Entries) (hname : ∀ entry ∈ root, entry.1 ≠ name)
    {entries : List Entry} (hsound : ∀ e ∈ entries, e.Sound)
    (hkeys : (done.map Prod.fst ++ entries.map Entry.key).Nodup) :
    Takes ⟨root ++ [(name, table .header done)], some ([], name)⟩ (entries.map fun e => entryLine e.key e.text)
      ⟨root ++ [(name, table .header (done ++ entries.map fun e => (e.key, e.value)))], some ([], name)⟩ := by
  induction entries generalizing done with
  | nil =>
      rw [List.map_nil, List.map_nil, List.append_nil]
      exact takes_nil _
  | cons e entries ih =>
      rw [List.map_cons] at hkeys
      have hkey : ∀ entry ∈ done, entry.1 ≠ e.key := by
        intro entry hentry heq
        exact (List.nodup_append.1 hkeys).2.2 entry.1 (List.mem_map_of_mem hentry) e.key List.mem_cons_self heq
      obtain ⟨hbare, hdenotes⟩ := hsound e List.mem_cons_self
      have hrest := ih (done ++ [(e.key, e.value)]) (fun f hf => hsound f (List.mem_cons_of_mem _ hf))
        (by rwa [List.map_append, List.append_assoc])
      rw [List.append_assoc] at hrest
      exact (takes_entry hbare hdenotes (Progress.assign_last hname hkey e.value)).cons hrest

/-- A section leads to a table of its entries behind the tables of the sections before. -/
theorem takes_section {root : Entries} (current : Option (List String × String)) {name : String} (hname : Bare name)
    (hnew : ∀ entry ∈ root, entry.1 ≠ name) {entries : List Entry} (hsound : ∀ e ∈ entries, e.Sound)
    (hkeys : (entries.map Entry.key).Nodup) :
    Takes ⟨root, current⟩ (headerLine name :: entries.map fun e => entryLine e.key e.text)
      ⟨root ++ [(name, table .header (entries.map fun e => (e.key, e.value)))], some ([], name)⟩ :=
  (takes_header current hname hnew).cons (takes_entries [] hnew hsound hkeys)

theorem length_le_lines (lines : List (List Char)) : lines.length ≤ (lines.flatMap (· ++ ['\n'])).length := by
  induction lines with
  | nil => exact Nat.le_refl _
  | cons line lines ih =>
      rw [List.flatMap_cons, List.length_append, List.length_append, List.length_cons, List.length_singleton]
      omega

/-- A text that consists of lines is read as the table that they lead to. -/
theorem Takes.ofText {lines : List (List Char)} {p : Progress} (h : Takes {} lines p) {text : String}
    (htext : text.toList = lines.flatMap (· ++ ['\n'])) (hmark : text.toList.head? ≠ some '\ufeff') :
    Toml.ofText text = some p.root := by
  have hlength := length_le_lines lines
  -- each line takes a unit of fuel, and there are more units than characters
  have hread := h ((lines.flatMap (· ++ ['\n'])).length - lines.length + 1) []
  have hfuel : (lines.flatMap (· ++ ['\n'])).length - lines.length + 1 + lines.length =
      (lines.flatMap (· ++ ['\n'])).length + 1 := by omega
  rw [hfuel, List.append_nil, ← htext] at hread
  unfold Toml.ofText
  split
  · rename_i heq
    exact absurd (by rw [heq]; rfl) hmark
  · dsimp only
    rw [hread]
    rfl

/-! Values. -/

theorem denotes_quote (cs : List Char) : Denotes (quote cs) (str (String.ofList cs)) := by
  have hopen : ∃ c tail, quote cs = c :: tail ∧ (c = '"' ∨ c = '\x27') := by
    unfold quote
    simp only
    split_ifs
    · exact ⟨_, _, rfl, .inl rfl⟩
    · exact ⟨_, _, rfl, .inr rfl⟩
    · exact ⟨_, _, rfl, .inl rfl⟩
    · exact ⟨_, _, rfl, .inr rfl⟩
    · exact ⟨_, _, rfl, .inl rfl⟩
    · exact ⟨_, _, rfl, .inl rfl⟩
  obtain ⟨c, tail, hquote, hc⟩ := hopen
  refine ⟨⟨c, tail, hquote, by rcases hc with rfl | rfl <;> decide⟩, fun rest => ?_⟩
  have hread := readString_quote cs rest
  rw [hquote, List.cons_append] at hread ⊢
  rcases hc with rfl | rfl <;> rw [readValue] <;> simp [hread]

theorem denotes_string (text : String) : Denotes (quote text.toList) (str text) := by
  have h := denotes_quote text.toList
  rwa [String.ofList_toList] at h

/-- What starts with a letter or a digit is read as a word. -/
theorem denotes_of_readWord {c : Char} {tail : List Char} (hc : c.isAlphanum = true) {value : Toml}
    (h : ∀ rest, readWord (c :: tail ++ '\n' :: rest) = some (value, '\n' :: rest)) : Denotes (c :: tail) value := by
  refine ⟨⟨c, tail, rfl, ?_⟩, fun rest => ?_⟩
  · exact isBlank_of_isBareKeyChar (by simp [isBareKeyChar, hc])
  · have hother : c ≠ '[' ∧ c ≠ '\x7b' ∧ c ≠ '"' ∧ c ≠ '\x27' := by
      refine ⟨?_, ?_, ?_, ?_⟩ <;> (rintro rfl; exact absurd hc (by decide))
    obtain ⟨hbracket, hbrace, hquote, hsingle⟩ := hother
    rw [← h rest, List.cons_append, readValue]
    all_goals simp [hbracket, hbrace, hquote, hsingle]

theorem denotes_nat {n : Nat} (hn : n < 2 ^ 63) : Denotes (Nat.toDigits 10 n) (int n) := by
  have hread := readWord_toDigits hn
  obtain ⟨c, ds, hds, hdigit⟩ := exists_decimal_eq_cons n
  rw [hds] at hread ⊢
  exact denotes_of_readWord (by simp [Char.isAlphanum, hdigit]) hread

theorem denotes_bool (b : Bool) : Denotes (if b then "true" else "false").toList (bool b) := by
  have hread := readWord_bool b
  cases b with
  | true => exact denotes_of_readWord (c := 't') (by decide) hread
  | false => exact denotes_of_readWord (c := 'f') (by decide) hread

end Tableaux.Toml

namespace Tableaux

open Toml

theorem Verbosity.ofName?_name (v : Verbosity) : ofName? v.name = some v := by
  cases v <;> decide

theorem Format.ofName?_name (f : Format) : ofName? f.name = some f := by
  cases f <;> decide

namespace Settings

/-- The entries of the sections as they are written. -/
def generalEntries (s : Settings) : List Entry :=
  [⟨"log_level", quote s.verbosity.name.toList, .str s.verbosity.name⟩,
    ⟨"format", quote s.format.name.toList, .str s.format.name⟩]

def limitsEntries (s : Settings) : List Entry :=
  [⟨"max_steps", Nat.toDigits 10 s.limits.steps, .int s.limits.steps⟩,
    ⟨"max_nodes", Nat.toDigits 10 s.limits.nodes, .int s.limits.nodes⟩,
    ⟨"max_gamma_instances", Nat.toDigits 10 s.limits.instances, .int s.limits.instances⟩]

def optionsEntries (s : Settings) : List Entry :=
  [⟨"term_prefix", quote s.options.termStem.toList, .str s.options.termStem⟩,
    ⟨"seed_constants", (if s.options.seedConstants then "true" else "false").toList, .bool s.options.seedConstants⟩]

/-- The table that the text of settings is read as. -/
def table (s : Settings) : Entries :=
  [("general", .table .header (s.generalEntries.map fun e => (e.key, e.value))),
    ("prover", .table .header (s.limitsEntries.map fun e => (e.key, e.value))),
    ("tree", .table .header (s.optionsEntries.map fun e => (e.key, e.value)))]

theorem ofEntries_table (s : Settings) : ofEntries s.table = some s := by
  simp [ofEntries, table, generalEntries, limitsEntries, optionsEntries, List.lookup, valueOr, decodeGeneral,
    decodeLimits, decodeOptions, sectionValues, decodeName, decodeNat, decodeString, decodeBool,
    Verbosity.ofName?_name, Format.ofName?_name]

theorem toList_entry (key front : String) (hfront : front.toList = key.toList ++ [' ', '=', ' ']) (text : String) :
    (front ++ text).toList = entryLine key text.toList := by
  rw [String.toList_append, hfront, entryLine, List.append_assoc]
  rfl

theorem lines_eq (s : Settings) :
    s.lines.map String.toList =
      (headerLine "general" :: s.generalEntries.map fun e => entryLine e.key e.text) ++ ([[]] ++
        ((headerLine "prover" :: s.limitsEntries.map fun e => entryLine e.key e.text) ++ ([[]] ++
          (headerLine "tree" :: s.optionsEntries.map fun e => entryLine e.key e.text)))) := by
  have hverbosity : ("log_level = \"" ++ s.verbosity.name ++ "\"").toList =
      entryLine "log_level" (quote s.verbosity.name.toList) := by
    cases s.verbosity <;> decide +kernel
  have hformat : ("format = \"" ++ s.format.name ++ "\"").toList =
      entryLine "format" (quote s.format.name.toList) := by
    cases s.format <;> decide +kernel
  have hnumber : ∀ n : Nat, (toString n).toList = Nat.toDigits 10 n := by
    intro n
    rw [Nat.toString_eq_ofList_toDigits, String.toList_ofList]
  have hsteps := toList_entry "max_steps" "max_steps = " (by decide +kernel)
    (toString s.limits.steps)
  have hnodes := toList_entry "max_nodes" "max_nodes = " (by decide +kernel)
    (toString s.limits.nodes)
  have hinstances := toList_entry "max_gamma_instances" "max_gamma_instances = "
    (by decide +kernel) (toString s.limits.instances)
  have hstem := toList_entry "term_prefix" "term_prefix = " (by decide +kernel)
    (String.ofList (quote s.options.termStem.toList))
  have hseed := toList_entry "seed_constants" "seed_constants = " (by decide +kernel)
    (if s.options.seedConstants then "true" else "false")
  rw [hnumber] at hsteps hnodes hinstances
  rw [String.toList_ofList] at hstem
  have hgeneral : "[general]".toList = headerLine "general" := by decide +kernel
  have hprover : "[prover]".toList = headerLine "prover" := by decide +kernel
  have htree : "[tree]".toList = headerLine "tree" := by decide +kernel
  simp only [lines, List.map_cons, List.map_nil, hgeneral, hprover, htree, hverbosity, hformat, hsteps, hnodes,
    hinstances, hstem, hseed, generalEntries, limitsEntries, optionsEntries, String.toList_empty]
  rfl

theorem sound_generalEntries (s : Settings) : ∀ e ∈ s.generalEntries, e.Sound := by
  refine List.forall_mem_cons.2 ⟨⟨by simp [Bare, isBareKeyChar], denotes_string _⟩, ?_⟩
  exact List.forall_mem_singleton.2 ⟨by simp [Bare, isBareKeyChar], denotes_string _⟩

theorem sound_limitsEntries {s : Settings} (hsteps : s.limits.steps < 2 ^ 63) (hnodes : s.limits.nodes < 2 ^ 63)
    (hinstances : s.limits.instances < 2 ^ 63) : ∀ e ∈ s.limitsEntries, e.Sound := by
  refine List.forall_mem_cons.2 ⟨⟨by simp [Bare, isBareKeyChar], denotes_nat hsteps⟩, ?_⟩
  refine List.forall_mem_cons.2 ⟨⟨by simp [Bare, isBareKeyChar], denotes_nat hnodes⟩, ?_⟩
  exact List.forall_mem_singleton.2 ⟨by simp [Bare, isBareKeyChar], denotes_nat hinstances⟩

theorem sound_optionsEntries (s : Settings) : ∀ e ∈ s.optionsEntries, e.Sound := by
  refine List.forall_mem_cons.2 ⟨⟨by simp [Bare, isBareKeyChar], denotes_string _⟩, ?_⟩
  exact List.forall_mem_singleton.2 ⟨by simp [Bare, isBareKeyChar], denotes_bool _⟩

theorem takes_lines {s : Settings} (hsteps : s.limits.steps < 2 ^ 63) (hnodes : s.limits.nodes < 2 ^ 63)
    (hinstances : s.limits.instances < 2 ^ 63) :
    Takes {} (s.lines.map String.toList) ⟨s.table, some ([], "tree")⟩ := by
  rw [lines_eq]
  refine .append (takes_section none (by simp [Bare, isBareKeyChar]) (by simp) s.sound_generalEntries
    (by simp [generalEntries])) ?_
  refine .append (takes_blank _) ?_
  refine .append (takes_section _ (by simp [Bare, isBareKeyChar]) (by simp)
    (sound_limitsEntries hsteps hnodes hinstances) (by simp [limitsEntries])) ?_
  refine .append (takes_blank _) ?_
  exact takes_section _ (by simp [Bare, isBareKeyChar]) (by simp) s.sound_optionsEntries (by simp [optionsEntries])

theorem toText_eq_ok_iff {s : Settings} {text : String} :
    s.toText = .ok text ↔ (s.limits.steps < 2 ^ 63 ∧ s.limits.nodes < 2 ^ 63 ∧ s.limits.instances < 2 ^ 63) ∧
      String.join (s.lines.map (· ++ "\n")) = text := by
  have hall : [s.limits.steps, s.limits.nodes, s.limits.instances].all (· < Nat.pow 2 63) = true ↔
      s.limits.steps < 2 ^ 63 ∧ s.limits.nodes < 2 ^ 63 ∧ s.limits.instances < 2 ^ 63 := by
    simp
  rw [toText, ← hall]
  split_ifs with h
  · simp [h]
  · simp [h]

theorem toList_join_lines (lines : List String) :
    (String.join (lines.map (· ++ "\n"))).toList = (lines.map String.toList).flatMap (· ++ ['\n']) := by
  induction lines with
  | nil => rfl
  | cons line lines ih =>
      rw [List.map_cons, String.join_cons, String.toList_append, ih, List.map_cons, List.flatMap_cons,
        String.toList_append]
      rfl

theorem ofText_join_lines {s : Settings} (hsteps : s.limits.steps < 2 ^ 63) (hnodes : s.limits.nodes < 2 ^ 63)
    (hinstances : s.limits.instances < 2 ^ 63) (path : String) :
    ofText path (String.join (s.lines.map (· ++ "\n"))) = .ok s := by
  have htext := toList_join_lines s.lines
  have hmark : (String.join (s.lines.map (· ++ "\n"))).toList.head? ≠ some '\ufeff' := by
    rw [htext, lines_eq]
    simp [headerLine]
  have hread := (takes_lines hsteps hnodes hinstances).ofText htext hmark
  rw [ofText, hread, Option.bind_some, ofEntries_table]

/-- Settings can be written if and only if their limits are numbers of 64 bits with a sign, and then they are read back
from the text. -/
theorem text_round_trip (s : Settings) :
    ((∃ text, s.toText = .ok text) ↔
      s.limits.steps ≤ 2 ^ 63 - 1 ∧ s.limits.nodes ≤ 2 ^ 63 - 1 ∧ s.limits.instances ≤ 2 ^ 63 - 1) ∧
    ∀ text, s.toText = .ok text → ∀ path, ofText path text = .ok s := by
  refine ⟨⟨?_, ?_⟩, ?_⟩
  · rintro ⟨text, htext⟩
    obtain ⟨⟨hsteps, hnodes, hinstances⟩, _⟩ := toText_eq_ok_iff.1 htext
    omega
  · intro hlimits
    exact ⟨_, toText_eq_ok_iff.2 ⟨by omega, rfl⟩⟩
  · intro text htext path
    obtain ⟨⟨hsteps, hnodes, hinstances⟩, rfl⟩ := toText_eq_ok_iff.1 htext
    exact ofText_join_lines hsteps hnodes hinstances path

/-- Settings with a stem that holds both kinds of quotes in threes, a backslash, a line break and a control character,
and that ends in quotes, and with the greatest limits. -/
def awkward : Settings :=
  { verbosity := .debug, format := .summary, limits := ⟨2 ^ 63 - 1, 2 ^ 63 - 1, 0⟩,
    options := ⟨"\n\"\"\"\"\x27\x27\x27\\\x00é\"\"", false⟩ }

theorem text_round_trip_awkward : ∃ text, awkward.toText = .ok text ∧ ofText "" text = .ok awkward := by
  obtain ⟨hwritten, hread⟩ := text_round_trip awkward
  obtain ⟨text, htext⟩ := hwritten.2 (by decide)
  exact ⟨text, htext, hread text htext ""⟩

end Settings

end Tableaux
