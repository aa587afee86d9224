import Mathlib
import Tableaux.Proofs.Digits
import Tableaux.Toml.Scalar
import Tableaux.Toml.Writer

/-!
Reading back the text of TOML strings, numbers and truth values at the end of a line. A string is written in one of
several ways, and each has its own reader. Between triple quotes the text must not hold three quotes in a row, but may
end with up to two quotes of its own: each stretch of quotes in it has at most two, and those at the end are told apart
from the closing ones by their number.
-/

namespace Tableaux.Toml

/-! Escapes. -/

theorem hexValue?_upperHex {n : Nat} (h : n < 16) : hexValue? (upperHex n) = some n := by
  interval_cases n <;> rfl

theorem charOf?_toNat (c : Char) : charOf? c.toNat = some c := by
  have hvalid : c.toNat.isValidChar := c.valid
  rw [charOf?, if_pos hvalid, Char.ofNat_toNat]

theorem isText_of_isControl_eq_false {c : Char} (h : isControl c = false) (hn : c ≠ '\n') : isText c = true := by
  simp only [isControl, Bool.or_eq_false_iff, Bool.and_eq_false_iff, decide_eq_false_iff_not, bne_eq_false_iff_eq,
    beq_eq_false_iff_ne] at h
  simp only [isText, Bool.or_eq_true, Bool.and_eq_true, decide_eq_true_eq, beq_iff_eq, bne_iff_ne]
  obtain ⟨(hlow | ht) | hnl, hdel⟩ := h
  · exact .inr ⟨Nat.le_of_not_lt hlow, hdel⟩
  · exact .inl ht
  · exact absurd hnl hn

/-- An escape is a backslash and what is read as the character. -/
theorem readEscape_of_escape? {c : Char} {text : List Char} (h : escape? c = some text) :
    ∃ tail, text = '\\' :: tail ∧ ∀ s, readEscape (tail ++ s) = some (c, s) := by
  unfold escape? at h
  split_ifs at h with hslash ht hb hf hr hcontrol
  · exact ⟨['\\'], (Option.some.inj h).symm, fun s => by rw [hslash]; rfl⟩
  · exact ⟨['t'], (Option.some.inj h).symm, fun s => by rw [ht]; rfl⟩
  · exact ⟨['b'], (Option.some.inj h).symm, fun s => by rw [hb]; rfl⟩
  · exact ⟨['f'], (Option.some.inj h).symm, fun s => by rw [hf]; rfl⟩
  · exact ⟨['r'], (Option.some.inj h).symm, fun s => by rw [hr]; rfl⟩
  · refine ⟨['u', '0', '0', upperHex (c.toNat / 16), upperHex (c.toNat % 16)], (Option.some.inj h).symm, fun s => ?_⟩
    have hbound : c.toNat < 0x80 := by
      simp only [isControl, Bool.or_eq_true, Bool.and_eq_true, decide_eq_true_eq, beq_iff_eq] at hcontrol
      omega
    have hhigh := hexValue?_upperHex (n := c.toNat / 16) (by omega)
    have hlow := hexValue?_upperHex (n := c.toNat % 16) (by omega)
    have hzero : hexValue? '0' = some 0 := rfl
    have hvalue : c.toNat / 16 * 16 + c.toNat % 16 = c.toNat := by omega
    simp [readEscape, readHex, hzero, hhigh, hlow, hvalue, charOf?_toNat]

/-- A character without an escape stands for itself, or it is a line break. -/
theorem isText_of_escape?_eq_none {c : Char} (h : escape? c = none) :
    c ≠ '\\' ∧ c ≠ '\r' ∧ (c ≠ '\n' → isText c = true) := by
  unfold escape? at h
  split_ifs at h with hslash ht hb hf hr hcontrol
  exact ⟨hslash, hr, isText_of_isControl_eq_false (Bool.eq_false_iff.2 hcontrol)⟩

/-! Strings on one line. -/

theorem readBasicWithin_escaped {fuel : Nat} {s ds rest : List Char} {c : Char} (tail : List Char)
    (h : readBasicWithin fuel s = some (ds, rest)) (hescape : readEscape (tail ++ s) = some (c, s)) :
    readBasicWithin (fuel + 1) ('\\' :: (tail ++ s)) = some (c :: ds, rest) := by
  simp [readBasicWithin, hescape, h]

theorem readBasicWithin_escapeLine (fuel : Nat) (cs : List Char) (hfuel : cs.length < fuel) (rest : List Char) :
    readBasicWithin fuel (escapeLine cs ++ '"' :: rest) = some (cs, rest) := by
  induction cs generalizing fuel with
  | nil =>
      obtain ⟨fuel, rfl⟩ : ∃ k, fuel = k + 1 := ⟨fuel - 1, by simp at hfuel; omega⟩
      rfl
  | cons c cs ih =>
      rw [List.length_cons] at hfuel
      obtain ⟨fuel, rfl⟩ : ∃ k, fuel = k + 1 := ⟨fuel - 1, by omega⟩
      have hrest := ih fuel (by omega)
      rw [escapeLine, List.append_assoc]
      split_ifs with hquote hn
      · exact readBasicWithin_escaped ['"'] hrest (by rw [hquote]; rfl)
      · exact readBasicWithin_escaped ['n'] hrest (by rw [hn]; rfl)
      · cases hescape : escape? c with
        | some text =>
            obtain ⟨tail, rfl, htail⟩ := readEscape_of_escape? hescape
            exact readBasicWithin_escaped tail hrest (htail _)
        | none =>
            obtain ⟨hslash, _, htext⟩ := isText_of_escape?_eq_none hescape
            simp [readBasicWithin, hquote, hslash, htext hn, hrest]

theorem readLiteral_append {cs : List Char} (h : ∀ c ∈ cs, c ≠ '\x27' ∧ isText c = true) (rest : List Char) :
    readLiteral (cs ++ '\x27' :: rest) = some (cs, rest) := by
  induction cs with
  | nil => rfl
  | cons c cs ih =>
      obtain ⟨hquote, htext⟩ := h c List.mem_cons_self
      have hrest := ih fun d hd => h d (List.mem_cons_of_mem _ hd)
      simp [readLiteral, hquote, htext, hrest]

/-! Strings over several lines. -/

section Closing

variable {q : Char}

theorem closing?_run {n : Nat} (hn : n ≤ 2) (hq : q ≠ '\n') (rest : List Char) :
    closing? q (List.replicate n q ++ q :: q :: q :: '\n' :: rest) = some (List.replicate n q, '\n' :: rest) := by
  have hbreak : ('\n' == q) = false := beq_eq_false_iff_ne.2 hq.symm
  interval_cases n <;> simp [closing?, List.replicate, List.takeWhile, hbreak]

theorem closing?_eq_none {n : Nat} (hn : n ≤ 2) {c : Char} (hc : c ≠ q) (s : List Char) :
    closing? q (List.replicate n q ++ c :: s) = none := by
  have hother : (c == q) = false := beq_eq_false_iff_ne.2 hc
  interval_cases n <;> simp [closing?, List.replicate, List.takeWhile, hother]

/-- The text of a string starts with at most `room` quotes, and if nothing else comes after them, they are the whole
string. -/
def Spaced (q : Char) (room : Nat) (text cs : List Char) : Prop :=
  ∃ n ≤ room, (cs = List.replicate n q ∧ text = List.replicate n q) ∨
    ∃ c s, c ≠ q ∧ text = List.replicate n q ++ c :: s

theorem spaced_nil (room : Nat) : Spaced q room [] [] :=
  ⟨0, Nat.zero_le _, .inl ⟨rfl, rfl⟩⟩

theorem spaced_of_ne (room : Nat) {c : Char} (hc : c ≠ q) (s cs : List Char) : Spaced q room (c :: s) cs :=
  ⟨0, Nat.zero_le _, .inr ⟨c, s, hc, rfl⟩⟩

theorem Spaced.cons {room : Nat} {text cs : List Char} (h : Spaced q room text cs) :
    Spaced q (room + 1) (q :: text) (q :: cs) := by
  obtain ⟨n, hn, ⟨rfl, rfl⟩ | ⟨c, s, hc, rfl⟩⟩ := h
  · exact ⟨n + 1, Nat.succ_le_succ hn, .inl ⟨rfl, rfl⟩⟩
  · exact ⟨n + 1, Nat.succ_le_succ hn, .inr ⟨c, s, hc, rfl⟩⟩

theorem Spaced.mono {room room' : Nat} {text cs : List Char} (h : Spaced q room text cs) (hroom : room ≤ room') :
    Spaced q room' text cs := by
  obtain ⟨n, hn, htext⟩ := h
  exact ⟨n, Nat.le_trans hn hroom, htext⟩

/-- In front of the closing quotes, either the text is over or its end is not here. -/
theorem Spaced.closing? {text cs : List Char} (h : Spaced q 2 text cs) (hq : q ≠ '\n') (rest : List Char) :
    closing? q (text ++ q :: q :: q :: '\n' :: rest) = some (cs, '\n' :: rest) ∨
      closing? q (text ++ q :: q :: q :: '\n' :: rest) = none := by
  obtain ⟨n, hn, ⟨rfl, rfl⟩ | ⟨c, s, hc, rfl⟩⟩ := h
  · exact .inl (closing?_run hn hq rest)
  · rw [List.append_assoc]
    exact .inr (closing?_eq_none hn hc _)

/-- Where no three quotes come in a row, as many start a text as those before it leave room for. -/
theorem spaced_of_hasTriple_eq_false (run : Nat) (hrun : run ≤ 2) {cs : List Char}
    (h : hasTriple q (List.replicate run q ++ cs) = false) : Spaced q (2 - run) cs cs := by
  induction cs generalizing run with
  | nil => exact spaced_nil _
  | cons c cs ih =>
      by_cases hc : c = q
      · rw [hc] at h ⊢
        have hlt : run < 2 := by
          refine Nat.lt_of_le_of_ne hrun fun hfull => ?_
          rw [hfull] at h
          simp [hasTriple, List.replicate] at h
        have hroom : 2 - run = 2 - (run + 1) + 1 := by omega
        rw [hroom]
        refine (ih (run + 1) hlt ?_).cons
        rwa [List.replicate_succ', List.append_assoc]
      · exact spaced_of_ne _ hc _ _

end Closing

theorem hasTriple_of_cons {q c : Char} {cs : List Char} (h : hasTriple q (c :: cs) = false) :
    hasTriple q cs = false := by
  match cs with
  | [] => rfl
  | [_] => rfl
  | a :: b :: s => exact (Bool.or_eq_false_iff.1 h).2

/-- What is written with each third quote of a run escaped starts with as many quotes as the counter leaves room for. -/
theorem spaced_escapeLines {run : Nat} (hrun : run ≤ 2) (cs : List Char) :
    Spaced '"' (2 - run) (escapeLines run cs) cs := by
  induction cs generalizing run with
  | nil => exact spaced_nil _
  | cons c cs ih =>
      rw [escapeLines]
      split_ifs with hquote hfull
      · exact spaced_of_ne _ (by decide) _ _
      · have hroom : 2 - run = 2 - (run + 1) + 1 := by omega
        rw [hquote, hroom]
        exact (ih (by omega)).cons
      · cases hescape : escape? c with
        | some text =>
            obtain ⟨tail, rfl, _⟩ := readEscape_of_escape? hescape
            exact spaced_of_ne _ (by decide) _ _
        | none => exact spaced_of_ne _ hquote _ _

theorem readBasicLinesWithin_escaped {fuel : Nat} {s ds rest : List Char} {c : Char} (tail : List Char)
    (h : readBasicLinesWithin fuel s = some (ds, rest)) (hescape : readEscape (tail ++ s) = some (c, s)) :
    readBasicLinesWithin (fuel + 1) ('\\' :: (tail ++ s)) = some (c :: ds, rest) := by
  simp [readBasicLinesWithin, hescape, h]

/-- The text between triple double quotes is read as the string. The induction is on the string, with any number of
quotes before it that leaves room. -/
theorem readBasicLinesWithin_escapeLines (fuel run : Nat) (cs : List Char) (hrun : run ≤ 2) (hfuel : cs.length < fuel)
    (rest : List Char) :
    readBasicLinesWithin fuel (escapeLines run cs ++ '"' :: '"' :: '"' :: '\n' :: rest) = some (cs, '\n' :: rest) := by
  induction cs generalizing fuel run with
  | nil =>
      obtain ⟨fuel, rfl⟩ : ∃ k, fuel = k + 1 := ⟨fuel - 1, by simp at hfuel; omega⟩
      have hclosing := closing?_run (q := '"') (Nat.zero_le 2) (by decide) rest
      rw [List.replicate_zero, List.nil_append] at hclosing
      simp [escapeLines, readBasicLinesWithin, hclosing]
  | cons c cs ih =>
      rw [List.length_cons] at hfuel
      obtain ⟨fuel, rfl⟩ : ∃ k, fuel = k + 1 := ⟨fuel - 1, by omega⟩
      have hspaced := (spaced_escapeLines hrun (c :: cs)).mono (Nat.sub_le 2 run)
      rw [escapeLines] at hspaced ⊢
      split_ifs at hspaced ⊢ with hquote hfull
      · have hrest := ih fuel 0 (Nat.zero_le 2) (by omega)
        rw [hquote]
        exact readBasicLinesWithin_escaped ['"'] hrest rfl
      · have hrest := ih fuel (run + 1) (by omega) (by omega)
        rw [hquote] at hspaced ⊢
        rw [List.cons_append]
        -- a quote may be the first of those at the end, which the reader takes all at once with the closing ones
        rcases hspaced.closing? (by decide) rest with hclosing | hclosing
        · rw [List.cons_append] at hclosing
          simp [readBasicLinesWithin, hclosing]
        · rw [List.cons_append] at hclosing
          simp [readBasicLinesWithin, hclosing, hrest]
      · have hrest := ih fuel 0 (Nat.zero_le 2) (by omega)
        rw [List.append_assoc]
        cases hescape : escape? c with
        | some text =>
            obtain ⟨tail, rfl, htail⟩ := readEscape_of_escape? hescape
            exact readBasicLinesWithin_escaped tail hrest (htail _)
        | none =>
            obtain ⟨hslash, _, htext⟩ := isText_of_escape?_eq_none hescape
            by_cases hn : c = '\n'
            · rw [hn]
              simp [readBasicLinesWithin, isText, newline?, hrest]
            · simp [readBasicLinesWithin, hquote, hslash, htext hn, hrest]

/-- The text between triple single quotes is read as it stands. -/
theorem readLiteralLinesWithin_append (fuel : Nat) {cs : List Char} (htext : ∀ c ∈ cs, isControl c = false)
    (htriple : hasTriple '\x27' cs = false) (hfuel : cs.length < fuel) (rest : List Char) :
    readLiteralLinesWithin fuel (cs ++ '\x27' :: '\x27' :: '\x27' :: '\n' :: rest) = some (cs, '\n' :: rest) := by
  induction cs generalizing fuel with
  | nil =>
      obtain ⟨fuel, rfl⟩ : ∃ k, fuel = k + 1 := ⟨fuel - 1, by simp at hfuel; omega⟩
      have hclosing := closing?_run (q := '\x27') (Nat.zero_le 2) (by decide) rest
      rw [List.replicate_zero, List.nil_append] at hclosing
      simp [readLiteralLinesWithin, hclosing]
  | cons c cs ih =>
      rw [List.length_cons] at hfuel
      obtain ⟨fuel, rfl⟩ : ∃ k, fuel = k + 1 := ⟨fuel - 1, by omega⟩
      have hrest := ih fuel (fun d hd => htext d (List.mem_cons_of_mem _ hd)) (hasTriple_of_cons htriple)
        (by omega)
      rw [List.cons_append]
      by_cases hquote : c = '\x27'
      · have hspaced : Spaced '\x27' 2 (c :: cs) (c :: cs) := spaced_of_hasTriple_eq_false 0 (Nat.zero_le 2) htriple
        rw [hquote] at hspaced ⊢
        rcases hspaced.closing? (by decide) rest with hclosing | hclosing
        · rw [List.cons_append] at hclosing
          simp [readLiteralLinesWithin, hclosing]
        · rw [List.cons_append] at hclosing
          simp [readLiteralLinesWithin, hclosing, hrest]
      · by_cases hn : c = '\n'
        · rw [hn]
          simp [readLiteralLinesWithin, isText, newline?, hrest]
        · have hc := isText_of_isControl_eq_false (htext c List.mem_cons_self) hn
          simp [readLiteralLinesWithin, hquote, hc, hrest]

/-! Strings of all forms. -/

/-- What is written for a character starts with a backslash or is the character itself. -/
theorem escape?_getD_eq_cons (c : Char) :
    ∃ d tail, (escape? c).getD [c] = d :: tail ∧ (d = '\\' ∨ d = c ∧ c ≠ '\r') := by
  cases hescape : escape? c with
  | some text =>
      obtain ⟨tail, rfl, _⟩ := readEscape_of_escape? hescape
      exact ⟨'\\', tail, rfl, .inl rfl⟩
  | none => exact ⟨c, [], rfl, .inr ⟨rfl, (isText_of_escape?_eq_none hescape).2.1⟩⟩

theorem length_le_escapeLine (cs : List Char) : cs.length ≤ (escapeLine cs).length := by
  induction cs with
  | nil => exact Nat.le_refl _
  | cons c cs ih =>
      obtain ⟨d, tail, hcons, _⟩ := escape?_getD_eq_cons c
      rw [escapeLine, hcons]
      split_ifs <;> simp only [List.length_append, List.length_cons, List.length_nil] <;> omega

theorem length_le_escapeLines (run : Nat) (cs : List Char) : cs.length ≤ (escapeLines run cs).length := by
  induction cs generalizing run with
  | nil => exact Nat.le_refl _
  | cons c cs ih =>
      obtain ⟨d, tail, hcons, _⟩ := escape?_getD_eq_cons c
      have hzero := ih 0
      have hnext := ih (run + 1)
      rw [escapeLines, hcons]
      split_ifs <;> simp only [List.length_append, List.length_cons] <;> omega

theorem head?_escapeLine_ne (cs : List Char) : ∀ d ∈ (escapeLine cs).head?, d ≠ '"' := by
  intro d hd
  cases cs with
  | nil => cases hd
  | cons c cs =>
      obtain ⟨e, tail, hcons, he⟩ := escape?_getD_eq_cons c
      rw [escapeLine, hcons] at hd
      split_ifs at hd with hquote hn
      · cases hd
        decide
      · cases hd
        decide
      · cases hd
        rcases he with rfl | ⟨rfl, _⟩
        · decide
        · exact hquote

/-- A string on one line that does not start with a quote cannot be taken for one of several lines. -/
theorem readString_eq_readLineString {q : Char} {text : List Char} (h : ∀ c ∈ text.head?, c ≠ q) (rest : List Char) :
    readString (q :: (text ++ q :: '\n' :: rest)) = readLineString (q :: (text ++ q :: '\n' :: rest)) := by
  have hthree : ∀ s, text ++ q :: '\n' :: rest = q :: q :: s → q = '\n' := by
    intro s hs
    cases text with
    | nil => exact (List.cons.inj (List.cons.inj hs).2).1.symm
    | cons c text => exact absurd (List.cons.inj hs).1 (h c rfl)
  unfold readString
  split
  · rename_i heq
    obtain ⟨rfl, heq⟩ := List.cons.inj heq
    exact absurd (hthree _ heq) (by decide)
  · rename_i heq
    obtain ⟨rfl, heq⟩ := List.cons.inj heq
    exact absurd (hthree _ heq) (by decide)
  · rfl

theorem readString_basic (cs rest : List Char) :
    readString ('"' :: (escapeLine cs ++ '"' :: '\n' :: rest)) = some (String.ofList cs, '\n' :: rest) := by
  have hlength := length_le_escapeLine cs
  have hread := readBasicWithin_escapeLine (escapeLine cs ++ '"' :: '\n' :: rest).length cs
    (by rw [List.length_append, List.length_cons]; omega) ('\n' :: rest)
  rw [readString_eq_readLineString (head?_escapeLine_ne cs)]
  simp only [readLineString, hread, Option.bind_eq_bind, Option.bind_some]

theorem readString_literal {cs : List Char} (h : ∀ c ∈ cs, c ≠ '\x27' ∧ isText c = true) (rest : List Char) :
    readString ('\x27' :: (cs ++ '\x27' :: '\n' :: rest)) = some (String.ofList cs, '\n' :: rest) := by
  have hread := readLiteral_append h ('\n' :: rest)
  rw [readString_eq_readLineString fun c hc => (h c (List.mem_of_mem_head? hc)).1]
  simp [readLineString, hread]

/-- The line break in front of a text of several lines is dropped, and nothing else. -/
theorem dropNewline_lead {cs text : List Char} (h : '\n' ∉ cs → ∀ c ∈ text.head?, c ≠ '\n' ∧ c ≠ '\r') :
    dropNewline (lead cs ++ text) = text := by
  by_cases hn : '\n' ∈ cs
  · rw [lead, if_pos (List.contains_iff_mem.2 hn)]
    rfl
  · rw [lead, if_neg (by simpa using hn), List.nil_append, dropNewline]
    cases text with
    | nil => rfl
    | cons c text =>
        obtain ⟨hbreak, hreturn⟩ := h hn c rfl
        have hnone : newline? (c :: text) = none := by
          unfold newline?
          split
          · rename_i heq
            exact absurd (List.cons.inj heq).1 hbreak
          · rename_i heq
            exact absurd (List.cons.inj heq).1 hreturn
          · rfl
        rw [hnone, Option.getD_none]

theorem readString_basicLines (cs rest : List Char) :
    readString ('"' :: '"' :: '"' :: (lead cs ++ (escapeLines 0 cs ++ '"' :: '"' :: '"' :: '\n' :: rest))) =
      some (String.ofList cs, '\n' :: rest) := by
  have hdrop : dropNewline (lead cs ++ (escapeLines 0 cs ++ '"' :: '"' :: '"' :: '\n' :: rest)) =
      escapeLines 0 cs ++ '"' :: '"' :: '"' :: '\n' :: rest := by
    apply dropNewline_lead
    intro hn d hd
    cases cs with
    | nil =>
        cases hd
        decide
    | cons c cs =>
        obtain ⟨e, tail, hcons, he⟩ := escape?_getD_eq_cons c
        rw [escapeLines, hcons] at hd
        split_ifs at hd with hquote hfull
        · cases hd
          decide
        · cases hd
          decide
        · cases hd
          rcases he with rfl | ⟨rfl, hreturn⟩
          · decide
          · exact ⟨fun heq => hn (heq ▸ List.mem_cons_self), hreturn⟩
  have hlength := length_le_escapeLines 0 cs
  have hread := readBasicLinesWithin_escapeLines
    (lead cs ++ (escapeLines 0 cs ++ '"' :: '"' :: '"' :: '\n' :: rest)).length 0 cs (Nat.zero_le 2)
    (by simp only [List.length_append, List.length_cons]; omega) rest
  simp only [readString, hdrop, hread, Option.bind_eq_bind, Option.bind_some]

theorem readString_literalLines {cs : List Char} (htext : ∀ c ∈ cs, isControl c = false)
    (htriple : hasTriple '\x27' cs = false) (rest : List Char) :
    readString ('\x27' :: '\x27' :: '\x27' :: (lead cs ++ (cs ++ '\x27' :: '\x27' :: '\x27' :: '\n' :: rest))) =
      some (String.ofList cs, '\n' :: rest) := by
  have hdrop : dropNewline (lead cs ++ (cs ++ '\x27' :: '\x27' :: '\x27' :: '\n' :: rest)) =
      cs ++ '\x27' :: '\x27' :: '\x27' :: '\n' :: rest := by
    apply dropNewline_lead
    intro hn d hd
    cases cs with
    | nil =>
        cases hd
        decide
    | cons c cs =>
        cases hd
        refine ⟨fun heq => hn (heq ▸ List.mem_cons_self), ?_⟩
        rintro rfl
        exact absurd (htext '\r' List.mem_cons_self) (by decide)
  have hread := readLiteralLinesWithin_append
    (lead cs ++ (cs ++ '\x27' :: '\x27' :: '\x27' :: '\n' :: rest)).length htext htriple
    (by simp only [List.length_append, List.length_cons]; omega) rest
  simp only [readString, hdrop, hread, Option.bind_eq_bind, Option.bind_some]

/-- Whichever form a string is written in, it is read back at the end of a line. -/
theorem readString_quote (cs rest : List Char) :
    readString (quote cs ++ '\n' :: rest) = some (String.ofList cs, '\n' :: rest) := by
  unfold quote
  simp only
  split_ifs with hplain hliteral hlines hliteralLines hbreak
  · rw [List.cons_append, List.append_assoc]
    exact readString_basic cs rest
  · rw [List.cons_append, List.append_assoc]
    simp only [Bool.and_eq_true, Bool.not_eq_true', List.contains_eq_mem, decide_eq_false_iff_not] at hliteral
    obtain ⟨⟨hcontrol, hbreak⟩, hquote⟩ := hliteral
    refine readString_literal (fun c hc => ⟨?_, isText_of_isControl_eq_false ?_ ?_⟩) rest
    · exact fun heq => hquote (heq ▸ hc)
    · exact Bool.eq_false_iff.2 (List.any_eq_false.1 hcontrol c hc)
    · exact fun heq => hbreak (heq ▸ hc)
  · simp only [List.append_assoc]
    exact readString_basicLines cs rest
  · simp only [List.append_assoc]
    rw [Bool.and_eq_true, Bool.not_eq_true', Bool.not_eq_true'] at hliteralLines
    obtain ⟨hcontrol, htriple⟩ := hliteralLines
    exact readString_literalLines (fun c hc => Bool.eq_false_iff.2 (List.any_eq_false.1 hcontrol c hc)) htriple rest
  · simp only [List.append_assoc]
    exact readString_basicLines cs rest
  · rw [List.cons_append, List.append_assoc]
    exact readString_basic cs rest

/-! Numbers and truth values. -/

section Decimal

variable {w : List Char}

theorem hexValue?_of_isDigit {c : Char} (h : c.isDigit = true) : hexValue? c = some (c.toNat - '0'.toNat) := by
  have hrange : '0' ≤ c ∧ c ≤ '9' := by
    simpa [Char.isDigit, Char.le_def] using h
  rw [hexValue?, if_pos hrange]

theorem ofDigits_eq_ofDigitChars (h : ∀ c ∈ w, c.isDigit = true) : ofDigits 10 w = Nat.ofDigitChars 10 w 0 := by
  rw [ofDigits, Nat.ofDigitChars_eq_foldl]
  apply List.foldl_ext
  intro n c hc
  rw [hexValue?_of_isDigit (h c hc), Option.getD_some, Nat.mul_comm]

theorem digitRun?_eq_some (hne : w ≠ []) (h : ∀ c ∈ w, c.isDigit = true) : digitRun? Char.isDigit w = some w := by
  induction w with
  | nil => exact absurd rfl hne
  | cons c w ih =>
      have hc := h c List.mem_cons_self
      cases w with
      | nil => simp [digitRun?, hc]
      | cons d w =>
          have hd : d ≠ '_' := by
            rintro rfl
            exact absurd (h '_' (by simp)) (by decide)
          have hrest := ih (List.cons_ne_nil _ _) fun e he => h e (List.mem_cons_of_mem _ he)
          simp [digitRun?, hc, hd, hrest]

theorem splitSign_of_digits (h : ∀ c ∈ w, c.isDigit = true) : splitSign w = (false, w) := by
  unfold splitSign
  split
  · exact absurd (h '+' List.mem_cons_self) (by decide)
  · exact absurd (h '-' List.mem_cons_self) (by decide)
  · rfl

theorem afterDate?_of_digits (h : ∀ c ∈ w, c.isDigit = true) : afterDate? w = none := by
  unfold afterDate?
  split
  · exact absurd (h '-' (by simp)) (by decide)
  · rfl

theorem afterTime?_of_digits (h : ∀ c ∈ w, c.isDigit = true) : afterTime? w = none := by
  unfold afterTime?
  split
  · exact absurd (h ':' (by simp)) (by decide)
  · rfl

/-- A word of digits alone has neither a fraction nor an exponent. -/
theorem isFloat_of_digits (h : ∀ c ∈ w, c.isDigit = true) : isFloat w = false := by
  have hsplit : ∀ p : Char → Bool, (∀ c ∈ w, p c = true) → w.span p = (w, []) := by
    intro p hp
    have hspan : (w ++ []).span p = (w, []) := span_run hp (by simp)
    rwa [List.append_nil] at hspan
  have hmark : w.span (!isExponentMark ·) = (w, []) := by
    apply hsplit
    intro c hc
    have hdigit := h c hc
    by_cases he : c = 'e' ∨ c = 'E'
    · rcases he with rfl | rfl <;> exact absurd hdigit (by decide)
    · simpa [isExponentMark] using he
  have hpoint : w.span (· != '.') = (w, []) := by
    apply hsplit
    intro c hc
    rw [bne_iff_ne]
    rintro rfl
    exact absurd (h '.' hc) (by decide)
  have hinf : w ≠ ['i', 'n', 'f'] := by
    rintro rfl
    exact absurd (h 'i' (by simp)) (by decide)
  have hnan : w ≠ ['n', 'a', 'n'] := by
    rintro rfl
    exact absurd (h 'a' (by simp)) (by decide)
  have hword : (w == ['i', 'n', 'f'] || w == ['n', 'a', 'n']) = false := by
    simp [hinf, hnan]
  simp only [isFloat, splitSign_of_digits h, hmark, hpoint, hword, Bool.false_eq_true, if_false]
  cases decimal? w <;> rfl

theorem decimal?_toDigits (n : Nat) : decimal? (Nat.toDigits 10 n) = some (Nat.toDigits 10 n) := by
  have hrun : digitRun? Char.isDigit (Nat.toDigits 10 n) = some (Nat.toDigits 10 n) :=
    digitRun?_eq_some Nat.toDigits_ne_nil fun c hc => isDigit_of_mem_decimal hc
  have hlead : (1 < (Nat.toDigits 10 n).length && (Nat.toDigits 10 n).head? == some '0') = false := by
    obtain ⟨c, ds, hds, _⟩ := exists_decimal_eq_cons n
    by_cases hc : c = '0'
    · rw [hc] at hds
      simp [hds, eq_nil_of_toDigits_eq_zero_cons hds]
    · simp [hds, hc]
  simp only [decimal?, hrun, Option.bind_eq_bind, Option.bind_some, hlead, Bool.false_eq_true, if_false]

theorem integer?_of_digits (h : ∀ c ∈ w, c.isDigit = true) (hdecimal : decimal? w = some w)
    (hlow : -Int.pow 2 63 ≤ (ofDigits 10 w : Int)) (hhigh : (ofDigits 10 w : Int) < Int.pow 2 63) :
    integer? w = some (ofDigits 10 w : Int) := by
  unfold integer?
  split
  · exact absurd (h 'x' (by simp)) (by decide)
  · exact absurd (h 'o' (by simp)) (by decide)
  · exact absurd (h 'b' (by simp)) (by decide)
  · rw [splitSign_of_digits h]
    -- the check of the range is kept folded up: its bounds are too large to be computed with
    extract_lets inRange
    dsimp only
    rw [hdecimal, Option.bind_eq_bind, Option.bind_some, if_neg Bool.false_ne_true, Option.bind_eq_bind,
      Option.bind_some]
    unfold inRange
    rw [decide_eq_true hlow, decide_eq_true hhigh]
    rfl

theorem integer?_toDigits {n : Nat} (hn : n < 2 ^ 63) : integer? (Nat.toDigits 10 n) = some (n : Int) := by
  have hdigits : ∀ c ∈ Nat.toDigits 10 n, c.isDigit = true := fun c hc => isDigit_of_mem_decimal hc
  have hvalue : ofDigits 10 (Nat.toDigits 10 n) = n := by
    rw [ofDigits_eq_ofDigitChars hdigits, Nat.ofDigitChars_ten_toDigits]
  have hpow : Int.pow 2 63 = 2 ^ 63 := rfl
  have hread := integer?_of_digits hdigits (decimal?_toDigits n) (by rw [hvalue, hpow]; omega)
    (by rw [hvalue, hpow]; omega)
  rw [hread, hvalue]

end Decimal

theorem readWord_toDigits {n : Nat} (hn : n < 2 ^ 63) (rest : List Char) :
    readWord (Nat.toDigits 10 n ++ '\n' :: rest) = some (int n, '\n' :: rest) := by
  have hdigits : ∀ c ∈ Nat.toDigits 10 n, c.isDigit = true := fun c hc => isDigit_of_mem_decimal hc
  have hword : word (Nat.toDigits 10 n ++ '\n' :: rest) = (Nat.toDigits 10 n, '\n' :: rest) := by
    refine span_run (fun c hc => ?_) fun c hc => ?_
    · simp [isWordChar, Char.isAlphanum, hdigits c hc]
    · cases hc
      decide
  have hdate : isDate (Nat.toDigits 10 n) = false := by
    simp [isDate, afterDate?_of_digits hdigits, afterTime?_of_digits hdigits]
  have htrue : Nat.toDigits 10 n ≠ ['t', 'r', 'u', 'e'] := by
    intro heq
    exact absurd (hdigits 't' (by simp [heq])) (by decide)
  have hfalse : Nat.toDigits 10 n ≠ ['f', 'a', 'l', 's', 'e'] := by
    intro heq
    exact absurd (hdigits 'f' (by simp [heq])) (by decide)
  simp [readWord, hword, htrue, hfalse, afterDate?_of_digits hdigits, hdate, isFloat_of_digits hdigits,
    integer?_toDigits hn]

theorem readWord_bool (b : Bool) (rest : List Char) :
    readWord ((if b then "true" else "false").toList ++ '\n' :: rest) = some (bool b, '\n' :: rest) := by
  cases b <;> rfl

end Tableaux.Toml
