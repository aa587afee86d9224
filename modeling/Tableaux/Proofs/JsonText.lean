import Mathlib
import Tableaux.Json.Structure
import Tableaux.Json.Value
import Tableaux.Proofs.Digits

/-!
Reading back the text of JSON values: strings, numbers and truth values, and then arrays, objects and tagged
alternatives. What has been written for a value is read as that value wherever it stands: after any blanks, and before
any text that cannot be taken for the rest of a number.
-/

namespace Tableaux.Json

/-- Nothing but blanks. -/
def Blank (s : List Char) : Prop :=
  ∀ c ∈ s, isBlank c = true

/-- The text does not start with what could be the rest of a number. -/
def Ends (s : List Char) : Prop :=
  ∀ c ∈ s.head?, c.isDigit = false ∧ c ≠ '.' ∧ c ≠ 'e' ∧ c ≠ 'E'

/-- The text starts with a value other than `null`, as far as its first character tells. -/
def Opens (s : List Char) : Prop :=
  ∃ c rest, s = c :: rest ∧ isBlank c = false ∧ c ≠ ']' ∧ c ≠ 'n'

/-- Wherever the text of `a` stands, it is read as `a`. -/
def Reads {α : Type} (read : Reader α) (text : List Char) (a : α) : Prop :=
  ∀ blank rest, Blank blank → Ends rest → read (blank ++ (text ++ rest)) = .ok (a, rest)

/-! Blanks. -/

theorem blank_nil : Blank [] := by
  intro c hc
  cases hc

theorem skipBlank_append {blank : List Char} (h : Blank blank) (s : List Char) :
    skipBlank (blank ++ s) = skipBlank s :=
  List.dropWhile_append_of_pos h

theorem skipBlank_cons {c : Char} (h : isBlank c = false) (s : List Char) : skipBlank (c :: s) = c :: s := by
  rw [skipBlank, List.dropWhile_cons, if_neg]
  rw [h]
  exact Bool.false_ne_true

theorem skipBlank_opens {blank text : List Char} (hblank : Blank blank) (h : Opens text) (rest : List Char) :
    skipBlank (blank ++ (text ++ rest)) = text ++ rest := by
  obtain ⟨c, s, rfl, hc, _⟩ := h
  rw [skipBlank_append hblank, List.cons_append, skipBlank_cons hc]

theorem ends_nil : Ends [] := by
  intro c hc
  cases hc

theorem ends_cons {c : Char} (h : c.isDigit = false ∧ c ≠ '.' ∧ c ≠ 'e' ∧ c ≠ 'E') (s : List Char) :
    Ends (c :: s) := by
  intro d hd
  rw [← Option.some.inj hd]
  exact h

theorem blank_lineBreak (l : Layout) : Blank l.lineBreak := by
  intro c hc
  cases l with
  | compact => cases hc
  | indented level =>
      rcases List.mem_cons.1 hc with rfl | hc
      · rfl
      · rw [List.eq_of_mem_replicate hc]
        rfl

/-- A line break, if there is one, and a bracket or comma end a number. -/
theorem ends_lineBreak (l : Layout) {c : Char} (h : c.isDigit = false ∧ c ≠ '.' ∧ c ≠ 'e' ∧ c ≠ 'E')
    (s : List Char) : Ends (l.lineBreak ++ c :: s) := by
  cases l with
  | compact => exact ends_cons h s
  | indented level => exact ends_cons (by decide) _

/-- Between a key and its value there is a colon, and then perhaps a blank. -/
theorem exists_gap (l : Layout) : ∃ gap, Blank gap ∧ ∀ s, readColon (l.colon ++ s) = .ok (gap ++ s) := by
  cases l with
  | compact => exact ⟨[], blank_nil, fun s => rfl⟩
  | indented level =>
      refine ⟨[' '], ?_, fun s => rfl⟩
      intro c hc
      rw [List.mem_singleton.1 hc]
      rfl

/-! Strings. -/

theorem hexValue?_digitChar {n : Nat} (h : n < 16) : hexValue? (Nat.digitChar n) = some n := by
  interval_cases n <;> rfl

theorem readStringWithin_plainEscape {fuel : Nat} {s ds rest : List Char}
    (h : readStringWithin fuel s = .ok (ds, rest)) {c d : Char} (hplain : plainEscape? d = some c) :
    readStringWithin (fuel + 1) ('\\' :: d :: s) = .ok (c :: ds, rest) := by
  have hescape : readEscape (d :: s) = .ok (c, s) := by
    unfold readEscape
    split
    · rename_i heq
      cases heq
    · rename_i heq
      obtain ⟨rfl, rfl⟩ := List.cons.inj heq
      cases hplain
    · rename_i heq
      obtain ⟨rfl, rfl⟩ := List.cons.inj heq
      rw [hplain]
  simp [readStringWithin, hescape, h, bind, Except.bind]

/-- The text of a character inside a string is read as this character. -/
theorem readStringWithin_escape {fuel : Nat} {s ds rest : List Char} (h : readStringWithin fuel s = .ok (ds, rest))
    (c : Char) : readStringWithin (fuel + 1) (escape c ++ s) = .ok (c :: ds, rest) := by
  unfold escape
  split_ifs with hquote hslash hn hr ht hb hf hcontrol
  · exact readStringWithin_plainEscape h (by rw [hquote]; rfl)
  · exact readStringWithin_plainEscape h (by rw [hslash]; rfl)
  · exact readStringWithin_plainEscape h (hn ▸ rfl)
  · exact readStringWithin_plainEscape h (hr ▸ rfl)
  · exact readStringWithin_plainEscape h (ht ▸ rfl)
  · exact readStringWithin_plainEscape h (hb ▸ rfl)
  · exact readStringWithin_plainEscape h (hf ▸ rfl)
  · have hhex : readHex ('0' :: '0' :: Nat.digitChar (c.toNat / 16) :: Nat.digitChar (c.toNat % 16) :: s) =
        .ok (c.toNat, s) := by
      have hhigh := hexValue?_digitChar (n := c.toNat / 16) (by omega)
      have hlow := hexValue?_digitChar (n := c.toNat % 16) (by omega)
      have hzero : hexValue? '0' = some 0 := rfl
      simp only [readHex, hzero, hhigh, hlow]
      congr 2
      omega
    have hbasic : isLowSurrogate c.toNat = false ∧ isHighSurrogate c.toNat = false := by
      simp [isLowSurrogate, isHighSurrogate]
      omega
    simp [readStringWithin, readEscape, readUnicodeEscape, hhex, hbasic, h, bind, Except.bind]
  · have htext : ¬ c.toNat < 0x20 := hcontrol
    simp [readStringWithin, h, hquote, hslash, htext, bind, Except.bind]

theorem readStringWithin_flatMap_escape {fuel : Nat} {cs : List Char} (hfuel : cs.length < fuel) (rest : List Char) :
    readStringWithin fuel (cs.flatMap escape ++ '"' :: rest) = .ok (cs, rest) := by
  induction cs generalizing fuel with
  | nil =>
      obtain ⟨fuel, rfl⟩ : ∃ k, fuel = k + 1 := ⟨fuel - 1, by simp at hfuel; omega⟩
      rfl
  | cons c cs ih =>
      rw [List.length_cons] at hfuel
      obtain ⟨fuel, rfl⟩ : ∃ k, fuel = k + 1 := ⟨fuel - 1, by omega⟩
      rw [List.flatMap_cons, List.append_assoc]
      exact readStringWithin_escape (ih (by omega)) c

theorem escape_ne_nil (c : Char) : escape c ≠ [] := by
  unfold escape
  split_ifs <;> exact List.cons_ne_nil _ _

/-- A string is read back after its opening quote. -/
theorem readString_quoted (s : String) (rest : List Char) :
    readString (s.toList.flatMap escape ++ '"' :: rest) = .ok (s, rest) := by
  have hlength : ∀ cs : List Char, cs.length ≤ (cs.flatMap escape).length := by
    intro cs
    induction cs with
    | nil => exact Nat.le_refl _
    | cons c cs ih =>
        have hpos := List.length_pos_of_ne_nil (escape_ne_nil c)
        rw [List.flatMap_cons, List.length_append, List.length_cons]
        omega
  have hfuel : s.toList.length < (s.toList.flatMap escape ++ '"' :: rest).length := by
    have hle := hlength s.toList
    rw [List.length_append, List.length_cons]
    omega
  rw [readString, readStringWithin_flatMap_escape hfuel]
  simp [bind, Except.bind]

/-! Numbers. -/

/-- As long as the number stays within the range, all digits are taken in. -/
theorem accumulate_eq {ds : List Char} {n : Nat} (h : Nat.ofDigitChars 10 ds n ≤ maxNat) :
    accumulate n ds = (Nat.ofDigitChars 10 ds n, 0) := by
  induction ds generalizing n with
  | nil => rfl
  | cons d ds ih =>
      rw [Nat.ofDigitChars_cons] at h ⊢
      have hle : 10 * n + (d.toNat - '0'.toNat) ≤ maxNat := by
        rw [Nat.ofDigitChars_eq_ofDigitChars_zero] at h
        have hpos : 1 ≤ 10 ^ ds.length := Nat.one_le_pow _ _ (by decide)
        nlinarith
      rw [accumulate, Nat.mul_comm n 10, if_neg (Nat.not_lt.2 hle)]
      exact ih h

/-- The decimal form of a number within the range is read as the number. -/
theorem readUnsigned_toDigits {n : Nat} (hn : n ≤ maxNat) {rest : List Char} (hrest : Ends rest) :
    readUnsigned (Nat.toDigits 10 n ++ rest) = .ok (some n, rest) := by
  have hvalue : Nat.ofDigitChars 10 (Nat.toDigits 10 n) 0 = n := Nat.ofDigitChars_ten_toDigits
  have hsplit : digits (Nat.toDigits 10 n ++ rest) = (Nat.toDigits 10 n, rest) :=
    span_run (fun c hc => isDigit_of_mem_decimal hc) fun c hc => (hrest c hc).1
  have haccumulate : accumulate 0 (Nat.toDigits 10 n) = (n, 0) := by
    rw [accumulate_eq (by rw [hvalue]; exact hn), hvalue]
  obtain ⟨c, ds, hds, hdigit⟩ := exists_decimal_eq_cons n
  have hlead : (c = '0' && 1 < (c :: ds).length) = false := by
    by_cases hc : c = '0'
    · rw [hc] at hds
      simp [eq_nil_of_toDigits_eq_zero_cons hds]
    · simp [hc]
  rw [hds] at hsplit haccumulate ⊢
  rw [List.cons_append] at hsplit ⊢
  simp only [readUnsigned, hdigit, hsplit, hlead, haccumulate]
  cases rest with
  | nil => rfl
  | cons d rest =>
      obtain ⟨_, hpoint, he, hE⟩ := hrest d rfl
      simp [hpoint, he, hE]

/-! Values that are no arrays or objects. -/

theorem opens_toDigits (n : Nat) : Opens (Nat.toDigits 10 n) := by
  obtain ⟨c, ds, hds, hdigit⟩ := exists_decimal_eq_cons n
  refine ⟨c, ds, hds, ?_, ?_, ?_⟩
  · rw [Bool.eq_false_iff]
    intro hblank
    simp only [isBlank, Bool.or_eq_true, beq_iff_eq] at hblank
    rcases hblank with ((rfl | rfl) | rfl) | rfl <;> cases hdigit
  · rintro rfl
    cases hdigit
  · rintro rfl
    cases hdigit

end Tableaux.Json
