import Mathlib

/-!
Runs of characters and decimal digits, as readers of texts meet them: a run is split off whole where a character of
another class follows, and the decimal form of a number starts with a zero only for the number zero.
-/

namespace Tableaux

/-- A run of characters of one class is split off whole if no such character follows. -/
theorem span_run {p : Char → Bool} {run rest : List Char} (hrun : ∀ c ∈ run, p c = true)
    (hrest : ∀ c ∈ rest.head?, p c = false) : (run ++ rest).span p = (run, rest) := by
  rw [List.span_eq_takeWhile_dropWhile, List.takeWhile_append_of_pos hrun, List.dropWhile_append_of_pos hrun]
  cases rest with
  | nil => simp
  | cons c rest => simp [hrest c rfl]

/-- The decimal form of a number is a run of digits. -/
theorem isDigit_of_mem_decimal {n : Nat} {c : Char} (h : c ∈ Nat.toDigits 10 n) : c.isDigit = true :=
  Nat.isDigit_of_mem_toDigits (by decide) (by decide) h

theorem exists_decimal_eq_cons (n : Nat) : ∃ c ds, Nat.toDigits 10 n = c :: ds ∧ c.isDigit = true := by
  cases hds : Nat.toDigits 10 n with
  | nil => exact absurd hds Nat.toDigits_ne_nil
  | cons c ds => exact ⟨c, ds, rfl, isDigit_of_mem_decimal (hds ▸ List.mem_cons_self)⟩

/-- There are no leading zeros. -/
theorem eq_nil_of_toDigits_eq_zero_cons {n : Nat} {ds : List Char} (h : Nat.toDigits 10 n = '0' :: ds) : ds = [] := by
  induction n using Nat.strong_induction_on generalizing ds with
  | _ n ih =>
      by_cases hn : n < 10
      · rw [Nat.toDigits_of_lt_base hn] at h
        exact (List.cons.inj h).2.symm
      · rw [Nat.toDigits_of_base_le (by decide) (Nat.le_of_not_lt hn)] at h
        have hlead : ∃ ds', Nat.toDigits 10 (n / 10) = '0' :: ds' := by
          obtain ⟨c, ds', hfront, _⟩ := exists_decimal_eq_cons (n / 10)
          rw [hfront] at h
          exact ⟨ds', by rw [hfront, (List.cons.inj h).1]⟩
        -- what comes before the last digit is the single digit zero, so the number is below ten
        obtain ⟨ds', hfront⟩ := hlead
        have hnil := ih (n / 10) (Nat.div_lt_self (by omega) (by decide)) hfront
        have hvalue : Nat.ofDigitChars 10 (Nat.toDigits 10 (n / 10)) 0 = n / 10 := Nat.ofDigitChars_ten_toDigits
        rw [hfront, hnil] at hvalue
        have hzero : n / 10 = 0 := hvalue.symm
        omega

end Tableaux
