import NodeRanking.Decimal.Basic
import Mathlib.Data.List.Basic
import Mathlib.Tactic.Ring

/-!
# Runs of characters, and of digits

A reader takes the longest run of characters of some kind. `Text.Stops` says that a text does not
go on with such a run, so a run in front of it is taken as a whole, and the digits of a number read
back as the number (`Digits.split_toDigits`, `Digits.value_toDigits`).
-/

namespace NodeRanking

namespace Text

/-- The text does not start with a character of this kind. -/
def Stops (p : Char → Bool) (cs : List Char) : Prop := ∀ c ∈ cs.head?, p c = false

variable {p q : Char → Bool} {cs ds : List Char} {c : Char}

@[simp] theorem stops_nil : Stops p [] := by
  intro c hc
  simp at hc

@[simp] theorem stops_cons : Stops p (c :: cs) ↔ p c = false := by
  simp [Stops]

theorem stops_of_forall (h : ∀ c ∈ cs, p c = false) : Stops p cs :=
  fun c hc => h c (List.mem_of_mem_head? hc)

/-- How a text goes on is decided by its first part, unless that is empty. -/
theorem Stops.append (h : Stops p cs) (hne : cs ≠ []) (ds : List Char) : Stops p (cs ++ ds) := by
  unfold Stops
  rwa [List.head?_append_of_ne_nil _ hne]

/-- A character of some kind is none that is not of this kind. -/
theorem ne_of_kind {e : Char} (hc : p c = true) (he : p e = false) : c ≠ e := by
  rintro rfl
  rw [hc] at he
  exact absurd he (by decide)

theorem Stops.mono (hpq : ∀ c, q c = true → p c = true) (h : Stops p cs) : Stops q cs := by
  intro c hc
  have hp := h c hc
  by_contra hq
  rw [hpq c (by simpa using hq)] at hp
  exact absurd hp (by decide)

theorem takeWhile_append_of_stops (hds : ∀ c ∈ ds, p c = true) (hcs : Stops p cs) :
    (ds ++ cs).takeWhile p = ds := by
  rw [List.takeWhile_append_of_pos hds]
  cases cs with
  | nil => simp
  | cons c cs => simp [stops_cons.1 hcs]

theorem dropWhile_append_of_stops (hds : ∀ c ∈ ds, p c = true) (hcs : Stops p cs) :
    (ds ++ cs).dropWhile p = cs := by
  rw [List.dropWhile_append_of_pos hds]
  cases cs with
  | nil => rfl
  | cons c cs => simp [stops_cons.1 hcs]

end Text

namespace Digits

/-! ## The value of a run -/

theorem value_eq_ofDigitChars (cs : List Char) : value cs = Nat.ofDigitChars 10 cs 0 := rfl

@[simp] theorem value_toDigits (n : Nat) : value (Nat.toDigits 10 n) = n := by
  rw [value_eq_ofDigitChars]
  exact Nat.ofDigitChars_ten_toDigits

/-- A run continued by another one is shifted by its length. -/
theorem value_append (cs ds : List Char) :
    value (cs ++ ds) = value cs * 10 ^ ds.length + value ds := by
  rw [value_eq_ofDigitChars, value_eq_ofDigitChars, value_eq_ofDigitChars,
    Nat.ofDigitChars_append, Nat.ofDigitChars_eq_ofDigitChars_zero]
  ring

@[simp] theorem value_replicate_zero (k : Nat) : value (List.replicate k '0') = 0 := by
  rw [value_eq_ofDigitChars, Nat.ofDigitChars_replicate_zero]
  simp

/-! ## Where a run ends -/

theorem isDigit_of_mem_toDigits {n : Nat} {c : Char} (h : c ∈ Nat.toDigits 10 n) :
    isDigit c = true :=
  Nat.isDigit_of_mem_toDigits (by decide) (by decide) h

/-- A written number starts with a digit. -/
theorem exists_toDigits_eq_cons (n : Nat) :
    ∃ c ds, Nat.toDigits 10 n = c :: ds ∧ isDigit c = true := by
  obtain ⟨c, ds, hds⟩ := List.exists_cons_of_ne_nil (Nat.toDigits_ne_nil : Nat.toDigits 10 n ≠ [])
  have hc : c ∈ Nat.toDigits 10 n := by simp [hds]
  exact ⟨c, ds, hds, isDigit_of_mem_toDigits hc⟩

theorem split_append_of_stops {ds cs : List Char} (hds : ∀ c ∈ ds, isDigit c = true)
    (hcs : Text.Stops isDigit cs) : split (ds ++ cs) = (ds, cs) := by
  unfold split
  rw [Text.takeWhile_append_of_stops hds hcs, Text.dropWhile_append_of_stops hds hcs]

theorem split_toDigits {cs : List Char} (n : Nat) (hcs : Text.Stops isDigit cs) :
    split (Nat.toDigits 10 n ++ cs) = (Nat.toDigits 10 n, cs) :=
  split_append_of_stops (fun _ hc => isDigit_of_mem_toDigits hc) hcs

/-- Only the number zero is written with a zero in front. -/
theorem head?_toDigits_ne_zero {n : Nat} (hn : n ≠ 0) :
    (Nat.toDigits 10 n).head? ≠ some '0' := by
  induction n using Nat.strongRecOn with
  | ind n ih =>
    by_cases hlt : n < 10
    · have hsmall : ∀ k < 10, k ≠ 0 → [Nat.digitChar k].head? ≠ some '0' := by decide
      rw [Nat.toDigits_of_lt_base hlt]
      exact hsmall n hlt hn
    · rw [Nat.toDigits_of_base_le (by decide) (by omega),
        List.head?_append_of_ne_nil _ Nat.toDigits_ne_nil]
      exact ih (n / 10) (by omega) (by omega)

end Digits

end NodeRanking
