import NodeRanking.Decimal.Layout
import NodeRanking.Proofs.Decimal.Literal
import NodeRanking.Proofs.Decimal.Value

/-!
# Reading written decimals

In positional notation with a point a decimal is a whole part and a fraction, digits both, that have
the value of the decimal (`exists_positional`), so a literal of them stands for the same binary
number (`ofLiteral?_positional`). The digits of a whole number alone are a literal of it
(`isLiteral_toDigits`).
-/

namespace NodeRanking

attribute [local irreducible] Binary64.one Binary64.limit

namespace Decimal

/-- A whole part and a fraction that write a decimal: digits, at least one in each, without a zero
in front of the others. -/
structure Positional (whole fraction : List Char) (d : Decimal) : Prop where
  whole_ne_nil : whole ≠ []
  fraction_ne_nil : fraction ≠ []
  isDigit_whole : ∀ c ∈ whole, Digits.isDigit c = true
  isDigit_fraction : ∀ c ∈ fraction, Digits.isDigit c = true
  eq_of_head? : whole.head? = some '0' → whole = ['0']
  value_eq : value ⟨Digits.value (whole ++ fraction), -fraction.length⟩ = d.value

theorem isDigit_of_mem_zeros {k : ℕ} {c : Char} (h : c ∈ List.replicate k '0') :
    Digits.isDigit c = true := by
  rw [List.eq_of_mem_replicate h]
  rfl

theorem isDigit_of_mem_digitText {n : ℕ} {c : Char} (h : c ∈ digitText n) :
    Digits.isDigit c = true :=
  Digits.isDigit_of_mem_toDigits h

theorem digitText_ne_nil (n : ℕ) : digitText n ≠ [] := Nat.toDigits_ne_nil

theorem value_digitText (n : ℕ) : Digits.value (digitText n) = n := Digits.value_toDigits n

theorem head?_digitText_ne {n : ℕ} (h : n ≠ 0) : (digitText n).head? ≠ some '0' :=
  Digits.head?_toDigits_ne_zero h

/-- More zeros at the end of the digits, and as many less in the exponent. -/
theorem value_mul_pow (n k : ℕ) (e : ℤ) : value ⟨n * 10 ^ k, e - k⟩ = value ⟨n, e⟩ := by
  have hten : (10 : ℚ) ^ e = 10 ^ k * 10 ^ (e - k) := by
    rw [← zpow_natCast, ← zpow_add₀ (by norm_num)]
    congr 1
    omega
  unfold value
  rw [hten]
  push_cast
  ring

variable {d : Decimal}

/-- A whole number: zeros fill up its digits, and a zero follows the point. -/
theorem positional_of_nonneg (h : d.digits = 0 → d.exponent = 0) (hexp : 0 ≤ d.exponent) :
    Positional (digitText d.digits ++ List.replicate d.exponent.toNat '0') ['0'] d where
  whole_ne_nil := by simp [digitText_ne_nil]
  fraction_ne_nil := by simp
  isDigit_whole := by
    intro c hc
    rcases List.mem_append.1 hc with hc | hc
    · exact isDigit_of_mem_digitText hc
    · exact isDigit_of_mem_zeros hc
  isDigit_fraction := fun _ hc => isDigit_of_mem_zeros (k := 1) hc
  eq_of_head? := by
    intro hhead
    rw [List.head?_append_of_ne_nil _ (digitText_ne_nil _)] at hhead
    by_cases hzero : d.digits = 0
    · rw [hzero, h hzero]
      rfl
    · exact absurd hhead (head?_digitText_ne hzero)
  value_eq := by
    have hdigits : Digits.value (digitText d.digits ++ List.replicate d.exponent.toNat '0' ++ ['0']) =
        d.digits * 10 ^ (d.exponent.toNat + 1) := by
      rw [Digits.value_append, Digits.value_append, value_digitText, Digits.value_replicate_zero,
        List.length_replicate, pow_succ]
      simp [Digits.value, Digits.extend, Digits.ofChar]
      ring
    have hexponent : -((['0'] : List Char).length : ℤ) =
        d.exponent - (d.exponent.toNat + 1 : ℕ) := by
      simp
      omega
    rw [hdigits, hexponent, value_mul_pow]

/-- A number with a point among its digits. -/
theorem positional_of_pos {k : ℕ} (hk : (digitText d.digits).length + d.exponent = k)
    (hpos : 0 < k) (hexp : d.exponent < 0) :
    Positional ((digitText d.digits).take k) ((digitText d.digits).drop k) d where
  whole_ne_nil := by simp [digitText_ne_nil, hpos.ne']
  fraction_ne_nil := by
    simp
    omega
  isDigit_whole := fun _ hc => isDigit_of_mem_digitText (List.mem_of_mem_take hc)
  isDigit_fraction := fun _ hc => isDigit_of_mem_digitText (List.mem_of_mem_drop hc)
  eq_of_head? := by
    intro hhead
    rw [List.head?_take, if_neg hpos.ne'] at hhead
    by_cases hzero : d.digits = 0
    · rw [hzero] at hk
      have hone : (digitText 0).length = 1 := rfl
      omega
    · exact absurd hhead (head?_digitText_ne hzero)
  value_eq := by
    have hexponent : -(((digitText d.digits).drop k).length : ℤ) = d.exponent := by
      rw [List.length_drop]
      omega
    rw [List.take_append_drop, value_digitText, hexponent]

/-- A number below 1: zeros stand between the point and its digits. -/
theorem positional_of_le {k : ℕ} (hk : (digitText d.digits).length + d.exponent = -k) :
    Positional ['0'] (List.replicate k '0' ++ digitText d.digits) d where
  whole_ne_nil := by simp
  fraction_ne_nil := by simp [digitText_ne_nil]
  isDigit_whole := fun _ hc => isDigit_of_mem_zeros (k := 1) hc
  isDigit_fraction := by
    intro c hc
    rcases List.mem_append.1 hc with hc | hc
    · exact isDigit_of_mem_zeros hc
    · exact isDigit_of_mem_digitText hc
  eq_of_head? := fun _ => rfl
  value_eq := by
    have hzeros : ['0'] ++ (List.replicate k '0' ++ digitText d.digits) =
        List.replicate (k + 1) '0' ++ digitText d.digits := by
      rw [List.replicate_succ]
      rfl
    have hexponent : -((List.replicate k '0' ++ digitText d.digits).length : ℤ) = d.exponent := by
      rw [List.length_append, List.length_replicate]
      omega
    rw [hzeros, Digits.value_append, Digits.value_replicate_zero, value_digitText, hexponent]
    simp

theorem exists_positional (h : d.digits = 0 → d.exponent = 0) :
    ∃ whole fraction, positionalText true d = whole ++ '.' :: fraction ∧
      Positional whole fraction d := by
  unfold positionalText
  dsimp only
  by_cases hexp : 0 ≤ d.exponent
  · rw [if_pos hexp]
    exact ⟨_, ['0'], by simp, positional_of_nonneg h hexp⟩
  rw [if_neg hexp]
  by_cases hpos : 0 < (digitText d.digits).length + d.exponent
  · rw [if_pos hpos]
    exact ⟨_, _, rfl, positional_of_pos (by omega) (by omega) (by omega)⟩
  · rw [if_neg hpos]
    exact ⟨['0'], _, rfl, positional_of_le (by omega)⟩

/-! ## Literals -/

/-- The sign in front of a number. -/
def signText (negative : Bool) : List Char := if negative then ['-'] else []

theorem isSign_signText (negative : Bool) : IsSign (signText negative) negative := by
  cases negative with
  | true => exact .minus
  | false => exact .none

/-- The digits of a whole number are a literal of it. -/
theorem isLiteral_toDigits (n : ℕ) : IsLiteral (Nat.toDigits 10 n) false ⟨n, 0⟩ := by
  have hrun : IsRun (Nat.toDigits 10 n) := fun _ hc => Digits.isDigit_of_mem_toDigits hc
  simpa using IsLiteral.mk .none (.whole hrun Nat.toDigits_ne_nil) .none

/-- A sign, a whole part and a fraction are a literal. -/
theorem Positional.isLiteral {whole fraction : List Char} (h : Positional whole fraction d)
    (negative : Bool) : IsLiteral (signText negative ++ (whole ++ '.' :: fraction)) negative
      ⟨Digits.value (whole ++ fraction), -fraction.length⟩ := by
  have hmantissa : IsMantissa (whole ++ '.' :: fraction) (whole ++ fraction) fraction.length :=
    .pointed h.isDigit_whole h.isDigit_fraction (by simp [h.whole_ne_nil])
  simpa using IsLiteral.mk (isSign_signText negative) hmantissa .none

/-- A sign, a whole part and a fraction are a literal of the number nearest to their value. -/
theorem ofLiteral?_positional {whole fraction : List Char} (h : Positional whole fraction d)
    (negative : Bool) :
    Binary64.ofLiteral? (signText negative ++ (whole ++ '.' :: fraction)) =
      some (d.toBinary64 negative) := by
  unfold Binary64.ofLiteral?
  rw [literal?_eq_some_iff.2 (h.isLiteral negative), Option.map_some]
  exact congrArg some (toBinary64_congr negative h.value_eq)

end Decimal

end NodeRanking
