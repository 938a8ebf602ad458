import NodeRanking.Proofs.Amount.Number
import NodeRanking.Proofs.Amount.Spelling
import NodeRanking.Proofs.Cluster.Document
import NodeRanking.Proofs.Decimal.Layout

/-!
# Whole amounts

The number in front of a unit is a binary one, also where it is whole.

1. A whole number of base units is therefore read as its rounding to 53 significant binary digits
   (`ofText?_written_base`), while a bare number that fits a word is read as it is (`ofData_whole`).
2. Where 53 digits are enough, both for the number and for what it comes to in base units, all ways
   to write an amount agree (`ofData_scaled`).
-/

namespace NodeRanking

open Binary64

attribute [local irreducible] Binary64.one Binary64.limit

namespace Amount

variable {resource : Resource} {unit : List Char} {size : ℕ} {n : ℕ}

/-! ## Written numbers -/

/-- The digits of a number with a unit behind them. -/
def written (n : ℕ) (unit : List Char) : String := String.ofList (Nat.toDigits 10 n ++ unit)

theorem spells_written (h : IsUnit resource unit size) (n : ℕ) :
    Spells resource (written n unit) false ⟨n, 0⟩ unit size := by
  refine ⟨h, [], Nat.toDigits 10 n, [], [], ?_, Text.blank_nil, Text.blank_nil, Text.blank_nil,
    Decimal.isLiteral_toDigits n⟩
  unfold written
  simp

/-- A whole number of a unit is read as the product of two binary numbers. -/
theorem ofText?_written (h : IsUnit resource unit size) (n : ℕ) :
    ofText? resource (written n unit) =
      if (Binary64.ofNat n).isFinite then ofNumber? (Binary64.ofNat n * Binary64.ofNat size)
      else none := by
  have hread (a : UInt64) := (spells_written h n).ofText?_eq_some_iff (a := a)
  rw [Decimal.toBinary64_whole] at hread
  apply Option.ext
  intro a
  split_ifs with hfin
  · rw [hread, and_iff_right (nonnegative_of_unsigned hfin (unsigned_ofNat n))]
  · exact ⟨fun ha => absurd ((hread a).1 ha).1.1 hfin, fun ha => absurd ha (by simp)⟩

/-- The unit of one base unit. -/
def baseUnit : Resource → List Char
  | .cpu => ['m']
  | .memory => []

theorem isUnit_baseUnit (resource : Resource) : IsUnit resource (baseUnit resource) 1 := by
  cases resource with
  | cpu => exact .inl (.head _)
  | memory => exact .inr ⟨rfl, rfl⟩

/-- A whole number of base units is read as its rounding, and past a word not at all. -/
theorem ofText?_written_base (resource : Resource) (n : ℕ) :
    ofText? resource (written n (baseUnit resource)) =
      if UInt64.size < nearest n 1 then none
      else some (UInt64.ofNat (min (nearest n 1) (UInt64.size - 1))) := by
  rw [ofText?_written (isUnit_baseUnit resource), ← ofNumber?_ofNat]
  split_ifs with hfin
  · exact congrArg ofNumber? ((unsigned_ofNat n).mul_one hfin)
  · rw [(unsigned_ofNat n).eq_infinity (Bool.not_eq_true _ ▸ hfin), ofNumber?_infinity]

/-! ## Whole amounts -/

/-- A bare whole number: an integer as long as it fits a word, else the nearest binary number. -/
def bare (n : ℕ) : Data := if n < UInt64.size then .integer n else .float (.ofNat n)

/-- A whole number of base units as a text. -/
def spelled (resource : Resource) (n : ℕ) : Data := .text (written n (baseUnit resource))

theorem ofData_spelled (resource : Resource) (n : ℕ) :
    ofData resource (spelled resource n) =
      if UInt64.size < nearest n 1 then
        .error (Fault.amount (written n (baseUnit resource))).inDocument
      else .ok (UInt64.ofNat (min (nearest n 1) (UInt64.size - 1))) := by
  have hread := ofText?_written_base resource n
  split_ifs at hread ⊢
  · exact (parse_of_none hread).2
  · exact (parse_of_some hread).2

theorem toNat_ofNat (h : n < UInt64.size) :
    UInt64.toNat <$> (.ok (UInt64.ofNat n) : Data.Decoded UInt64) = .ok n := by
  show Except.ok (UInt64.ofNat n).toNat = _
  rw [UInt64.toNat_ofNat_of_lt' h]

theorem ofData_bare (h : n < UInt64.size) :
    ofData resource (bare n) = .ok (UInt64.ofNat n) := by
  have hread := ofData_toNat resource (UInt64.ofNat n)
  rw [UInt64.toNat_ofNat_of_lt' h] at hread
  unfold bare
  rw [if_pos h, hread]

theorem ofNumber_ofNat (h : UInt64.size < nearest n 1) :
    ∃ raw, ofNumber (Binary64.ofNat n) = .error (.amount raw) := by
  unfold ofNumber
  rw [ofNumber?_ofNat, if_pos h]
  split_ifs
  · exact ⟨_, rfl⟩
  · exact ⟨_, rfl⟩

/-- The largest whole number that is rounded to a word is `2 ^ 64 - 1025`. -/
theorem nearest_lt_wordSize (h : n + 1024 < UInt64.size) : nearest n 1 < UInt64.size := by
  have hsize := wordSize_eq
  have htop : nearest 18446744073709550591 1 < UInt64.size := by decide +kernel
  exact (nearest_mono_left Nat.one_pos (by omega)).trans_lt htop

/-- The least whole number that is rounded past `2 ^ 64` is `2 ^ 64 + 2049`. -/
theorem wordSize_lt_nearest (h : UInt64.size + 2048 < n) : UInt64.size < nearest n 1 := by
  have hsize := wordSize_eq
  have hlow : UInt64.size < nearest 18446744073709553665 1 := by decide +kernel
  exact hlow.trans_le (nearest_mono_left Nat.one_pos (by omega))

theorem lt_of_onGrid (hgrid : OnGrid n) (h : n < UInt64.size) : n + 1024 < UInt64.size := by
  have hsize := wordSize_eq
  have hround : nearest 18446744073709550592 1 = UInt64.size := by decide +kernel
  by_contra hle
  have hmono := nearest_mono_left Nat.one_pos (show 18446744073709550592 ≤ n by omega)
  rw [hround, nearest_one_of_onGrid hgrid] at hmono
  omega

/-- A bare whole number is read as it is. A text is read as the number rounded to 53 significant
binary digits, which is the number itself if it has no more of them. Numbers whose nearest binary
number is past `2 ^ 64` are not read in either form. -/
theorem ofData_whole (resource : Resource) (n : ℕ) :
    (n < UInt64.size → UInt64.toNat <$> ofData resource (bare n) = .ok n) ∧
    (n + 1024 < UInt64.size →
      UInt64.toNat <$> ofData resource (spelled resource n) = .ok (nearest n 1)) ∧
    (n ≤ 2 ^ 53 ∨ OnGrid n ∧ n < UInt64.size →
      UInt64.toNat <$> ofData resource (spelled resource n) = .ok n) ∧
    (UInt64.size + 2048 < n →
      (∃ raw, ofData resource (bare n) = .error (Fault.amount raw).inDocument) ∧
        ofData resource (spelled resource n) =
          .error (Fault.amount (written n (baseUnit resource))).inDocument) := by
  have hsize := wordSize_eq
  have hrounded (h : n + 1024 < UInt64.size) :
      UInt64.toNat <$> ofData resource (spelled resource n) = .ok (nearest n 1) := by
    have hlt := nearest_lt_wordSize h
    rw [ofData_spelled, if_neg hlt.not_gt, min_eq_left (by omega), toNat_ofNat hlt]
  refine ⟨fun h => ?_, hrounded, fun h => ?_, fun h => ⟨?_, ?_⟩⟩
  · rw [ofData_bare h, toNat_ofNat h]
  · have hgrid : OnGrid n := h.elim onGrid_of_le And.left
    have hlt : n + 1024 < UInt64.size := by
      rcases h with hle | ⟨-, hlt⟩
      · omega
      · exact lt_of_onGrid hgrid hlt
    rw [hrounded hlt, nearest_one_of_onGrid hgrid]
  · obtain ⟨raw, hraw⟩ := ofNumber_ofNat (wordSize_lt_nearest h)
    refine ⟨raw, ?_⟩
    unfold bare
    rw [if_neg (by omega)]
    exact congrArg (Except.mapError Fault.inDocument) hraw
  · rw [ofData_spelled, if_pos (wordSize_lt_nearest h)]

/-- Around `2 ^ 64`: the last whole number whose text is rounded to a word, the word that it is
rounded to, and the first whole number that is not read. -/
theorem ofData_whole_ends :
    (18446744073709550591 < UInt64.size ∧
      UInt64.toNat <$> ofData .cpu (bare 18446744073709550591) = .ok 18446744073709550591) ∧
    (18446744073709550591 + 1024 < UInt64.size ∧
      UInt64.toNat <$> ofData .cpu (spelled .cpu 18446744073709550591) =
        .ok 18446744073709549568) ∧
    ((OnGrid 18446744073709549568 ∧ 18446744073709549568 < UInt64.size) ∧
      UInt64.toNat <$> ofData .memory (spelled .memory 18446744073709549568) =
        .ok 18446744073709549568) ∧
    UInt64.size + 2048 < 18446744073709553665 ∧
      ∃ raw, ofData .memory (bare 18446744073709553665) =
        .error (Fault.amount raw).inDocument := by
  have hrounded : nearest 18446744073709550591 1 = 18446744073709549568 := by decide +kernel
  have hgrid : OnGrid 18446744073709549568 := by decide +kernel
  obtain ⟨hbare, htext, -, -⟩ := ofData_whole .cpu 18446744073709550591
  refine ⟨⟨by decide, hbare (by decide)⟩, ⟨by decide, ?_⟩, ⟨⟨hgrid, by decide⟩, ?_⟩, by decide, ?_⟩
  · rw [htext (by decide), hrounded]
  · exact (ofData_whole .memory 18446744073709549568).2.2.1 (.inr ⟨hgrid, by decide⟩)
  · exact ((ofData_whole .memory 18446744073709553665).2.2.2 (by decide)).1

/-- Texts are not read exactly: of `2 ^ 53 + 1` the last digit is lost. Nor is a bare number past a
word always refused: `2 ^ 64` is read as the largest amount. -/
theorem exists_misread :
    UInt64.toNat <$> ofData .memory (.text "9007199254740993") = .ok 9007199254740992 ∧
    UInt64.toNat <$> ofData .memory (bare UInt64.size) = .ok (UInt64.size - 1) ∧
    ¬∀ resource n,
      (n < UInt64.size → UInt64.toNat <$> ofData resource (bare n) = .ok n ∧
        UInt64.toNat <$> ofData resource (spelled resource n) = .ok n) ∧
      (UInt64.size ≤ n → ∀ a, ofData resource (bare n) ≠ .ok a ∧
        ofData resource (spelled resource n) ≠ .ok a) := by
  have htext : UInt64.toNat <$> ofData .memory (spelled .memory 9007199254740993) =
      .ok 9007199254740992 := by
    have hrounded : nearest 9007199254740993 1 = 9007199254740992 := by decide +kernel
    rw [ofData_spelled, hrounded, if_neg (by decide)]
    exact toNat_ofNat (by decide)
  have hbare : UInt64.toNat <$> ofData .memory (bare UInt64.size) = .ok (UInt64.size - 1) := by
    have hrounded : nearest UInt64.size 1 = UInt64.size := by decide +kernel
    have hread : ofNumber? (Binary64.ofNat UInt64.size) = some (UInt64.ofNat (UInt64.size - 1)) := by
      rw [ofNumber?_ofNat, hrounded, if_neg (lt_irrefl _), min_eq_right (Nat.sub_le _ _)]
    unfold bare
    rw [if_neg (lt_irrefl _)]
    have hnumber : ofNumber (Binary64.ofNat UInt64.size) =
        .ok (UInt64.ofNat (UInt64.size - 1)) := by
      unfold ofNumber
      rw [if_pos (by decide +kernel), hread]
      rfl
    show UInt64.toNat <$> (ofNumber _).mapError _ = _
    rw [hnumber]
    exact toNat_ofNat (by decide)
  refine ⟨?_, hbare, fun h => ?_⟩
  · have hspelled : spelled .memory 9007199254740993 = .text "9007199254740993" :=
      congrArg Data.text (by decide +kernel)
    rw [← hspelled, htext]
  · have hexact := ((h .memory 9007199254740993).1 (by decide)).2
    rw [htext] at hexact
    exact absurd (Except.ok.inj hexact) (by decide)

/-! ## Whole numbers of larger units -/

/-- The product of a number and a unit that is a power of two has the digits of the number. -/
theorem onGrid_scaled
    (h : n * size ≤ 2 ^ 53 ∨ (∃ k, size = 2 ^ k) ∧ n ≤ 2 ^ 53 ∧ n * size < UInt64.size) :
    OnGrid (n * size) := by
  rcases h with hle | ⟨hpow, hle, -⟩
  · exact onGrid_of_le hle
  · exact onGrid_mul_pow hle hpow

theorem ofText?_written_of_onGrid (h : IsUnit resource unit size) (hn : n ≤ 2 ^ 53)
    (hgrid : OnGrid (n * size)) (hlt : n * size < UInt64.size) :
    ofText? resource (written n unit) = some (UInt64.ofNat (n * size)) := by
  have hfin : (Binary64.ofNat n).isFinite = true :=
    isFinite_ofNat (hn.trans (show 2 ^ 53 ≤ UInt64.size by decide))
  rw [ofText?_written h, if_pos hfin, ofNat_mul_ofNat hn (size_le h).2, ofNumber?_ofNat,
    nearest_one_of_onGrid hgrid, if_neg hlt.not_gt, min_eq_left (Nat.le_sub_one_of_lt hlt)]

/-- A whole number of any unit is read as the base units that it comes to: the same amount as these
have as a bare number, or written as a text of base units. For units that are powers of two that
holds up to the last amount. -/
theorem ofData_scaled (h : IsUnit resource unit size) (n : ℕ)
    (hn : n * size ≤ 2 ^ 53 ∨ (∃ k, size = 2 ^ k) ∧ n ≤ 2 ^ 53 ∧ n * size < UInt64.size) :
    ∃ a : UInt64, a.toNat = n * size ∧ parse resource (written n unit) = .ok a ∧
      ofData resource (.text (written n unit)) = .ok a ∧
      ofData resource (bare (n * size)) = .ok a ∧
      ofData resource (spelled resource (n * size)) = .ok a := by
  have hsize := wordSize_eq
  have hpos := (size_le h).1
  have hle : n ≤ 2 ^ 53 := by
    rcases hn with hle | ⟨-, hle, -⟩
    · exact (Nat.le_mul_of_pos_right n hpos).trans hle
    · exact hle
  have hlt : n * size < UInt64.size := by
    rcases hn with hle | ⟨-, -, hlt⟩
    · omega
    · exact hlt
  have hgrid := onGrid_scaled hn
  obtain ⟨hparse, htext⟩ := parse_of_some (ofText?_written_of_onGrid h hle hgrid hlt)
  refine ⟨UInt64.ofNat (n * size), UInt64.toNat_ofNat_of_lt' hlt, hparse, htext, ofData_bare hlt, ?_⟩
  rw [ofData_spelled, nearest_one_of_onGrid hgrid, if_neg hlt.not_gt,
    min_eq_left (Nat.le_sub_one_of_lt hlt)]

/-- The largest number of cores whose thousandths are counted one by one, and the largest one of the
largest unit of memory that fits a word. -/
theorem ofData_scaled_largest :
    ((IsUnit .cpu [] 1000 ∧ 9007199254740 * 1000 ≤ 2 ^ 53) ∧
      parse .cpu (written 9007199254740 []) = .ok 9007199254740000) ∧
    (IsUnit .memory ['T', 'i'] (2 ^ 40) ∧ (∃ k, 2 ^ 40 = 2 ^ k) ∧ 16777215 ≤ 2 ^ 53 ∧
        16777215 * 2 ^ 40 < UInt64.size) ∧
      ofData .memory (.text (written 16777215 ['T', 'i'])) = .ok 18446742974197923840 ∧
      ofData .memory (bare (16777215 * 2 ^ 40)) = .ok 18446742974197923840 := by
  have hcores : IsUnit .cpu [] 1000 := .inr ⟨rfl, rfl⟩
  have htebi : IsUnit .memory ['T', 'i'] (2 ^ 40) := .inl (by decide)
  obtain ⟨a, ha, hread, -⟩ := ofData_scaled hcores 9007199254740 (.inl (by decide))
  obtain ⟨b, hb, -, htext, hbare, -⟩ :=
    ofData_scaled htebi 16777215 (.inr ⟨⟨40, rfl⟩, by decide, by decide⟩)
  obtain rfl : a = 9007199254740000 := UInt64.toNat_inj.1 ha
  obtain rfl : b = 18446742974197923840 := UInt64.toNat_inj.1 hb
  exact ⟨⟨⟨hcores, by decide⟩, hread⟩, ⟨htebi, ⟨40, rfl⟩, by decide, by decide⟩, htext, hbare⟩

end Amount

end NodeRanking
