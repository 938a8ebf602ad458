import NodeRanking.Amount
import NodeRanking.Proofs.Binary64.Monotone
import NodeRanking.Proofs.Binary64.Same

/-!
# Numbers as amounts

A number that is not below zero is rounded to a whole number, which is an amount up to the ceiling of
`2 ^ 64` (`ofNumber?_ofNat`).

1. The whole number decides alone (`ofNumber?_of_nonnegative`), zeros of either sign included, and
   below the ceiling it is the amount (`exists_same_of_lt_ceiling`).
2. A smaller number has an amount wherever a larger one has, and not a larger one (`ofNumber?_mono`).
-/

namespace NodeRanking

open Binary64

attribute [local irreducible] Binary64.one Binary64.limit

namespace Amount

variable {n : ℕ} {x y : Binary64} {a : UInt64}

/-! ## The ceiling -/

theorem wordSize_eq : UInt64.size = 18446744073709551616 := rfl

theorem unsigned_ceiling : ceiling.Unsigned := unsigned_ofNat _

theorem height_ceiling : ceiling.height = UInt64.size * one := by
  unfold ceiling
  rw [height_ofNat, nearest_one_of_onGrid onGrid_wordSize, min_eq_left wordSize_mul_one_lt.le]

/-- A whole number is past the ceiling where its rounding is. -/
theorem ceiling_lt_ofNat : ceiling < Binary64.ofNat n ↔ UInt64.size < nearest n 1 := by
  rw [lt_iff, unsigned_ceiling.place_eq, (unsigned_ofNat n).place_eq, height_ceiling, height_ofNat,
    Nat.cast_lt, lt_min_iff, Nat.mul_lt_mul_right Binary64.one_pos]
  constructor
  · exact fun h => h.2.2.1
  · exact fun h => ⟨unsigned_ceiling.1, (unsigned_ofNat n).1, h, wordSize_mul_one_lt⟩

/-- A number at the place of a whole one is below the ceiling where the rounding of that one is. -/
theorem nearest_lt_of_lt_ceiling (hplace : x.place = (Binary64.ofNat n).place)
    (h : x < ceiling) : nearest n 1 < UInt64.size := by
  have hlt := (lt_iff.1 h).2.2
  rw [hplace, unsigned_ceiling.place_eq, (unsigned_ofNat n).place_eq, height_ceiling, height_ofNat,
    Nat.cast_lt, min_lt_iff, Nat.mul_lt_mul_right Binary64.one_pos] at hlt
  exact hlt.resolve_right wordSize_mul_one_lt.le.not_gt

theorem ceiling_lt_infinity : ceiling < .infinity false := by
  rw [lt_iff, unsigned_ceiling.place_eq, height_ceiling, place_infinity, signed_false]
  exact ⟨unsigned_ceiling.1, by simp, Nat.cast_lt.2 wordSize_mul_one_lt⟩

theorem ofNumber?_infinity : ofNumber? (.infinity false) = none := if_pos ceiling_lt_infinity

/-! ## Rounding to a whole number -/

theorem ofNumber?_ofNat (n : ℕ) : ofNumber? (Binary64.ofNat n) =
    if UInt64.size < nearest n 1 then none
    else some (UInt64.ofNat (min (nearest n 1) (UInt64.size - 1))) := by
  unfold ofNumber?
  simp only [round_ofNat, ceiling_lt_ofNat]
  split_ifs with h
  · rfl
  · have hlt : nearest n 1 * one < limit :=
      (Nat.mul_le_mul_right one (not_lt.1 h)).trans_lt wordSize_mul_one_lt
    rw [(unsigned_ofNat n).toNat_eq (isFinite_ofNat_iff.2 hlt), height_ofNat,
      min_eq_left hlt.le, Nat.mul_div_cancel _ Binary64.one_pos]

/-- The whole number that a number is rounded to, a half going up. -/
def whole (x : Binary64) : ℕ := roundHalfUp x.height one

theorem whole_mono (h : x.height ≤ y.height) : whole x ≤ whole y := roundHalfUp_mono one h

theorem place_round (h : Nonnegative x) : x.round.place = (Binary64.ofNat (whole x)).place := by
  have hplace := h.place_nonneg
  obtain ⟨s, n, hn, rfl⟩ := exists_eq_finite h.1
  have hsign : signed s (roundHalfUp n one * one) = (roundHalfUp n one * one : ℕ) := by
    cases s with
    | false => rfl
    | true =>
      -- a minus sign is one of zero
      obtain rfl : n = 0 := by simpa [signed] using hplace
      simp [roundHalfUp, Nat.div_eq_of_lt, Binary64.one_pos]
  unfold whole
  rw [height_finite]
  show (ofRatio s (roundHalfUp n one * one) 1).place =
    (ofRatio false (roundHalfUp n one * one) 1).place
  rw [place_ofRatio _ _ Nat.one_pos, place_ofRatio _ _ Nat.one_pos, hsign, signed_false]

/-- Numbers that are rounded to zeros are no amount but zero, whatever the signs. -/
theorem ofNumber?_of_isZero (h : x.round.isZero = true) : ofNumber? x = some 0 := by
  obtain ⟨s, hs⟩ := exists_eq_zero h
  have hceiling : ¬ceiling < zero s := by
    rw [lt_iff, unsigned_ceiling.place_eq, place_zero]
    omega
  have htoNat : (zero s).toNat (UInt64.size - 1) = 0 := by
    cases s with
    | false => simp [Binary64.toNat, zero]
    | true => rfl
  unfold ofNumber?
  dsimp only
  rw [hs, if_neg hceiling, htoNat]
  rfl

theorem ofNumber?_eq_of_same (h : x.round.Same y.round) : ofNumber? x = ofNumber? y := by
  rcases h with heq | ⟨hx, hy⟩
  · unfold ofNumber?
    rw [heq]
  · rw [ofNumber?_of_isZero hx, ofNumber?_of_isZero hy]

/-- Whether there is an amount, and which one, is decided by the whole number. -/
theorem ofNumber?_of_nonnegative (h : Nonnegative x) :
    ofNumber? x = if UInt64.size < nearest (whole x) 1 then none
      else some (UInt64.ofNat (min (nearest (whole x) 1) (UInt64.size - 1))) := by
  rw [← ofNumber?_ofNat]
  apply ofNumber?_eq_of_same
  have hnan := round_ne_nan (ne_nan_of_isFinite h.1)
  rw [round_ofNat, same_iff_place_eq hnan (unsigned_ofNat _).1]
  exact place_round h

theorem nonnegative_of_ofNumber? (h0 : 0 ≤ x) (h : ofNumber? x = some a) : Nonnegative x := by
  refine (nonnegative_or_infinity h0).resolve_right ?_
  rintro rfl
  rw [ofNumber?_infinity] at h
  exact absurd h (Option.some_ne_none a).symm

/-- A smaller number has an amount where a larger one has, and that is at most as large. -/
theorem ofNumber?_mono (h0 : 0 ≤ x) (hle : x ≤ y) {b : UInt64} (hb : ofNumber? y = some b) :
    ∃ a, ofNumber? x = some a ∧ a ≤ b := by
  obtain ⟨-, -, hplace⟩ := le_iff.1 h0
  obtain ⟨hxnan, hynan, hplace'⟩ := le_iff.1 hle
  have hy : Nonnegative y :=
    nonnegative_of_ofNumber? (le_iff.2 ⟨unsigned_zero.1, hynan, hplace.trans hplace'⟩) hb
  have hx : Nonnegative x :=
    ⟨isFinite_of_place_mem hxnan isFinite_zero hy.1 hplace hplace', h0⟩
  have hwhole : nearest (whole x) 1 ≤ nearest (whole y) 1 :=
    nearest_mono_left Nat.one_pos (whole_mono (height_le_of_le hx.place_nonneg hle))
  rw [ofNumber?_of_nonnegative hy] at hb
  rw [ofNumber?_of_nonnegative hx]
  split_ifs at hb with hceiling
  obtain rfl := Option.some.inj hb
  have hsize := wordSize_eq
  refine ⟨_, if_neg (by omega), ?_⟩
  rw [UInt64.le_iff_toNat_le, UInt64.toNat_ofNat_of_lt' (by omega),
    UInt64.toNat_ofNat_of_lt' (by omega)]
  omega

/-- Below the ceiling the amount is the whole number. -/
theorem exists_same_of_lt_ceiling (h0 : 0 ≤ x) (h : x.round < ceiling) :
    ∃ a, ofNumber? x = some a ∧ x.round.Same (Binary64.ofNat a.toNat) := by
  have hx : Nonnegative x := by
    refine (nonnegative_or_infinity h0).resolve_right ?_
    rintro rfl
    exact (lt_iff.1 h).2.2.not_gt (lt_iff.1 ceiling_lt_infinity).2.2
  have hplace := place_round hx
  have hlt := nearest_lt_of_lt_ceiling hplace h
  refine ⟨UInt64.ofNat (nearest (whole x) 1), ?_, ?_⟩
  · rw [ofNumber?_of_nonnegative hx, if_neg hlt.not_gt, min_eq_left (Nat.le_sub_one_of_lt hlt)]
  · have hnan := round_ne_nan (ne_nan_of_isFinite hx.1)
    rw [UInt64.toNat_ofNat_of_lt' hlt, same_iff_place_eq hnan (unsigned_ofNat _).1,
      hplace, (unsigned_ofNat _).place_eq, (unsigned_ofNat _).place_eq, height_ofNat, height_ofNat,
      nearest_one_of_onGrid (onGrid_nearest Nat.one_pos)]

/-- A number up to the ceiling is an amount. -/
theorem exists_of_height_le (h : Nonnegative x) (hle : x.height ≤ UInt64.size * one) :
    ∃ a, ofNumber? x = some a := by
  have hwhole : nearest (whole x) 1 ≤ UInt64.size := by
    refine nearest_le Nat.one_pos onGrid_wordSize ?_
    rw [Nat.mul_one]
    exact roundHalfUp_le Binary64.one_pos hle
  rw [ofNumber?_of_nonnegative h, if_neg hwhole.not_gt]
  exact ⟨_, rfl⟩

end Amount

end NodeRanking
