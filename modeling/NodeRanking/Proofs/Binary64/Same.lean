import NodeRanking.Proofs.Binary64.Line

/-!
# Equal numbers

`Same` is equality as numbers, which the sign of a zero does not count for: of numbers other than NaN
it holds exactly where they lie at one place (`same_iff_place_eq`). Equal numbers have one magnitude,
and one square after a division (`Same.abs_eq`, `Same.square_div_eq`).
-/

namespace NodeRanking

namespace Binary64

attribute [local irreducible] one limit

/-- Equal as numbers: the same one, or zeros of either sign. -/
def Same (x y : Binary64) : Prop := x = y ∨ x.isZero = true ∧ y.isZero = true

instance : DecidableRel Same :=
  fun x y => inferInstanceAs (Decidable (x = y ∨ x.isZero = true ∧ y.isZero = true))

variable {x y : Binary64}

theorem Same.refl (x : Binary64) : x.Same x := .inl rfl

theorem exists_eq_zero (h : x.isZero = true) : ∃ s, x = zero s := by
  cases x with
  | nan => simp [isZero] at h
  | infinity s => simp [isZero] at h
  | finite s n hn =>
    obtain rfl : n = 0 := by simpa [isZero] using h
    exact ⟨s, rfl⟩

theorem place_of_isZero (h : x.isZero = true) : x.place = 0 := by
  obtain ⟨s, rfl⟩ := exists_eq_zero h
  exact place_zero s

theorem Same.place_eq (h : x.Same y) : x.place = y.place := by
  rcases h with rfl | ⟨hx, hy⟩
  · rfl
  · rw [place_of_isZero hx, place_of_isZero hy]

theorem isZero_iff_place_eq_zero (hx : x ≠ .nan) : x.isZero = true ↔ x.place = 0 := by
  refine ⟨place_of_isZero, fun h => ?_⟩
  have hheight : x.height = 0 := Int.natAbs_eq_zero.2 h
  cases x with
  | nan => exact absurd rfl hx
  | infinity s => exact absurd hheight (by rw [height_infinity]; exact limit_pos.ne')
  | finite s n hn => simpa [isZero] using hheight

theorem place_nonpos_of_isNegative (h : x.isNegative = true) : x.place ≤ 0 := by
  cases x with
  | nan => exact le_rfl
  | infinity s => simp_all [isNegative, signed]
  | finite s n hn => simp_all [isNegative, signed]

theorem place_nonneg_of_not_isNegative (h : x.isNegative = false) : 0 ≤ x.place := by
  cases x with
  | nan => exact le_rfl
  | infinity s => simp_all [isNegative, signed]
  | finite s n hn => simp_all [isNegative, signed]

/-- Numbers at one place are the same but for the sign of a zero. -/
theorem same_iff_place_eq (hx : x ≠ .nan) (hy : y ≠ .nan) : x.Same y ↔ x.place = y.place := by
  refine ⟨Same.place_eq, fun h => ?_⟩
  by_cases hsign : x.isNegative = y.isNegative
  · refine .inl (totalPlace_injective ?_)
    unfold totalPlace
    rw [if_neg hx, if_neg hy, h, hsign]
  · -- a place on both sides of zero
    have hzero : x.place = 0 := by
      cases hxs : x.isNegative with
      | false =>
        have hys : y.isNegative = true := by simpa [hxs] using hsign
        exact (h ▸ place_nonpos_of_isNegative hys).antisymm (place_nonneg_of_not_isNegative hxs)
      | true =>
        have hys : y.isNegative = false := by simpa [hxs] using hsign
        exact (place_nonpos_of_isNegative hxs).antisymm (h ▸ place_nonneg_of_not_isNegative hys)
    exact .inr ⟨(isZero_iff_place_eq_zero hx).2 hzero, (isZero_iff_place_eq_zero hy).2 (h ▸ hzero)⟩

theorem Same.abs_eq (h : x.Same y) : x.abs = y.abs := by
  rcases h with rfl | ⟨hx, hy⟩
  · rfl
  · obtain ⟨s, rfl⟩ := exists_eq_zero hx
    obtain ⟨t, rfl⟩ := exists_eq_zero hy
    rfl

theorem ofRatio_zero (s : Bool) {den : ℕ} (hden : 0 < den) : ofRatio s 0 den = zero s := by
  unfold ofRatio
  simp only [dif_pos hden, nearest_zero, dif_pos limit_pos]
  rfl

theorem zero_div (s : Bool) (y : Binary64) :
    zero s / y = if y = .nan ∨ y.isZero = true then .nan else zero (s != y.isNegative) := by
  cases y with
  | nan => rfl
  | infinity t => rfl
  | finite t n hn =>
    by_cases h0 : n = 0
    · subst h0
      rfl
    · have hcond : ¬((finite t n hn = .nan) ∨ (finite t n hn).isZero = true) := by
        simp [isZero, h0]
      rw [if_neg hcond]
      show (if n = 0 then _ else ofRatio (s != t) (0 * one) n) = _
      rw [if_neg h0, Nat.zero_mul]
      exact ofRatio_zero _ (Nat.pos_of_ne_zero h0)

theorem square_zero (s : Bool) : (zero s).square = zero false := by
  show ofRatio (s != s) (0 * 0) one = _
  rw [bne_self_eq_false]
  exact ofRatio_zero false one_pos

theorem Same.square_div_eq (h : x.Same y) (scale : Binary64) :
    (x / scale).square = (y / scale).square := by
  rcases h with rfl | ⟨hx, hy⟩
  · rfl
  · obtain ⟨s, rfl⟩ := exists_eq_zero hx
    obtain ⟨t, rfl⟩ := exists_eq_zero hy
    rw [zero_div, zero_div]
    split_ifs
    · rfl
    · rw [square_zero, square_zero]

end Binary64

end NodeRanking
