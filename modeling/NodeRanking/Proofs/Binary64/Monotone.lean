import NodeRanking.Proofs.Binary64.Operations

/-!
# Operations that keep the order

A number that is at most another one stays so through a product with a positive number, the rounding
to a whole number, a clamp and the cast to a natural number (`mul_le_mul_right`, `round_mono`,
`clamp_mono`, `toNat_mono`), infinities included: by `le_cases` either one of the two is at its end of
the line, or both are finite.
-/

namespace NodeRanking

namespace Binary64

attribute [local irreducible] one limit

variable {x y : Binary64}

/-! ## The ends of the line -/

theorem infinity_le (hx : x ≠ .nan) : .infinity true ≤ x := by
  have hheight := height_le_limit x
  unfold height at hheight
  refine le_iff.2 ⟨by simp, hx, ?_⟩
  simp only [place_infinity, signed, if_true]
  omega

theorem le_infinity (hx : x ≠ .nan) : x ≤ .infinity false := by
  have hheight := height_le_limit x
  unfold height at hheight
  refine le_iff.2 ⟨hx, by simp, ?_⟩
  rw [place_infinity, signed_false]
  omega

/-- Nothing but infinity is at least infinity. -/
theorem eq_infinity_of_ge (h : .infinity false ≤ y) : y = .infinity false := by
  obtain ⟨-, hnan, hle⟩ := le_iff.1 h
  have hpos := limit_pos
  rw [place_infinity, signed_false] at hle
  cases y with
  | nan => exact absurd rfl hnan
  | infinity s => cases s <;> simp_all [signed]
  | finite s n hn =>
    have hlt := hn.1
    cases s <;> simp [signed] at hle <;> omega

/-- Of two numbers in order one lies at its end of the line, or both are finite. -/
theorem le_cases (h : x ≤ y) : x = .infinity true ∨ y = .infinity false ∨
    x.isFinite = true ∧ y.isFinite = true := by
  obtain ⟨hx, hy, -⟩ := le_iff.1 h
  cases x with
  | nan => exact absurd rfl hx
  | infinity s =>
    cases s with
    | true => exact .inl rfl
    | false => exact .inr (.inl (eq_infinity_of_ge h))
  | finite s m hm =>
    cases y with
    | nan => exact absurd rfl hy
    | infinity t =>
      cases t with
      | true => exact absurd (eq_infinity_of_le h) (by simp)
      | false => exact .inr (.inl rfl)
    | finite t n hn => exact .inr (.inr ⟨rfl, rfl⟩)

/-! ## Products -/

section Product

variable {k : Binary64} (hk : k.isFinite = true) (hpos : 0 < k.place)

include hk hpos

/-- A product with a positive number keeps the infinities. -/
theorem infinity_mul (s : Bool) : .infinity s * k = .infinity s := by
  obtain ⟨t, n, hn, rfl⟩ := exists_eq_finite hk
  obtain rfl : t = false := by
    cases t with
    | true => exact absurd hpos (by simp [signed])
    | false => rfl
  have hne : n ≠ 0 := by
    rintro rfl
    simp at hpos
  show (if n = 0 then _ else infinity (s != false)) = _
  rw [if_neg hne, Bool.bne_false]

theorem mul_ne_nan_of_pos (hx : x ≠ .nan) : x * k ≠ .nan := by
  cases x with
  | nan => exact absurd rfl hx
  | infinity s => simp [infinity_mul hk hpos]
  | finite s n hn => exact mul_ne_nan rfl hk

/-- A product with a positive number keeps the order. -/
theorem mul_le_mul_right (h : x ≤ y) : x * k ≤ y * k := by
  obtain ⟨hx, hy, hplace⟩ := le_iff.1 h
  have hxk := mul_ne_nan_of_pos hk hpos hx
  have hyk := mul_ne_nan_of_pos hk hpos hy
  rcases le_cases h with rfl | rfl | ⟨hxfin, hyfin⟩
  · rw [infinity_mul hk hpos]
    exact infinity_le hyk
  · rw [infinity_mul hk hpos]
    exact le_infinity hxk
  · refine le_iff.2 ⟨hxk, hyk, ?_⟩
    rw [place_mul hxfin hk, place_mul hyfin hk]
    exact roundPlace_mono one_pos (mul_le_mul_of_nonneg_right hplace hpos.le)

end Product

/-! ## Whole numbers -/

theorem round_ne_nan (hx : x ≠ .nan) : x.round ≠ .nan := by
  cases x with
  | nan => exact absurd rfl hx
  | infinity s => simp [round]
  | finite s n hn => exact ofRatio_ne_nan _ _ Nat.one_pos

/-- A function that keeps zero and the order keeps the order of the two directions from zero. -/
theorem signed_mono {f : ℕ → ℕ} (hzero : f 0 = 0) (hmono : Monotone f) {s t : Bool} {m n : ℕ}
    (h : signed s m ≤ signed t n) : signed s (f m) ≤ signed t (f n) := by
  cases s <;> cases t <;> simp only [signed, if_true, if_false, Bool.false_eq_true] at h ⊢
  · exact_mod_cast hmono (by exact_mod_cast h)
  · obtain ⟨rfl, rfl⟩ : m = 0 ∧ n = 0 := by omega
    simp [hzero]
  · omega
  · have := hmono (show n ≤ m by omega)
    omega

/-- Rounding to a whole number keeps the order. -/
theorem round_mono (h : x ≤ y) : x.round ≤ y.round := by
  obtain ⟨hx, hy, hplace⟩ := le_iff.1 h
  rcases le_cases h with rfl | rfl | ⟨hxfin, hyfin⟩
  · exact infinity_le (round_ne_nan hy)
  · exact le_infinity (round_ne_nan hx)
  obtain ⟨s, m, hm, rfl⟩ := exists_eq_finite hxfin
  obtain ⟨t, n, hn, rfl⟩ := exists_eq_finite hyfin
  refine le_iff.2 ⟨round_ne_nan hx, round_ne_nan hy, ?_⟩
  have hzero : roundHalfUp 0 one * one = 0 := by
    have hle : roundHalfUp 0 one ≤ 0 := roundHalfUp_le one_pos (Nat.zero_le _)
    rw [Nat.le_zero.1 hle, Nat.zero_mul]
  have hmono : Monotone fun units => roundHalfUp units one * one :=
    fun _ _ hle => Nat.mul_le_mul_right one (roundHalfUp_mono one hle)
  show (ofRatio s (roundHalfUp m one * one) 1).place ≤ (ofRatio t (roundHalfUp n one * one) 1).place
  rw [place_ofRatio _ _ Nat.one_pos, place_ofRatio _ _ Nat.one_pos]
  exact roundPlace_mono Nat.one_pos (signed_mono hzero hmono hplace)

/-! ## Bounds -/

theorem clamp_mono {low high : Binary64} (hbounds : low ≤ high) (h : x ≤ y) :
    x.clamp low high ≤ y.clamp low high := by
  obtain ⟨hlow, hhigh, hle⟩ := le_iff.1 hbounds
  obtain ⟨hx, hy, hplace⟩ := le_iff.1 h
  have hlt {a b : Binary64} (ha : a ≠ .nan) (hb : b ≠ .nan) : a < b ↔ a.place < b.place := by
    rw [lt_iff, and_iff_right ha, and_iff_right hb]
  unfold clamp
  simp only [hlt hx hlow, hlt hhigh hx, hlt hy hlow, hlt hhigh hy]
  split_ifs <;> refine le_iff.2 ⟨by assumption, by assumption, by omega⟩

/-- The cast to a natural number, of a finite number. -/
theorem toNat_eq (hfin : x.isFinite = true) (top : ℕ) :
    x.toNat top = min (x.place.toNat / one) top := by
  obtain ⟨s, n, hn, rfl⟩ := exists_eq_finite hfin
  cases s with
  | true => simp [toNat, signed]
  | false => rfl

theorem toNat_le (x : Binary64) (top : ℕ) : x.toNat top ≤ top := by
  rcases x with - | s | ⟨s, n, hn⟩
  · exact Nat.zero_le _
  · cases s <;> simp [toNat]
  · cases s <;> simp [toNat]

/-- The cast to a natural number keeps the order. -/
theorem toNat_mono (h : x ≤ y) (top : ℕ) : x.toNat top ≤ y.toNat top := by
  rcases le_cases h with rfl | rfl | ⟨hxfin, hyfin⟩
  · exact Nat.zero_le _
  · exact toNat_le x top
  · rw [toNat_eq hxfin, toNat_eq hyfin]
    exact min_le_min_right _
      (Nat.div_le_div_right (Int.toNat_le_toNat (le_iff.1 h).2.2))

end Binary64

end NodeRanking
