import NodeRanking.Closeness
import NodeRanking.Proofs.Extremes

/-!
# Laws of closeness and score

1. The distance of finite points grows with the gaps between their values (`height_distance_mono`)
   and depends on nothing else (`distance_eq_of_gap`, `distance_congr`).
2. A share is a NaN exactly where the distance to the anti-ideal is infinite, and otherwise a finite
   number from 0 to 1 (`share_infinity`, `share_mem`): exactly 1 at the ideal and 0 at the anti-ideal,
   where these are apart (`share_zero_left`, `share_zero_right`).
3. A point that is nearer to the ideal and farther from the anti-ideal has a share at least as
   large, less one `ulp` that the rounding of the two sums can cost it (`height_share_le_add_ulp`).
   With the two distances exchanged, the share is what is left of one but for rounding
   (`height_share_add`).
4. The score grows with the closeness, and by at most one over one `ulp` (`scoreOf_mono`,
   `scoreOf_le_add_one`). It is from 0 to 100 for every closeness (`scoreOf_mem`), and what two
   mirrored points score adds up to 100, give or take one point (`scoreOf_add_mem`).
-/

namespace NodeRanking

open Binary64

attribute [local irreducible] Binary64.one Binary64.limit Binary64.ulp

/-! ## Distances -/

section Distance

variable {a b a' b' : Metrics} (ha : a.Finite) (hb : b.Finite) (ha' : a'.Finite) (hb' : b'.Finite)

/-- The sum of the squares under the root of a distance. -/
def squares (a b : Metrics) : Binary64 :=
  Binary64.sum (Criterion.all.map fun c => (a.get c - b.get c).square)

theorem distance_eq (a b : Metrics) : distance a b = (squares a b).sqrt := rfl

include ha hb

theorem unsigned_square_sub (c : Criterion) : (a.get c - b.get c).square.Unsigned :=
  unsigned_square (sub_ne_nan (ha c) (hb c))

theorem unsigned_squares : (squares a b).Unsigned := by
  apply unsigned_sum
  intro x hx
  obtain ⟨c, -, rfl⟩ := List.mem_map.1 hx
  exact unsigned_square_sub ha hb c

theorem unsigned_distance : (distance a b).Unsigned := unsigned_sqrt (unsigned_squares ha hb)

include ha' hb'

/-- Distances grow with the gaps between the values. -/
theorem height_distance_mono (h : ∀ c, ((a.get c).place - (b.get c).place).natAbs ≤
      ((a'.get c).place - (b'.get c).place).natAbs) :
    (distance a b).height ≤ (distance a' b').height := by
  apply sqrt_mono (unsigned_squares ha hb) (unsigned_squares ha' hb')
  apply sum_mono Criterion.all (unsigned_square_sub ha hb) (unsigned_square_sub ha' hb')
  intro c
  apply square_mono (sub_ne_nan (ha c) (hb c)) (sub_ne_nan (ha' c) (hb' c))
  rw [height_sub (ha c) (hb c), height_sub (ha' c) (hb' c)]
  exact min_le_min_right _ (nearest_mono_left Nat.one_pos (h c))

/-- A distance depends only on the gaps between the values. -/
theorem distance_eq_of_gap (h : ∀ c, ((a.get c).place - (b.get c).place).natAbs =
      ((a'.get c).place - (b'.get c).place).natAbs) : distance a b = distance a' b' := by
  apply (unsigned_distance ha hb).ext (unsigned_distance ha' hb')
  apply le_antisymm
  · exact height_distance_mono ha hb ha' hb' fun c => (h c).le
  · exact height_distance_mono ha' hb' ha hb fun c => (h c).ge

/-- A distance depends only on the places of the values. -/
theorem distance_congr (h : ∀ c, (a.get c).place = (a'.get c).place)
    (h' : ∀ c, (b.get c).place = (b'.get c).place) : distance a b = distance a' b' := by
  apply distance_eq_of_gap ha hb ha' hb'
  intro c
  rw [h, h']

omit ha' hb'

theorem distance_comm : distance a b = distance b a := by
  apply distance_eq_of_gap ha hb hb ha
  intro c
  omega

omit hb

theorem distance_self : distance a a = 0 := by
  have hzero : Metrics.Finite (.ofFn fun _ => 0) := by
    intro c
    rw [ByCriterion.get_ofFn]
    exact isFinite_zero
  have heq := distance_eq_of_gap ha ha hzero hzero fun c => by rw [sub_self, sub_self]
  rw [heq]
  decide +kernel

end Distance

/-! ## Shares -/

/-- A finite number from 0 to 1. -/
def InUnit (c : Binary64) : Prop := c.isFinite = true ∧ 0 ≤ c ∧ c ≤ 1

theorem inUnit_of_height_le {c : Binary64} (hu : c.Unsigned) (hfin : c.isFinite = true)
    (hle : c.height ≤ one) : InUnit c := by
  refine ⟨hfin, ?_, ?_⟩
  · rw [unsigned_zero.le_iff hu, height, place_ofNat_zero]
    exact Nat.zero_le _
  · rw [hu.le_iff unsigned_one]
    exact hle.trans_eq height_ofNat_one.symm

theorem not_inUnit_nan : ¬InUnit .nan := fun h => absurd h.1 (by simp [isFinite])

section Share

variable {p m : Binary64} (hp : p.Unsigned) (hm : m.Unsigned)

theorem unsigned_undecided : undecided.Unsigned := by
  unfold Unsigned
  decide +kernel

theorem two_mul_height_undecided : 2 * undecided.height = one := by decide +kernel

theorem height_undecided_le : undecided.height ≤ one := by
  rw [← two_mul_height_undecided]
  omega

theorem isFinite_undecided : undecided.isFinite = true :=
  unsigned_undecided.isFinite_iff.2 (height_undecided_le.trans_lt one_lt_limit)

/-- Next to an infinite distance to the anti-ideal the sum is infinite too. -/
theorem share_infinity (hp : p.Unsigned) : share p (.infinity false) = .nan := by
  have htotal : p + .infinity false = .infinity false := by
    rcases hp.cases with rfl | ⟨n, hn, rfl⟩ <;> rfl
  unfold share
  dsimp only
  rw [htotal, if_neg (not_infinity_lt negligible)]
  rfl

theorem share_of_lt (h : p + m < negligible) : share p m = undecided := if_pos h

include hp hm

/-- The quotient by a finite sum that counts as more than zero. -/
theorem share_eq_ofRatio (hfin : m.isFinite = true) (htotal : (p + m).isFinite = true)
    (h : ¬p + m < negligible) : share p m = ofRatio false (m.height * one) (p + m).height := by
  have hpos := height_pos_of_not_lt_negligible (hp.add hm) h
  unfold share
  dsimp only
  rw [if_neg h, div_eq_ofRatio hfin htotal (hp.add hm) hpos, hm.2]

theorem height_share (hfin : m.isFinite = true) (htotal : (p + m).isFinite = true)
    (h : ¬p + m < negligible) :
    (share p m).height = nearest (m.height * one) (p + m).height ∧ (share p m).height ≤ one := by
  have hpos := height_pos_of_not_lt_negligible (hp.add hm) h
  have hle : nearest (m.height * one) (p + m).height ≤ one := by
    apply nearest_le hpos onGrid_one
    rw [Nat.mul_comm]
    exact Nat.mul_le_mul_left one (hp.height_le_add_right hm)
  have heq : (share p m).height = nearest (m.height * one) (p + m).height := by
    rw [share_eq_ofRatio hp hm hfin htotal h, height_ofRatio _ _ hpos]
    exact min_eq_left (hle.trans one_lt_limit.le)
  exact ⟨heq, heq ▸ hle⟩

/-- Next to a finite distance to the anti-ideal the share is a number from 0 to 1. -/
theorem share_mem (hfin : m.isFinite = true) :
    (share p m).Unsigned ∧ (share p m).isFinite = true ∧ (share p m).height ≤ one := by
  by_cases h : p + m < negligible
  · rw [share_of_lt h]
    exact ⟨unsigned_undecided, isFinite_undecided, height_undecided_le⟩
  by_cases htotal : (p + m).isFinite = true
  · have hle := (height_share hp hm hfin htotal h).2
    have hu : (share p m).Unsigned := by
      rw [share_eq_ofRatio hp hm hfin htotal h]
      exact unsigned_ofRatio _ (height_pos_of_not_lt_negligible (hp.add hm) h)
    exact ⟨hu, hu.isFinite_iff.2 (hle.trans_lt one_lt_limit), hle⟩
  · -- a finite number over an infinite sum is zero
    have hshare : share p m = zero false := by
      unfold share
      dsimp only
      rw [if_neg h, (hp.add hm).eq_infinity (Bool.not_eq_true _ ▸ htotal)]
      rcases hm.cases with rfl | ⟨n, hn, rfl⟩
      · exact absurd hfin (by simp [isFinite])
      · rfl
    rw [hshare]
    exact ⟨⟨by simp [zero], rfl⟩, rfl, by simp [height]⟩

end Share

/-! ## Shares at the extremes -/

/-- A point at both extremes is undecided. -/
theorem share_zero_zero : share 0 0 = undecided := share_of_lt (by decide +kernel)

section Extremes

variable {m : Binary64} (hm : m.Unsigned) (hfin : m.isFinite = true) (h : ¬m < negligible)

include hm hfin h

/-- A point at the ideal. -/
theorem share_zero_left : share 0 m = 1 := by
  have hadd : 0 + m = m := hm.zero_add
  obtain ⟨hheight, -⟩ := height_share unsigned_zero hm hfin (by rwa [hadd]) (by rwa [hadd])
  apply (share_mem unsigned_zero hm hfin).1.ext unsigned_one
  rw [hheight, hadd, height_ofNat_one, Nat.mul_comm]
  exact nearest_mul_of_onGrid (height_pos_of_not_lt_negligible hm h) onGrid_one

/-- A point at the anti-ideal. -/
theorem share_zero_right : share m 0 = 0 := by
  have hadd : m + 0 = m := hm.add_zero
  obtain ⟨hheight, -⟩ := height_share hm unsigned_zero isFinite_zero (by rwa [hadd]) (by rwa [hadd])
  apply (share_mem hm unsigned_zero isFinite_zero).1.ext unsigned_zero
  rw [hheight, height_ofNat_zero, Nat.zero_mul, nearest_zero]

end Extremes

/-! ## Shares of two points -/

/-- Where `p₂ - p₁` and `m₁ - m₂` are not negative, the rounding of the two sums costs the quotient
`m₁ / (p₁ + m₁)` at most `2 ^ -52` of the other one. -/
theorem mul_nearest_le {p₁ m₁ p₂ m₂ : ℕ} (hp : p₁ ≤ p₂) (hm : m₂ ≤ m₁) (hgrid : OnGrid m₂) :
    2 ^ 52 * (m₂ * nearest (p₁ + m₁) 1) ≤
      2 ^ 52 * (m₁ * nearest (p₂ + m₂) 1) + m₂ * nearest (p₁ + m₁) 1 := by
  by_cases hle : nearest (p₁ + m₁) 1 ≤ nearest (p₂ + m₂) 1
  · have := Nat.mul_le_mul hm hle
    omega
  -- the exact sums are then in the same order, and `m₁` is larger than `m₂` by as much at least
  have hsum : p₂ + m₂ < p₁ + m₁ := by
    by_contra h
    exact hle (nearest_mono_left Nat.one_pos (not_lt.1 h))
  have herr₁ := (nearest_error (p₁ + m₁) Nat.one_pos).1
  have herr₂ := (nearest_error (p₂ + m₂) Nat.one_pos).2
  have hstep := step_le_step hsum.le
  simp only [Nat.one_mul, Nat.div_one] at herr₁ herr₂
  have hm₂ : m₂ ≤ nearest (p₂ + m₂) 1 := le_nearest Nat.one_pos hgrid (by omega)
  obtain ⟨d, rfl⟩ := Nat.exists_eq_add_of_le hm
  generalize hg : step (p₁ + (m₂ + d)) = g at *
  generalize ht₁ : nearest (p₁ + (m₂ + d)) 1 = t₁ at *
  generalize ht₂ : nearest (p₂ + m₂) 1 = t₂ at *
  have hd : m₂ * (t₂ + d) ≤ (m₂ + d) * t₂ := by
    rw [Nat.mul_add, Nat.add_mul, Nat.mul_comm m₂ d]
    exact Nat.add_le_add_left (Nat.mul_le_mul_left d hm₂) _
  by_cases hone : 1 < g
  · have hg₁ : 2 ^ 52 * g ≤ t₁ := by
      rw [← hg] at hone ⊢
      rw [← ht₁]
      exact pow_mul_step_le_nearest hone
    have h₁ : m₂ * t₁ ≤ m₂ * (t₂ + d + g) := Nat.mul_le_mul_left m₂ (by omega)
    have h₂ : m₂ * (2 ^ 52 * g) ≤ m₂ * t₁ := Nat.mul_le_mul_left m₂ hg₁
    rw [Nat.mul_add m₂ (t₂ + d) g] at h₁
    rw [Nat.mul_left_comm] at h₂
    omega
  · -- sums this small are exact
    have h₁ : m₂ * t₁ ≤ m₂ * (t₂ + d) := by
      have := step_pos (p₁ + (m₂ + d))
      exact Nat.mul_le_mul_left m₂ (by omega)
    omega

/-- The two distances of a point, as the share sees them: finite, and with a finite sum. -/
structure Reach (p m : Binary64) : Prop where
  toIdeal : p.Unsigned
  toAntiIdeal : m.Unsigned
  finite : m.isFinite = true
  total : (p + m).isFinite = true

namespace Reach

variable {p₁ m₁ p₂ m₂ : Binary64} (h₁ : Reach p₁ m₁) (h₂ : Reach p₂ m₂)

include h₁ in
theorem height_add : (p₁ + m₁).height = nearest (p₁.height + m₁.height) 1 := by
  have hfin := h₁.total
  have heq := h₁.toIdeal.height_add h₁.toAntiIdeal
  rw [(h₁.toIdeal.add h₁.toAntiIdeal).isFinite_iff] at hfin
  omega

include h₁ h₂

/-- Where the rounded sum is no larger either, nothing is lost. -/
theorem height_share_le (hm : m₂.height ≤ m₁.height) (hle : (p₁ + m₁).height ≤ (p₂ + m₂).height)
    (hdec₁ : ¬p₁ + m₁ < negligible) (hdec₂ : ¬p₂ + m₂ < negligible) :
    (share p₂ m₂).height ≤ (share p₁ m₁).height := by
  rw [(height_share h₁.toIdeal h₁.toAntiIdeal h₁.finite h₁.total hdec₁).1,
    (height_share h₂.toIdeal h₂.toAntiIdeal h₂.finite h₂.total hdec₂).1]
  apply nearest_mono
  · exact height_pos_of_not_lt_negligible (h₂.toIdeal.add h₂.toAntiIdeal) hdec₂
  · exact height_pos_of_not_lt_negligible (h₁.toIdeal.add h₁.toAntiIdeal) hdec₁
  · exact Nat.mul_le_mul (Nat.mul_le_mul_right one hm) hle

/-- The share of the better point is at least the other one, less one `ulp`. -/
theorem height_share_le_add_ulp (hp : p₁.height ≤ p₂.height) (hm : m₂.height ≤ m₁.height)
    (hdec₁ : ¬p₁ + m₁ < negligible) (hdec₂ : ¬p₂ + m₂ < negligible) :
    (share p₂ m₂).height ≤ (share p₁ m₁).height + ulp := by
  have hpos₁ := height_pos_of_not_lt_negligible (h₁.toIdeal.add h₁.toAntiIdeal) hdec₁
  have hpos₂ := height_pos_of_not_lt_negligible (h₂.toIdeal.add h₂.toAntiIdeal) hdec₂
  have hle₂ := h₂.toIdeal.height_le_add_right h₂.toAntiIdeal
  have hslack := mul_nearest_le hp hm (onGrid_height m₂)
  rw [← h₁.height_add, ← h₂.height_add] at hslack
  rw [(height_share h₁.toIdeal h₁.toAntiIdeal h₁.finite h₁.total hdec₁).1,
    (height_share h₂.toIdeal h₂.toAntiIdeal h₂.finite h₂.total hdec₂).1]
  generalize (p₁ + m₁).height = t₁ at *
  generalize (p₂ + m₂).height = t₂ at *
  -- both quotients over one denominator
  rw [← nearest_mul_mul_left _ t₂ hpos₁, ← nearest_mul_mul_left _ t₁ hpos₂, Nat.mul_comm t₂ t₁]
  apply nearest_le_add_ulp (Nat.mul_pos hpos₁ hpos₂)
  · calc t₁ * (m₂.height * one) ≤ t₁ * (t₂ * one) :=
        Nat.mul_le_mul_left t₁ (Nat.mul_le_mul_right one hle₂)
      _ = one * (t₁ * t₂) := by ring
  · calc 2 ^ 52 * (t₁ * (m₂.height * one)) = 2 ^ 52 * (m₂.height * t₁) * one := by ring
      _ ≤ (2 ^ 52 * (m₁.height * t₂) + m₂.height * t₁) * one := Nat.mul_le_mul_right one hslack
      _ = 2 ^ 52 * (t₂ * (m₁.height * one)) + t₁ * (m₂.height * one) := by ring

end Reach

/-! ## Shares of mirrored points -/

namespace Reach

variable {p m : Binary64} (h : Reach p m)

include h

/-- A point with the two distances exchanged. -/
theorem mirror (hfin : p.isFinite = true) : Reach m p :=
  ⟨h.toAntiIdeal, h.toIdeal, hfin, by rw [Binary64.add_comm]; exact h.total⟩

/-- A point no nearer to the anti-ideal than to the ideal has a share of one half at least. -/
theorem undecided_le_height_share (hle : p.height ≤ m.height) :
    undecided.height ≤ (share p m).height := by
  by_cases hlt : p + m < negligible
  · rw [share_of_lt hlt]
  have hpos := height_pos_of_not_lt_negligible (h.toIdeal.add h.toAntiIdeal) hlt
  have hdouble : (p + m).height ≤ m.height * 2 := by
    rw [h.height_add]
    exact nearest_le Nat.one_pos ((onGrid_height m).mul_pow ⟨1, rfl⟩) (by omega)
  rw [(height_share h.toIdeal h.toAntiIdeal h.finite h.total hlt).1]
  apply le_nearest hpos (onGrid_height undecided)
  calc undecided.height * (p + m).height ≤ undecided.height * (m.height * 2) :=
        Nat.mul_le_mul_left _ hdouble
    _ = m.height * one := by rw [← two_mul_height_undecided]; ring

/-- A point no nearer to the ideal than to the anti-ideal has a share of one half at most. -/
theorem height_share_le_undecided (hle : m.height ≤ p.height) :
    (share p m).height ≤ undecided.height := by
  by_cases hlt : p + m < negligible
  · rw [share_of_lt hlt]
  have hpos := height_pos_of_not_lt_negligible (h.toIdeal.add h.toAntiIdeal) hlt
  have hdouble : m.height * 2 ≤ (p + m).height := by
    rw [h.height_add]
    exact le_nearest Nat.one_pos ((onGrid_height m).mul_pow ⟨1, rfl⟩) (by omega)
  rw [(height_share h.toIdeal h.toAntiIdeal h.finite h.total hlt).1]
  apply nearest_le hpos (onGrid_height undecided)
  calc m.height * one = undecided.height * (m.height * 2) := by
        rw [← two_mul_height_undecided]; ring
    _ ≤ undecided.height * (p + m).height := Nat.mul_le_mul_left _ hdouble

/-- The shares of two mirrored points add up to one, but for three halves of an `ulp`. -/
theorem height_share_add (hfin : p.isFinite = true) :
    2 * ((share p m).height + (share m p).height) ≤ 2 * one + 3 * ulp ∧
      2 * one ≤ 2 * ((share p m).height + (share m p).height) + 3 * ulp := by
  have hcomm : m + p = p + m := Binary64.add_comm m p
  by_cases hlt : p + m < negligible
  · have hundecided := two_mul_height_undecided
    rw [share_of_lt hlt, share_of_lt (hcomm ▸ hlt)]
    omega
  have hpos := height_pos_of_not_lt_negligible (h.toIdeal.add h.toAntiIdeal) hlt
  have hm := h.toIdeal.height_le_add_right h.toAntiIdeal
  have hp := h.toIdeal.height_le_add_left h.toAntiIdeal
  have h' := h.mirror hfin
  rw [(height_share h.toIdeal h.toAntiIdeal h.finite h.total hlt).1,
    (height_share h'.toIdeal h'.toAntiIdeal h'.finite h'.total (hcomm ▸ hlt)).1, hcomm]
  apply nearest_add_nearest hpos hm hp
  rw [h.height_add, Nat.add_comm]

end Reach

/-! ## Scores -/

section Score

variable {c c' : Binary64} (hc : c.Unsigned) (hle : c.height ≤ one) (hc' : c'.Unsigned)
  (hle' : c'.height ≤ one)

theorem topScore_mul_one_lt : topScore * one < limit :=
  (Nat.mul_le_mul_right one (by decide)).trans_lt wordSize_mul_one_lt

theorem onGrid_topScore : OnGrid (topScore * one) := onGrid_mul_one (by decide)

theorem height_topScore : (Binary64.ofNat topScore).height = topScore * one := by
  rw [height_ofNat, nearest_one_of_onGrid (onGrid_of_le (by decide)),
    min_eq_left topScore_mul_one_lt.le]

theorem isFinite_topScore : (Binary64.ofNat topScore).isFinite = true := by
  rw [(unsigned_ofNat topScore).isFinite_iff, height_topScore]
  exact topScore_mul_one_lt

/-- The closeness in hundredths, before it is rounded to a whole number. -/
def hundredths (c : Binary64) : ℕ := nearest (c.height * topScore) 1

theorem hundredths_le (hle : c.height ≤ one) : hundredths c ≤ topScore * one := by
  apply nearest_le Nat.one_pos onGrid_topScore
  rw [Nat.mul_one, Nat.mul_comm]
  exact Nat.mul_le_mul_left topScore hle

theorem eight_le_one : 8 ≤ one := by
  have := pow_mul_ulp
  have := pos_of_eq_pow ulp_eq_pow
  omega

/-- The hundredths are off by at most an eighth of a point. -/
theorem hundredths_error (hle : c.height ≤ one) :
    8 * hundredths c ≤ 8 * (c.height * topScore) + one ∧
      8 * (c.height * topScore) ≤ 8 * hundredths c + one := by
  have hn : c.height * topScore ≤ one * topScore := Nat.mul_le_mul_right topScore hle
  have hstep : 4 * step (c.height * topScore) ≤ one := by
    have height := eight_le_one
    by_cases h : 1 < step (c.height * topScore)
    · have := pow_mul_step_le h
      unfold topScore at *
      omega
    · omega
  have herr := nearest_error (c.height * topScore) Nat.one_pos
  rw [Nat.one_mul, Nat.one_mul, Nat.div_one] at herr
  unfold hundredths
  omega

include hc hle

theorem height_mul_topScore : (c * Binary64.ofNat topScore).Unsigned ∧
    (c * Binary64.ofNat topScore).isFinite = true ∧
      (c * Binary64.ofNat topScore).height = hundredths c := by
  have hfin : c.isFinite = true := hc.isFinite_iff.2 (hle.trans_lt one_lt_limit)
  have hu := hc.mul (unsigned_ofNat topScore) hfin isFinite_topScore
  have hheight : (c * Binary64.ofNat topScore).height = hundredths c := by
    have hone : nearest (c.height * (topScore * one)) one = hundredths c := by
      have := nearest_mul_mul_left (c.height * topScore) 1 Binary64.one_pos
      rwa [Nat.mul_one, Nat.mul_comm one, Nat.mul_assoc] at this
    rw [height_mul hfin isFinite_topScore, height_topScore, hone,
      min_eq_left ((hundredths_le hle).trans topScore_mul_one_lt.le)]
  refine ⟨hu, hu.isFinite_iff.2 ?_, hheight⟩
  rw [hheight]
  exact (hundredths_le hle).trans_lt topScore_mul_one_lt

/-- The score of a closeness from 0 to 1. -/
theorem scoreOf_eq : scoreOf c = (roundHalfUp (hundredths c) one : ℕ) := by
  obtain ⟨hu, hfin, hheight⟩ := height_mul_topScore hc hle
  have hround := hu.round_eq hfin
  rw [hheight] at hround
  have hk : roundHalfUp (hundredths c) one ≤ topScore :=
    roundHalfUp_le Binary64.one_pos (hundredths_le hle)
  generalize roundHalfUp (hundredths c) one = k at *
  have hkone : k * one ≤ topScore * one := Nat.mul_le_mul_right one hk
  -- the whole number is already between the bounds
  generalize hr : ofRatio false (k * one) 1 = r at *
  have hru : r.Unsigned := hr ▸ unsigned_ofRatio _ Nat.one_pos
  have hrh : r.height = k * one := by
    rw [← hr, height_ofRatio _ _ Nat.one_pos,
      nearest_one_of_onGrid (onGrid_mul_one (hk.trans (by decide))),
      min_eq_left (hkone.trans topScore_mul_one_lt.le)]
  have hrf : r.isFinite = true := by
    rw [hru.isFinite_iff, hrh]
    exact hkone.trans_lt topScore_mul_one_lt
  have hclamp : r.clamp 0 (Binary64.ofNat topScore) = r := by
    apply clamp_eq_self
    · rw [lt_iff, hru.place_eq, place_ofNat_zero]
      omega
    · rw [lt_iff, hru.place_eq, (unsigned_ofNat topScore).place_eq, height_topScore, hrh]
      omega
  unfold scoreOf
  dsimp only
  rw [hround, hclamp, hru.toNat_eq hrf, hrh, Nat.mul_div_cancel _ Binary64.one_pos,
    min_eq_left hk]

include hc' hle'

theorem scoreOf_mono (h : c.height ≤ c'.height) : scoreOf c ≤ scoreOf c' := by
  rw [scoreOf_eq hc hle, scoreOf_eq hc' hle']
  have hmono : hundredths c ≤ hundredths c' :=
    nearest_mono_left Nat.one_pos (Nat.mul_le_mul_right topScore h)
  exact_mod_cast roundHalfUp_mono one hmono

/-- One `ulp` of closeness is worth at most one point. -/
theorem scoreOf_le_add_one (h : c'.height ≤ c.height + ulp) : scoreOf c' ≤ scoreOf c + 1 := by
  rw [scoreOf_eq hc hle, scoreOf_eq hc' hle']
  have hulp := pow_mul_ulp
  have herr := (hundredths_error hle).2
  have herr' := (hundredths_error hle').1
  have hN : hundredths c' ≤ hundredths c + one := by
    unfold topScore at herr herr'
    omega
  have hround : roundHalfUp (hundredths c') one ≤ roundHalfUp (hundredths c) one + 1 := by
    unfold roundHalfUp
    rw [← Nat.add_div_right _ (Nat.mul_pos Nat.two_pos Binary64.one_pos)]
    exact Nat.div_le_div_right (by omega)
  exact_mod_cast hround

/-- The scores of two closenesses that add up to one, but for three halves of an `ulp`, miss the top
score by one point at most. -/
theorem scoreOf_add_mem (hadd : 2 * (c.height + c'.height) ≤ 2 * one + 3 * ulp)
    (hadd' : 2 * one ≤ 2 * (c.height + c'.height) + 3 * ulp) :
    99 ≤ scoreOf c + scoreOf c' ∧ scoreOf c + scoreOf c' ≤ 101 := by
  rw [scoreOf_eq hc hle, scoreOf_eq hc' hle']
  have hulp := pow_mul_ulp
  have herr := hundredths_error hle
  have herr' := hundredths_error hle'
  have hround := roundHalfUp_error (hundredths c) Binary64.one_pos
  have hround' := roundHalfUp_error (hundredths c') Binary64.one_pos
  unfold topScore at herr herr'
  generalize roundHalfUp (hundredths c) one = k at *
  generalize roundHalfUp (hundredths c') one = k' at *
  -- the hundredths are off by an eighth of a point each, and the two roundings by a half each
  have hlow : one * 98 < one * (k + k') := by
    rw [Nat.mul_add]
    omega
  have hhigh : one * (k + k') < one * 102 := by
    rw [Nat.mul_add]
    omega
  have h₁ := Nat.lt_of_mul_lt_mul_left hlow
  have h₂ := Nat.lt_of_mul_lt_mul_left hhigh
  omega

end Score

/-- A number that is not above the top score has no larger whole part. -/
theorem toNat_le_topScore {x : Binary64} (h : ¬Binary64.ofNat topScore < x) (top : ℕ) :
    x.toNat top ≤ topScore := by
  rcases x with - | s | ⟨s, n, hn⟩
  · exact Nat.zero_le _
  · cases s with
    | true => exact Nat.zero_le _
    | false =>
      refine absurd (lt_iff.2 ⟨(unsigned_ofNat topScore).1, by simp, ?_⟩) h
      rw [(unsigned_ofNat topScore).place_eq, height_topScore, place_infinity, signed_false]
      exact_mod_cast topScore_mul_one_lt
  · cases s with
    | true => exact Nat.zero_le _
    | false =>
      refine (min_le_left _ _).trans (Nat.div_le_of_le_mul (not_lt.1 fun hlt => h (lt_iff.2 ?_)))
      refine ⟨(unsigned_ofNat topScore).1, by simp, ?_⟩
      rw [(unsigned_ofNat topScore).place_eq, height_topScore, place_finite, signed_false]
      rw [Nat.mul_comm] at hlt
      exact_mod_cast hlt

/-- The whole part of a number brought between 0 and the top score, a NaN included. -/
theorem toNat_clamp_le (x : Binary64) (top : ℕ) :
    (x.clamp 0 (Binary64.ofNat topScore)).toNat top ≤ topScore := by
  apply toNat_le_topScore
  unfold clamp
  split_ifs with hlow hhigh
  · refine not_lt_of_le ((unsigned_zero.le_iff (unsigned_ofNat topScore)).2 ?_)
    rw [height_ofNat_zero]
    exact Nat.zero_le _
  · exact fun h => absurd (lt_iff.1 h).2.2 (lt_irrefl _)
  · exact hhigh

/-- Every closeness has a score from 0 to the top score, a NaN included. -/
theorem scoreOf_mem (c : Binary64) : 0 ≤ scoreOf c ∧ scoreOf c ≤ topScore :=
  ⟨Int.natCast_nonneg _, Int.ofNat_le.2 (toNat_clamp_le _ _)⟩

theorem scoreOf_zero : scoreOf 0 = 0 := by decide +kernel

theorem scoreOf_one : scoreOf 1 = topScore := by decide +kernel

theorem scoreOf_undecided : scoreOf undecided = 50 := by decide +kernel

section AroundHalf

variable {c : Binary64} (hc : c.Unsigned) (hle : c.height ≤ one)

include hc hle

theorem fifty_le_scoreOf (h : undecided.height ≤ c.height) : 50 ≤ scoreOf c :=
  scoreOf_undecided.symm.trans_le (scoreOf_mono unsigned_undecided height_undecided_le hc hle h)

theorem scoreOf_le_fifty (h : c.height ≤ undecided.height) : scoreOf c ≤ 50 :=
  (scoreOf_mono hc hle unsigned_undecided height_undecided_le h).trans_eq scoreOf_undecided

end AroundHalf

end NodeRanking
