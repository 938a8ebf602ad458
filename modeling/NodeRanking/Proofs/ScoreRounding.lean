import NodeRanking.Proofs.Binary64.Accuracy
import NodeRanking.Proofs.Binary64.Monotone
import NodeRanking.Proofs.Closeness

/-!
# The rounding of scores

From 0 to 1 the score of a number is the whole number nearest to its product with 100, a half going up
(`scoreOf_eq_round`): the product is rounded once, to a binary number, and its rounding to a whole
number, the clamp and the cast are exact. All other numbers have a score from 0 to 100 too, and
numbers in order have scores in order, infinities included (`scoreOf_rounds`).
-/

namespace NodeRanking

open Binary64

attribute [local irreducible] Binary64.one Binary64.limit

/-- Rounding a quotient with a half going up is rounding to the nearest whole number. -/
theorem roundHalfUp_eq_round (num : ℕ) {den : ℕ} (hden : 0 < den) :
    ((roundHalfUp num den : ℕ) : ℤ) = round (num / den : ℚ) := by
  have hne : (den : ℚ) ≠ 0 := Nat.cast_ne_zero.2 hden.ne'
  have hhalf : (num / den : ℚ) + 1 / 2 = ((2 * num + den : ℕ) : ℚ) / (2 * den : ℕ) := by
    push_cast
    field_simp
  rw [round_eq, hhalf, Rat.floor_natCast_div_natCast]
  rfl

section Order

variable {c c' : Binary64}

/-- Numbers in order have scores in order: each stage keeps the order. -/
theorem scoreOf_le_of_le (h : c ≤ c') : scoreOf c ≤ scoreOf c' := by
  have hpos : 0 < (Binary64.ofNat topScore).place := by
    rw [(unsigned_ofNat topScore).place_eq, height_topScore]
    exact_mod_cast Nat.mul_pos (by decide) Binary64.one_pos
  have hbounds : 0 ≤ Binary64.ofNat topScore := by
    rw [le_iff, place_ofNat_zero]
    exact ⟨unsigned_zero.1, (unsigned_ofNat topScore).1, hpos.le⟩
  have hproduct := mul_le_mul_right isFinite_topScore hpos h
  exact Int.ofNat_le.2 (toNat_mono (clamp_mono hbounds (round_mono hproduct)) topScore)

/-- Numbers at one place have one score, whatever the sign of a zero. -/
theorem scoreOf_congr (hc : c ≠ .nan) (hc' : c' ≠ .nan) (h : c.place = c'.place) :
    scoreOf c = scoreOf c' :=
  le_antisymm (scoreOf_le_of_le (le_iff.2 ⟨hc, hc', h.le⟩))
    (scoreOf_le_of_le (le_iff.2 ⟨hc', hc, h.ge⟩))

end Order

/-- From 0 to 1 the score is the product in hundredths, rounded. -/
theorem scoreOf_eq_round {c : Binary64} (h0 : 0 ≤ c) (h1 : c ≤ 1) :
    (c * Binary64.ofNat topScore).isFinite = true ∧
      scoreOf c = round (c * Binary64.ofNat topScore).value := by
  obtain ⟨-, hnan, hplace⟩ := le_iff.1 h0
  rw [place_ofNat_zero] at hplace
  have hle : c.abs.height ≤ one := by
    rw [height_abs, ← height_ofNat_one]
    exact height_le_of_le hplace h1
  -- a zero may have a minus sign, so the number is replaced by the one without its sign
  have habs := unsigned_abs hnan
  have hsame : c.place = c.abs.place := by
    rw [habs.place_eq, height_abs]
    exact (Int.natAbs_of_nonneg hplace).symm
  have hfin : c.isFinite = true := isFinite_of_place_mem hnan isFinite_zero isFinite_one
    (by rwa [place_ofNat_zero]) (le_iff.1 h1).2.2
  have hfinabs : c.abs.isFinite = true := habs.isFinite_iff.2 (hle.trans_lt one_lt_limit)
  have hproduct : (c * Binary64.ofNat topScore).place =
      (c.abs * Binary64.ofNat topScore).place := by
    rw [place_mul hfin isFinite_topScore, place_mul hfinabs isFinite_topScore, hsame]
  obtain ⟨hunsigned, hfinite, hheight⟩ := height_mul_topScore habs hle
  constructor
  · have hlt := (isFinite_iff.1 hfinite).2
    rw [height, ← hproduct] at hlt
    exact isFinite_iff.2 ⟨mul_ne_nan hfin isFinite_topScore, hlt⟩
  · rw [scoreOf_congr hnan habs.1 hsame, scoreOf_eq habs hle, value, hproduct,
      hunsigned.place_eq, hheight, roundHalfUp_eq_round _ Binary64.one_pos, Int.cast_natCast]

/-- Every number has a score from 0 to 100, a NaN included, numbers in order have scores in order, and
from 0 to 1 the score is the whole number nearest to the product with 100, a half going up. -/
theorem scoreOf_rounds (c : Binary64) :
    (0 ≤ scoreOf c ∧ scoreOf c ≤ 100) ∧ (∀ d, c ≤ d → scoreOf c ≤ scoreOf d) ∧
      (0 ≤ c → c ≤ 1 → (c * 100).isFinite = true ∧ scoreOf c = round (c * 100).value) :=
  ⟨scoreOf_mem c, fun _ => scoreOf_le_of_le, scoreOf_eq_round⟩

/-- A product halfway between two whole numbers goes up. -/
theorem scoreOf_eighth :
    (0 : Binary64) ≤ 0.125 ∧ (0.125 : Binary64) ≤ 1 ∧ (0.125 : Binary64) ≤ .infinity false ∧
      (0.125 * 100 : Binary64).value = 12.5 ∧ scoreOf 0.125 = 13 ∧
      scoreOf 0.125 ≤ scoreOf (.infinity false) := by
  obtain ⟨h0, h1, hinfinity, hproduct⟩ : (0 : Binary64) ≤ 0.125 ∧ (0.125 : Binary64) ≤ 1 ∧
      (0.125 : Binary64) ≤ .infinity false ∧ 2 * (0.125 * 100 : Binary64).place = 25 * one := by
    decide +kernel
  obtain ⟨-, hmono, hround⟩ := scoreOf_rounds 0.125
  have hvalue : (0.125 * 100 : Binary64).value = 12.5 := by
    have hcast : (2 : ℚ) * (0.125 * 100 : Binary64).place = 25 * one := by exact_mod_cast hproduct
    unfold value
    rw [div_eq_iff one_cast_pos.ne']
    linarith
  refine ⟨h0, h1, hinfinity, hvalue, ?_, hmono _ hinfinity⟩
  rw [(hround h0 h1).2, hvalue]
  norm_num [round_eq]

end NodeRanking
