import Mathlib
import NodeRanking.Binary64.Arithmetic

/-!
# Rounding to the grid

`nearest num den` is the quotient `num / den` on the grid of numbers with at most 53 significant
digits.

1. A grid point is its own rounding (`nearest_mul_of_onGrid`), and every rounding is a grid point
   (`onGrid_nearest`).
2. Rounding keeps the order of the quotients (`nearest_mono`), so it never passes a grid point
   (`nearest_le`, `le_nearest`).
3. It moves a quotient by at most half a step (`nearest_error`), which is at most `2 ^ -53` of a
   rounded number of units (`nearest_one_error`), and a power of two in a whole number stays in its
   rounding (`nearest_mul_pow`).
4. A quotient up to 1 that falls by at most `2 ^ -52` of itself falls by at most one `ulp` after
   rounding (`nearest_le_add_ulp`), and two that should add up to 1 miss it by three halves of one
   (`nearest_add_nearest`).
-/

namespace NodeRanking

/-! ## Quotients rounded to whole numbers -/

/-- Rounding moves a quotient by at most a half. -/
theorem roundDiv_error (num : ℕ) {den : ℕ} (hden : 0 < den) :
    2 * (den * roundDiv num den) ≤ 2 * num + den ∧
      2 * num ≤ 2 * (den * roundDiv num den) + den := by
  have h := Nat.div_add_mod num den
  have hr := Nat.mod_lt num hden
  unfold roundDiv
  dsimp only
  split_ifs <;> (try rw [Nat.mul_succ]) <;> omega

theorem roundDiv_mul_self (k : ℕ) {den : ℕ} (hden : 0 < den) : roundDiv (k * den) den = k := by
  unfold roundDiv
  rw [Nat.mul_div_cancel _ hden, Nat.mul_mod_left, if_pos (by omega)]

theorem roundHalfUp_mul_self (k : ℕ) {den : ℕ} (hden : 0 < den) : roundHalfUp (k * den) den = k := by
  unfold roundHalfUp
  have hsplit : 2 * (k * den) + den = den + 2 * den * k := by ring
  rw [hsplit, Nat.add_mul_div_left _ _ (Nat.mul_pos Nat.two_pos hden),
    Nat.div_eq_of_lt (by omega), Nat.zero_add]

theorem roundHalfUp_mono {num num' : ℕ} (den : ℕ) (h : num ≤ num') :
    roundHalfUp num den ≤ roundHalfUp num' den := Nat.div_le_div_right (by omega)

/-- Rounding never passes a whole number that the quotient stays below. -/
theorem roundHalfUp_le {num k den : ℕ} (hden : 0 < den) (h : num ≤ k * den) :
    roundHalfUp num den ≤ k :=
  (roundHalfUp_mono den h).trans_eq (roundHalfUp_mul_self k hden)

theorem roundHalfUp_error (num : ℕ) {den : ℕ} (hden : 0 < den) :
    2 * (den * roundHalfUp num den) ≤ 2 * num + den ∧
      2 * num < 2 * (den * roundHalfUp num den) + den := by
  have h := Nat.div_add_mod (2 * num + den) (2 * den)
  have hr := Nat.mod_lt (2 * num + den) (Nat.mul_pos Nat.two_pos hden)
  rw [Nat.mul_assoc] at h
  unfold roundHalfUp
  omega

/-- A common factor does not change the quotient. -/
theorem roundDiv_mul_mul_left (num den : ℕ) {k : ℕ} (hk : 0 < k) :
    roundDiv (k * num) (k * den) = roundDiv num den := by
  unfold roundDiv
  rw [Nat.mul_div_mul_left _ _ hk, Nat.mul_mod_mul_left]
  have h₁ : 2 * (k * (num % den)) < k * den ↔ 2 * (num % den) < den := by
    rw [Nat.mul_left_comm, Nat.mul_lt_mul_left hk]
  have h₂ : k * den < 2 * (k * (num % den)) ↔ den < 2 * (num % den) := by
    rw [Nat.mul_left_comm, Nat.mul_lt_mul_left hk]
  simp only [h₁, h₂]

/-- A whole multiple of the denominator, an even one, moves the rounding along. -/
theorem roundDiv_add_two_mul (num : ℕ) {den : ℕ} (hden : 0 < den) :
    roundDiv (num + 2 * den) den = roundDiv num den + 2 := by
  unfold roundDiv
  rw [Nat.add_mul_div_right _ _ hden, Nat.add_mul_mod_self_right]
  dsimp only
  rw [Nat.add_mod_right]
  split_ifs <;> rfl

theorem roundDiv_mono_left {num num' : ℕ} (den : ℕ) (h : num ≤ num') :
    roundDiv num den ≤ roundDiv num' den := by
  rcases (Nat.div_le_div_right h : num / den ≤ num' / den).lt_or_eq with hlt | heq
  · calc roundDiv num den ≤ num / den + 1 := roundDiv_le_succ num den
      _ ≤ num' / den := hlt
      _ ≤ roundDiv num' den := div_le_roundDiv num' den
  · have hr : num % den ≤ num' % den := by
      have h₁ := Nat.div_add_mod num den
      have h₂ := Nat.div_add_mod num' den
      rw [heq] at h₁
      omega
    unfold roundDiv
    dsimp only
    rw [heq]
    split_ifs <;> omega

namespace Binary64

/-! ## The grid -/

/-- A number of units with at most 53 significant digits. -/
def OnGrid (n : ℕ) : Prop := step n ∣ n

instance : DecidablePred OnGrid := fun n => inferInstanceAs (Decidable (step n ∣ n))

theorem step_eq (n : ℕ) : step n = 2 ^ (n.log2 - 52) := rfl

theorem pos_of_eq_pow {p : ℕ} (hp : ∃ k, p = Nat.pow 2 k) : 0 < p := by
  obtain ⟨k, rfl⟩ := hp
  exact pow_two_pos k

theorem one_eq_pow : ∃ k, one = Nat.pow 2 k := by
  unfold one
  exact ⟨_, rfl⟩

theorem limit_eq_pow : ∃ k, limit = Nat.pow 2 k := by
  unfold limit
  exact ⟨_, rfl⟩

theorem one_pos : 0 < one := pos_of_eq_pow one_eq_pow

theorem one_lt_limit : one < limit := by decide +kernel

theorem step_pos (n : ℕ) : 0 < step n := pow_two_pos _

theorem step_dvd_step {m n : ℕ} (h : m ≤ n) : step m ∣ step n := by
  have : m.log2 ≤ n.log2 := by
    rcases Nat.eq_zero_or_pos m with rfl | hm
    · simp
    · exact (Nat.le_log2 (by omega)).2 ((Nat.log2_self_le (by omega)).trans h)
  exact Nat.pow_dvd_pow 2 (by omega)

theorem step_le_step {m n : ℕ} (h : m ≤ n) : step m ≤ step n :=
  Nat.le_of_dvd (step_pos n) (step_dvd_step h)

theorem onGrid_zero : OnGrid 0 := Nat.dvd_zero _

/-- A power of two times a number of at most 53 digits is a grid point. -/
theorem onGrid_mul_pow {m p : ℕ} (hm : m ≤ 2 ^ 53) (hp : ∃ k, p = Nat.pow 2 k) :
    OnGrid (m * p) := by
  obtain ⟨k, rfl⟩ := hp
  exact step_dvd_mul hm

theorem onGrid_pow {p : ℕ} (hp : ∃ k, p = Nat.pow 2 k) : OnGrid p := by
  have h := onGrid_mul_pow Nat.one_le_two_pow hp
  rwa [Nat.one_mul] at h

theorem onGrid_one : OnGrid one := onGrid_pow one_eq_pow

theorem onGrid_limit : OnGrid limit := onGrid_pow limit_eq_pow

theorem onGrid_of_le {m : ℕ} (hm : m ≤ 2 ^ 53) : OnGrid m := by
  have h := onGrid_mul_pow hm ⟨0, rfl⟩
  rwa [Nat.mul_one] at h

theorem onGrid_mul_one {m : ℕ} (hm : m ≤ 2 ^ 53) : OnGrid (m * one) :=
  onGrid_mul_pow hm one_eq_pow

/-- Away from the smallest numbers a number is at least 52 binary digits longer than its step. -/
theorem pow_mul_step_le {n : ℕ} (h : 1 < step n) : 2 ^ 52 * step n ≤ n := by
  have hlog : 52 < n.log2 := by
    by_contra hle
    have : n.log2 - 52 = 0 := by omega
    rw [step_eq, this] at h
    exact absurd h (by norm_num)
  have hn : n ≠ 0 := by
    rintro rfl
    simp at hlog
  calc 2 ^ 52 * step n = 2 ^ n.log2 := by rw [step_eq, ← pow_add]; congr 1; omega
    _ ≤ n := Nat.log2_self_le hn

/-! ## Rounding -/

theorem nearest_eq (num den : ℕ) :
    nearest num den = roundDiv num (den * step (num / den)) * step (num / den) := rfl

theorem onGrid_nearest {num den : ℕ} (hden : 0 < den) : OnGrid (nearest num den) :=
  step_dvd_mul (roundDiv_step_le hden)

/-- A grid point is its own rounding. -/
theorem nearest_mul_of_onGrid {n den : ℕ} (hden : 0 < den) (hn : OnGrid n) :
    nearest (n * den) den = n := by
  obtain ⟨k, hk⟩ := hn
  have hmul : n * den = k * (den * step n) := by
    conv_lhs => rw [hk]
    ring
  rw [nearest_eq, Nat.mul_div_cancel _ hden, hmul,
    roundDiv_mul_self _ (Nat.mul_pos hden (step_pos n)), Nat.mul_comm]
  exact hk.symm

theorem nearest_one_of_onGrid {n : ℕ} (hn : OnGrid n) : nearest n 1 = n := by
  have := nearest_mul_of_onGrid Nat.one_pos hn
  rwa [Nat.mul_one] at this

@[simp] theorem nearest_zero (den : ℕ) : nearest 0 den = 0 := by
  simp [nearest_eq, roundDiv]

/-- A common factor does not change the quotient. -/
theorem nearest_mul_mul_left (num den : ℕ) {k : ℕ} (hk : 0 < k) :
    nearest (k * num) (k * den) = nearest num den := by
  simp only [nearest_eq, Nat.mul_div_mul_left _ _ hk, Nat.mul_assoc]
  rw [roundDiv_mul_mul_left _ _ hk]

theorem nearest_mono_left {num num' den : ℕ} (hden : 0 < den) (h : num ≤ num') :
    nearest num den ≤ nearest num' den := by
  have hq : num / den ≤ num' / den := Nat.div_le_div_right h
  rcases (step_le_step hq).lt_or_eq with hlt | heq
  · -- the smaller quotient rounds to at most the power of two that starts the coarser grid
    have hdouble : 2 * step (num / den) ≤ step (num' / den) := by
      obtain ⟨c, hc⟩ := step_dvd_step hq
      rcases c with _ | _ | c
      · rw [hc] at hlt; omega
      · rw [hc] at hlt; omega
      · rw [hc, Nat.mul_comm]
        exact Nat.mul_le_mul_left _ (by omega)
    have hpos := step_pos (num / den)
    have hbig : 2 ^ 52 * step (num' / den) ≤ num' / den := pow_mul_step_le (by omega)
    have hr : 2 ^ 52 ≤ roundDiv num' (den * step (num' / den)) := by
      refine le_trans ?_ (div_le_roundDiv _ _)
      rw [← Nat.div_div_eq_div_mul]
      exact (Nat.le_div_iff_mul_le (step_pos _)).2 hbig
    calc nearest num den ≤ 2 ^ 53 * step (num / den) :=
          Nat.mul_le_mul_right _ (roundDiv_step_le hden)
      _ = 2 ^ 52 * (2 * step (num / den)) := by ring
      _ ≤ 2 ^ 52 * step (num' / den) := Nat.mul_le_mul_left _ hdouble
      _ ≤ nearest num' den := Nat.mul_le_mul_right _ hr
  · rw [nearest_eq, nearest_eq, heq]
    exact Nat.mul_le_mul_right _ (roundDiv_mono_left _ h)

/-- Rounding keeps the order of quotients. -/
theorem nearest_mono {num den num' den' : ℕ} (hden : 0 < den) (hden' : 0 < den')
    (h : num * den' ≤ num' * den) : nearest num den ≤ nearest num' den' := by
  calc nearest num den = nearest (den' * num) (den' * den) := (nearest_mul_mul_left _ _ hden').symm
    _ ≤ nearest (den * num') (den' * den) :=
      nearest_mono_left (Nat.mul_pos hden' hden) (by linarith)
    _ = nearest (den * num') (den * den') := by rw [Nat.mul_comm den' den]
    _ = nearest num' den' := nearest_mul_mul_left _ _ hden

/-- Rounding does not pass a grid point from below. -/
theorem nearest_le {num den n : ℕ} (hden : 0 < den) (hn : OnGrid n) (h : num ≤ n * den) :
    nearest num den ≤ n :=
  (nearest_mono_left hden h).trans_eq (nearest_mul_of_onGrid hden hn)

/-- Rounding does not pass a grid point from above. -/
theorem le_nearest {num den n : ℕ} (hden : 0 < den) (hn : OnGrid n) (h : n * den ≤ num) :
    n ≤ nearest num den :=
  (nearest_mul_of_onGrid hden hn).symm.trans_le (nearest_mono_left hden h)

/-- Rounding moves a quotient by at most half a step. -/
theorem nearest_error (num : ℕ) {den : ℕ} (hden : 0 < den) :
    2 * (den * nearest num den) ≤ 2 * num + den * step (num / den) ∧
      2 * num ≤ 2 * (den * nearest num den) + den * step (num / den) := by
  have h := roundDiv_error num (Nat.mul_pos hden (step_pos (num / den)))
  have hmul : den * nearest num den =
      den * step (num / den) * roundDiv num (den * step (num / den)) := by
    rw [nearest_eq]
    ring
  rwa [← hmul] at h

/-- The step of a rounded number is at most `2 ^ -52` of it, away from the smallest numbers. -/
theorem pow_mul_step_le_nearest {n : ℕ} (h : 1 < step n) : 2 ^ 52 * step n ≤ nearest n 1 := by
  refine le_nearest Nat.one_pos (step_dvd_mul (by norm_num)) ?_
  rw [Nat.mul_one]
  exact pow_mul_step_le h

/-- Rounding moves a number of units by at most `2 ^ -53` of the rounded one. -/
theorem nearest_one_error (n : ℕ) :
    2 ^ 53 * nearest n 1 ≤ 2 ^ 53 * n + nearest n 1 ∧
      2 ^ 53 * n ≤ 2 ^ 53 * nearest n 1 + nearest n 1 := by
  by_cases h : 1 < step n
  · have hstep := pow_mul_step_le_nearest h
    have herr := nearest_error n Nat.one_pos
    simp only [Nat.one_mul, Nat.div_one] at herr
    omega
  · -- numbers this small are exact
    have hone : step n = 1 := le_antisymm (not_lt.1 h) (step_pos n)
    rw [nearest_one_of_onGrid (show step n ∣ n from hone ▸ one_dvd n)]
    omega

/-! ## Powers of two -/

theorem step_dvd_pow {n p : ℕ} (hp : ∃ k, p = Nat.pow 2 k) (h : n < 2 ^ 53 * p) : step n ∣ p := by
  obtain ⟨k, rfl⟩ := hp
  rcases Nat.eq_zero_or_pos n with rfl | hn
  · simp [step]
  · have : n.log2 < 53 + k := (Nat.log2_lt hn.ne').2 (h.trans_eq (pow_add 2 53 k).symm)
    exact Nat.pow_dvd_pow 2 (by omega)

theorem step_eq_pow {n p : ℕ} (hp : ∃ k, p = Nat.pow 2 k) (hlow : 2 ^ 52 * p ≤ n)
    (hhigh : n < 2 ^ 53 * p) : step n = p := by
  obtain ⟨k, rfl⟩ := hp
  have hn : n ≠ 0 := (hlow.trans_lt' (Nat.mul_pos (by norm_num) (pow_two_pos k))).ne'
  have h₁ : 52 + k ≤ n.log2 := (Nat.le_log2 hn).2 ((pow_add 2 52 k).trans_le hlow)
  have h₂ : n.log2 < 53 + k := (Nat.log2_lt hn).2 (hhigh.trans_eq (pow_add 2 53 k).symm)
  unfold step
  congr 1
  omega

theorem lt_pow_mul_step (n : ℕ) : n < 2 ^ 53 * step n := by
  calc n < 2 ^ (n.log2 + 1) := Nat.lt_log2_self
    _ ≤ 2 ^ (53 + (n.log2 - 52)) := Nat.pow_le_pow_right (by decide) (by omega)
    _ = 2 ^ 53 * step n := by rw [step_eq, pow_add]

/-- A power of two moves the grid of whole numbers along with them. -/
theorem nearest_mul_pow (n : ℕ) {p : ℕ} (hp : ∃ k, p = Nat.pow 2 k) :
    nearest (n * p) 1 = nearest n 1 * p := by
  by_cases hn : n ≤ 2 ^ 53
  · rw [nearest_one_of_onGrid (onGrid_mul_pow hn hp), nearest_one_of_onGrid (onGrid_of_le hn)]
  · have hstep : 1 < step n := by
      have hlt := lt_pow_mul_step n
      omega
    have hmul : step (n * p) = step n * p := by
      apply step_eq_pow
      · obtain ⟨k, rfl⟩ := hp
        exact ⟨_, (pow_add_two _ k).symm⟩
      · rw [← Nat.mul_assoc]
        exact Nat.mul_le_mul_right p (pow_mul_step_le hstep)
      · rw [← Nat.mul_assoc]
        exact Nat.mul_lt_mul_of_pos_right (lt_pow_mul_step n) (pos_of_eq_pow hp)
    rw [nearest_eq, nearest_eq, Nat.div_one, Nat.div_one, Nat.one_mul, Nat.one_mul, hmul,
      Nat.mul_comm n, Nat.mul_comm _ p, roundDiv_mul_mul_left _ _ (pos_of_eq_pow hp)]
    ring

theorem OnGrid.mul_pow {n p : ℕ} (hn : OnGrid n) (hp : ∃ k, p = Nat.pow 2 k) : OnGrid (n * p) := by
  rw [← nearest_one_of_onGrid hn, ← nearest_mul_pow n hp]
  exact onGrid_nearest Nat.one_pos

/-- Counting by ones stops at `2 ^ 53`, where the steps of the grid become 2. -/
theorem nearest_count (k : ℕ) : nearest (min k (2 ^ 53) + 1) 1 = min (k + 1) (2 ^ 53) := by
  by_cases hgrowing : k < 2 ^ 53
  · rw [Nat.min_eq_left hgrowing.le, Nat.min_eq_left hgrowing]
    exact nearest_one_of_onGrid (onGrid_of_le hgrowing)
  · rw [Nat.min_eq_right (not_lt.1 hgrowing),
      Nat.min_eq_right (Nat.le_succ_of_le (not_lt.1 hgrowing))]
    decide +kernel

/-! ## Quotients up to one -/

/-- The distance between 1 and the number below it, `2 ^ -53`, in units. -/
def halfUlp : ℕ := Nat.pow 2 1021

/-- The distance between 1 and the number above it, `2 ^ -52`, in units. -/
def ulp : ℕ := Nat.pow 2 1022

theorem two_mul_halfUlp : 2 * halfUlp = ulp := by decide +kernel

theorem pow_mul_ulp : 2 ^ 52 * ulp = one := by decide +kernel

theorem halfUlp_eq_pow : ∃ k, halfUlp = Nat.pow 2 k := by
  unfold halfUlp
  exact ⟨_, rfl⟩

theorem halfUlp_pos : 0 < halfUlp := pos_of_eq_pow halfUlp_eq_pow

theorem ulp_eq_pow : ∃ k, ulp = Nat.pow 2 k := by
  unfold ulp
  exact ⟨_, rfl⟩

section UpToOne

attribute [local irreducible] one limit ulp halfUlp

theorem step_le_ulp {n : ℕ} (h : n ≤ one) : step n ≤ ulp := by
  have hone := pow_mul_ulp
  have hpos := pos_of_eq_pow ulp_eq_pow
  exact Nat.le_of_dvd hpos (step_dvd_pow ulp_eq_pow (by omega))

/-- The rounded quotients of two parts by their rounded sum add up to one, but for the rounding of
each of the three, which is half an `ulp` at most. -/
theorem nearest_add_nearest {m n t : ℕ} (ht : 0 < t) (hm : m ≤ t) (hn : n ≤ t)
    (hsum : nearest (m + n) 1 = t) :
    2 * (nearest (m * one) t + nearest (n * one) t) ≤ 2 * one + 3 * ulp ∧
      2 * one ≤ 2 * (nearest (m * one) t + nearest (n * one) t) + 3 * ulp := by
  have hquotient : ∀ k ≤ t, 2 * (t * nearest (k * one) t) ≤ 2 * (k * one) + t * ulp ∧
      2 * (k * one) ≤ 2 * (t * nearest (k * one) t) + t * ulp := by
    intro k hk
    have hle : k * one / t ≤ one := Nat.div_le_of_le_mul (Nat.mul_le_mul_right one hk)
    have hstep := Nat.mul_le_mul_left t (step_le_ulp hle)
    have herr := nearest_error (k * one) ht
    omega
  obtain ⟨hm₁, hm₂⟩ := hquotient m hm
  obtain ⟨hn₁, hn₂⟩ := hquotient n hn
  -- all in multiples of the sum: one is `2 ^ 52` times as much as an `ulp`
  have hone : t * one = 2 ^ 52 * (t * ulp) := by rw [← pow_mul_ulp]; ring
  have herr := nearest_one_error (m + n)
  rw [hsum] at herr
  have hsum₁ := Nat.mul_le_mul_right one herr.1
  have hsum₂ := Nat.mul_le_mul_right one herr.2
  simp only [Nat.add_mul, Nat.mul_assoc] at hsum₁ hsum₂
  constructor
  · refine Nat.le_of_mul_le_mul_left (c := t) ?_ ht
    simp only [Nat.mul_add, Nat.mul_left_comm t]
    omega
  · refine Nat.le_of_mul_le_mul_left (c := t) ?_ ht
    simp only [Nat.mul_add, Nat.mul_left_comm t]
    omega

theorem onGrid_sub_ulp {f : ℕ} (hf : OnGrid f) (hle : f ≤ one) : OnGrid (f - ulp) := by
  have hone := pow_mul_ulp
  have hulp : step f ∣ ulp := step_dvd_pow ulp_eq_pow (by have := one_pos; omega)
  exact (step_dvd_step (Nat.sub_le f ulp)).trans (Nat.dvd_sub hf hulp)

/-- Up to 3/4 a grid point one `ulp` below the rounded quotient lies below the other quotient. -/
theorem nearest_le_add_ulp_of_le {num num' den : ℕ} (hden : 0 < den)
    (hle : 4 * num ≤ 3 * (one * den)) (h : 2 ^ 52 * num ≤ 2 ^ 52 * num' + num) :
    nearest num den ≤ nearest num' den + ulp := by
  have hone := pow_mul_ulp
  have hhalf := two_mul_halfUlp
  have hstep : step (num / den) ≤ halfUlp := by
    refine Nat.le_of_dvd halfUlp_pos (step_dvd_pow halfUlp_eq_pow ?_)
    have : num < one * den := by have := Nat.mul_pos one_pos hden; omega
    have : num / den < one := Nat.div_lt_of_lt_mul (by rwa [Nat.mul_comm] at this)
    omega
  have herr := (nearest_error num hden).1
  have hf : nearest num den ≤ one := nearest_le hden onGrid_one (by omega)
  -- in multiples of the denominator: half a step is a quarter of an ulp, and `2 ^ -52` of the
  -- quotient is at most three quarters of one
  have hbelow : (nearest num den - ulp) * den ≤ num' := by
    have h₁ : den * step (num / den) ≤ den * halfUlp := Nat.mul_le_mul_left den hstep
    have h₂ : one * den = 2 ^ 53 * (den * halfUlp) := by rw [← hone, ← hhalf]; ring
    have h₃ : ulp * den = 2 * (den * halfUlp) := by rw [← hhalf]; ring
    rw [Nat.sub_mul, h₃, Nat.mul_comm (nearest num den)]
    omega
  have := le_nearest hden (onGrid_sub_ulp (onGrid_nearest hden) hf) hbelow
  omega

/-- Between 1/2 and 1 the grid is even, and one `ulp` is two of its steps. -/
theorem nearest_le_add_ulp_of_lt {num num' den : ℕ} (hden : 0 < den) (hlt : num < one * den)
    (hlt' : num' < one * den) (hlow : one * den ≤ 2 * num) (hlow' : one * den ≤ 2 * num')
    (h : 2 ^ 52 * num ≤ 2 ^ 52 * num' + num) : nearest num den ≤ nearest num' den + ulp := by
  have hone := pow_mul_ulp
  have hhalf := two_mul_halfUlp
  have hstep : ∀ n, n < one * den → one * den ≤ 2 * n → step (n / den) = halfUlp := by
    intro n hn hn'
    apply step_eq_pow halfUlp_eq_pow
    · rw [Nat.le_div_iff_mul_le hden, Nat.mul_assoc]
      rw [← hone, ← hhalf, Nat.mul_assoc, Nat.mul_assoc] at hn'
      omega
    · rw [Nat.div_lt_iff_lt_mul hden]
      refine hn.trans_eq ?_
      rw [← hone, ← hhalf]
      ring
  rw [nearest_eq, nearest_eq, hstep num hlt hlow, hstep num' hlt' hlow', ← hhalf, ← Nat.add_mul]
  apply Nat.mul_le_mul_right
  have hpos : 0 < den * halfUlp := Nat.mul_pos hden halfUlp_pos
  rw [← roundDiv_add_two_mul num' hpos]
  apply roundDiv_mono_left
  have : one * den = 2 ^ 53 * (den * halfUlp) := by rw [← hone, ← hhalf]; ring
  omega

/-- Where a quotient up to 1 falls by at most `2 ^ -52` of itself, the rounded one falls by at most
one `ulp`. -/
theorem nearest_le_add_ulp {num num' den : ℕ} (hden : 0 < den) (hle : num ≤ one * den)
    (h : 2 ^ 52 * num ≤ 2 ^ 52 * num' + num) : nearest num den ≤ nearest num' den + ulp := by
  have hone := pow_mul_ulp
  by_cases hsmall : 4 * num ≤ 3 * (one * den)
  · exact nearest_le_add_ulp_of_le hden hsmall h
  by_cases hbig : one * den ≤ num'
  · have h₁ := nearest_le hden onGrid_one hle
    have h₂ := le_nearest hden onGrid_one hbig
    omega
  rcases hle.lt_or_eq with hlt | heq
  · exact nearest_le_add_ulp_of_lt hden hlt (by omega) (by omega) (by omega) h
  · have h₁ := nearest_le hden onGrid_one hle
    have h₂ : (one - ulp) * den ≤ num' := by
      have : one * den = 2 ^ 52 * (ulp * den) := by rw [← hone, Nat.mul_assoc]
      rw [Nat.sub_mul]
      omega
    have h₃ := le_nearest hden (onGrid_sub_ulp onGrid_one le_rfl) h₂
    omega

end UpToOne

end Binary64

end NodeRanking
