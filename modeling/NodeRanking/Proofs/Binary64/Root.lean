import Mathlib
import NodeRanking.Binary64.Arithmetic

/-!
# Whole roots

1. Newton's steps from above end at the whole part of the root (`isqrt_eq_sqrt`): each one stays at
   or above it and at least halves the distance.
2. `doubledRoot` is what a rounded root looks at, twice the whole part of the root with one more for
   what lies past it; it keeps the order (`doubledRoot_mono`).
-/

namespace NodeRanking

/-! ## Newton's step -/

/-- The step stays at or above the root. -/
theorem sqrt_le_newton {n x : ℕ} (hx : 0 < x) : n.sqrt ≤ (x + n / x) / 2 := by
  have hdiv : 2 * n.sqrt - x ≤ n / x := by
    rw [Nat.le_div_iff_mul_le hx]
    have hsq : n.sqrt * n.sqrt ≤ n := Nat.sqrt_le n
    rcases Nat.le_total (2 * n.sqrt) x with h | h
    · simp [Nat.sub_eq_zero_of_le h]
    · obtain ⟨d, hd⟩ := Nat.exists_eq_add_of_le h
      rw [hd, Nat.add_sub_cancel_left]
      nlinarith [sq_nonneg ((x : ℤ) - d)]
  omega

/-- A step from above the root at least halves the distance to it. -/
theorem newton_le {n x : ℕ} (hx : n.sqrt < x) : (x + n / x) / 2 ≤ (x + n.sqrt) / 2 := by
  have : n / x ≤ n.sqrt := by
    rw [← Nat.lt_succ_iff, Nat.div_lt_iff_lt_mul (by omega)]
    calc n < (n.sqrt + 1) * (n.sqrt + 1) := Nat.lt_succ_sqrt n
      _ ≤ (n.sqrt + 1) * x := Nat.mul_le_mul_left _ hx
  omega

theorem isqrtFrom_eq_sqrt {n fuel x : ℕ} (hx : n.sqrt ≤ x) (hfuel : x - n.sqrt < 2 ^ fuel) :
    isqrtFrom n fuel x = n.sqrt := by
  induction fuel generalizing x with
  | zero =>
    rw [isqrtFrom]
    omega
  | succ fuel ih =>
    rw [isqrtFrom]
    rcases hx.eq_or_lt with heq | hlt
    · have : ¬ (x + n / x) / 2 < x := by
        rcases Nat.eq_zero_or_pos x with rfl | hpos
        · exact Nat.not_lt_zero _
        · have := sqrt_le_newton (n := n) hpos
          omega
      rw [if_neg this, heq]
    · have hlow := sqrt_le_newton (n := n) (show 0 < x by omega)
      have hhigh := newton_le hlt
      rw [pow_succ] at hfuel
      rw [if_pos (by omega)]
      exact ih hlow (by omega)

/-- Newton's steps find the whole part of the root. -/
theorem isqrt_eq_sqrt (n : ℕ) : isqrt n = n.sqrt := by
  have hstart : n.sqrt < 2 ^ (n.log2 / 2 + 1) := by
    rw [Nat.sqrt_lt', ← pow_mul]
    calc n < 2 ^ (n.log2 + 1) := Nat.lt_log2_self
      _ ≤ 2 ^ ((n.log2 / 2 + 1) * 2) := Nat.pow_le_pow_right (by norm_num) (by omega)
  refine isqrtFrom_eq_sqrt hstart.le ?_
  rw [pow_succ]
  simp only [Nat.pow_eq]
  omega

/-! ## Twice the root -/

/-- Twice the whole part of the root, and one more if the root is not whole. -/
def doubledRoot (n : ℕ) : ℕ := 2 * n.sqrt + if n.sqrt * n.sqrt = n then 0 else 1

theorem doubledRoot_mono {m n : ℕ} (h : m ≤ n) : doubledRoot m ≤ doubledRoot n := by
  unfold doubledRoot
  rcases (Nat.sqrt_le_sqrt h).lt_or_eq with hlt | heq
  · split_ifs <;> omega
  · have := Nat.sqrt_le m
    rw [heq] at this ⊢
    split_ifs <;> omega

theorem doubledRoot_mul_self (n : ℕ) : doubledRoot (n * n) = 2 * n := by
  simp [doubledRoot, Nat.sqrt_eq]

end NodeRanking
