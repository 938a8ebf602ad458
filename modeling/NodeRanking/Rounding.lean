/-!
# Rounding of exact quotients and roots

Everything a rounded operation needs from the natural numbers.

1. `roundDiv` is the whole number nearest to a quotient, a tie going to the even one
   (`roundDiv_le_of_lt`: it never passes a whole bound that the quotient stays below).
2. `roundHalfUp` is the nearest whole number with a tie going up.
3. `isqrt` is the whole part of a square root, found from above by Newton's step.
-/

namespace NodeRanking

/-- The whole number nearest to `num / den`, a tie going to the even neighbour. -/
def roundDiv (num den : Nat) : Nat :=
  let q := num / den
  let r := num % den
  if 2 * r < den then q
  else if den < 2 * r then q + 1
  else if q % 2 = 0 then q
  else q + 1

/-- The whole number nearest to `num / den`, a tie going up. -/
def roundHalfUp (num den : Nat) : Nat := (2 * num + den) / (2 * den)

theorem div_le_roundDiv (num den : Nat) : num / den ≤ roundDiv num den := by
  unfold roundDiv
  grind

theorem roundDiv_le_succ (num den : Nat) : roundDiv num den ≤ num / den + 1 := by
  unfold roundDiv
  grind

/-- Rounding stays at or below a whole bound that the quotient itself stays below. -/
theorem roundDiv_le_of_lt {num den b : Nat} (h : num < b * den) : roundDiv num den ≤ b := by
  have : num / den < b := Nat.div_lt_of_lt_mul (by rwa [Nat.mul_comm] at h)
  have := roundDiv_le_succ num den
  omega

/-- Newton's step from above: `x` shrinks to the mean of `x` and `n / x` as long as that is
smaller. The fuel bounds the number of steps. -/
def isqrtFrom (n : Nat) : Nat → Nat → Nat
  | 0, x => x
  | fuel + 1, x =>
    let y := (x + n / x) / 2
    if y < x then isqrtFrom n fuel y else x

/-- The whole part of the square root of `n`. Each step at least halves the distance to it, so
one step per binary digit of the start suffices. -/
def isqrt (n : Nat) : Nat :=
  let bits := n.log2 / 2 + 1
  isqrtFrom n (bits + 1) (Nat.pow 2 bits)

end NodeRanking
