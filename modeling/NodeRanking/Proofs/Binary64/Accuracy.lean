import NodeRanking.Proofs.Binary64.Operations

/-!
# The accuracy of the operations

What rounding costs, in exact fractions.

1. `Near k t x y`: either of `x` and `y` is at most the other one but for `k` roundings and an
   allowance `t`. The roundings of two steps add up (`Near.trans`), those of the terms of a sum do
   not (`Near.sum`), and an allowance that is small next to both numbers counts as one more rounding
   (`Near.absorb`).
2. A rounded quotient is near the exact one, with half a unit of allowance for the smallest numbers
   (`near_nearest`) that larger ones do not need (`near_nearest_of_le`).
3. So is the result of every operation, as long as it is finite (`near_div`, `near_square`,
   `near_mul`, `near_sqrt`). A sum of unsigned numbers needs one rounding for each term and no
   allowance at all (`near_sum`).
-/

namespace NodeRanking

/-! ## Nearness -/

/-- The part of a number that is left of it at least after one rounding. -/
def kept : ℚ := 1 - 1 / 2 ^ 53

theorem kept_pos : 0 < kept := by norm_num [kept]

theorem kept_le_one : kept ≤ 1 := by norm_num [kept]

theorem kept_pow_nonneg (k : ℕ) : 0 ≤ kept ^ k := pow_nonneg kept_pos.le k

theorem kept_pow_le_one (k : ℕ) : kept ^ k ≤ 1 := pow_le_one₀ kept_pos.le kept_le_one

/-- Many roundings cost at most as many times as much as one. -/
theorem one_sub_le_kept_pow (k : ℕ) : 1 - k / 2 ^ 53 ≤ kept ^ k := by
  have hbernoulli := one_add_mul_le_pow (show (-2 : ℚ) ≤ -(1 / 2 ^ 53) by norm_num) k
  have hkept : (1 : ℚ) + -(1 / 2 ^ 53) = kept := by rw [kept, sub_eq_add_neg]
  rw [hkept] at hbernoulli
  refine le_trans (le_of_eq ?_) hbernoulli
  ring

/-- Either number is at most the other one but for `k` roundings and the allowance `t`. -/
def Near (k : ℕ) (t x y : ℚ) : Prop := kept ^ k * x ≤ y + t ∧ kept ^ k * y ≤ x + t

namespace Near

variable {j k : ℕ} {s t x y z x' y' : ℚ}

theorem refl (k : ℕ) (ht : 0 ≤ t) (hx : 0 ≤ x) : Near k t x x := by
  have := mul_le_of_le_one_left hx (kept_pow_le_one k)
  exact ⟨by linarith, by linarith⟩

theorem symm (h : Near k t x y) : Near k t y x := ⟨h.2, h.1⟩

theorem widen (ht : 0 ≤ t) (h : Near k 0 x y) : Near k t x y := by
  have hleft := h.1
  have hright := h.2
  exact ⟨by linarith, by linarith⟩

/-- The roundings and the allowances of two steps add up. -/
theorem trans (ht : 0 ≤ t) (hs : 0 ≤ s) (h : Near j t x y) (h' : Near k s y z) :
    Near (j + k) (t + s) x z := by
  have hstep : ∀ (i : ℕ) {a b r : ℚ}, 0 ≤ r → a ≤ b + r → kept ^ i * a ≤ kept ^ i * b + r := by
    intro i a b r hr hab
    have hmul := mul_le_mul_of_nonneg_left hab (kept_pow_nonneg i)
    have hle := mul_le_of_le_one_left hr (kept_pow_le_one i)
    rw [mul_add] at hmul
    linarith
  constructor
  · calc kept ^ (j + k) * x = kept ^ k * (kept ^ j * x) := by rw [pow_add]; ring
      _ ≤ kept ^ k * y + t := hstep k ht h.1
      _ ≤ z + (t + s) := by linarith [h'.1]
  · calc kept ^ (j + k) * z = kept ^ j * (kept ^ k * z) := by rw [pow_add]; ring
      _ ≤ kept ^ j * y + s := hstep j hs h'.2
      _ ≤ x + (t + s) := by linarith [h.2]

theorem add (h : Near k t x y) (h' : Near k s x' y') : Near k (t + s) (x + x') (y + y') := by
  constructor
  · rw [mul_add]
    linarith [h.1, h'.1]
  · rw [mul_add]
    linarith [h.2, h'.2]

/-- A sum takes as many roundings as each of its terms. -/
theorem sum {ι : Type} {is : List ι} {f g : ι → ℚ} (h : ∀ i ∈ is, Near k t (f i) (g i)) :
    Near k (is.length * t) (is.map f).sum (is.map g).sum := by
  induction is with
  | nil => simp [Near]
  | cons i is ih =>
    have hcons := (h i (by simp)).add (ih fun i hi => h i (by simp [hi]))
    have hlength : t + is.length * t = (i :: is).length * t := by
      push_cast [List.length_cons]
      ring
    rwa [hlength] at hcons

theorem mul_left {c : ℚ} (hc : 0 ≤ c) (h : Near k t x y) : Near k (c * t) (c * x) (c * y) := by
  have hleft := mul_le_mul_of_nonneg_left h.1 hc
  have hright := mul_le_mul_of_nonneg_left h.2 hc
  constructor
  · linarith
  · linarith

/-- A square takes twice the roundings. -/
theorem square (h : Near k t x y) (hx : 0 ≤ x) (hy : 0 ≤ y) (hxs : 2 * x * t + t ^ 2 ≤ s)
    (hys : 2 * y * t + t ^ 2 ≤ s) : Near (k + k) s (x ^ 2) (y ^ 2) := by
  have hsq : ∀ {a b : ℚ}, 0 ≤ a → kept ^ k * a ≤ b + t →
      kept ^ (k + k) * a ^ 2 ≤ b ^ 2 + (2 * b * t + t ^ 2) := by
    intro a b ha hab
    calc kept ^ (k + k) * a ^ 2 = (kept ^ k * a) ^ 2 := by rw [pow_add]; ring
      _ ≤ (b + t) ^ 2 := pow_le_pow_left₀ (mul_nonneg (kept_pow_nonneg k) ha) hab 2
      _ = b ^ 2 + (2 * b * t + t ^ 2) := by ring
  exact ⟨(hsq hx h.1).trans (by linarith), (hsq hy h.2).trans (by linarith)⟩

/-- Without an allowance nothing has to be known of the numbers. -/
theorem square_exact (h : Near k 0 x y) (hx : 0 ≤ x) (hy : 0 ≤ y) :
    Near (k + k) 0 (x ^ 2) (y ^ 2) :=
  h.square hx hy (by simp) (by simp)

/-- Numbers up to 1 need three times the allowance. -/
theorem square_unit (h : Near k t x y) (ht : 0 ≤ t) (ht' : t ≤ 1) (hx : 0 ≤ x) (hx' : x ≤ 1)
    (hy : 0 ≤ y) (hy' : y ≤ 1) : Near (k + k) (3 * t) (x ^ 2) (y ^ 2) := by
  have hle : ∀ {a : ℚ}, a ≤ 1 → 2 * a * t + t ^ 2 ≤ 3 * t := by
    intro a ha
    have h₁ := mul_le_mul_of_nonneg_right ha ht
    have h₂ := mul_le_mul_of_nonneg_right ht' ht
    linarith
  exact h.square hx hy (hle hx') (hle hy')

/-- An allowance that is small next to both numbers counts as one more rounding. -/
theorem absorb (h : Near k t x y) (hx : 2 ^ 53 * t ≤ x) (hy : 2 ^ 53 * t ≤ y) (ht : 0 ≤ t) :
    Near (k + 1) 0 x y := by
  have hstep : ∀ {a b : ℚ}, 2 ^ 53 * t ≤ b → kept ^ k * a ≤ b + t → kept ^ (k + 1) * a ≤ b + 0 := by
    intro a b hb hab
    have hmul := mul_le_mul_of_nonneg_left hab kept_pos.le
    calc kept ^ (k + 1) * a = kept * (kept ^ k * a) := by rw [pow_succ]; ring
      _ ≤ kept * (b + t) := hmul
      _ ≤ b + 0 := by rw [kept]; linarith
  exact ⟨hstep hy h.1, hstep hx h.2⟩

/-- A number near 1 is at most about `k` times `2 ^ -53` away from it. -/
theorem abs_sub_one_le (h : Near k t x 1) (hk : (k : ℚ) ≤ 2 ^ 41) (ht : 2 ^ 53 * t ≤ 1)
    (hx : 0 ≤ x) : |x - 1| ≤ (2 * k + 2) / 2 ^ 53 := by
  have hkept := one_sub_le_kept_pow k
  have hk0 : (0 : ℚ) ≤ k := Nat.cast_nonneg k
  rw [abs_sub_le_iff]
  constructor
  · have hle : (1 - k / 2 ^ 53) * x ≤ 1 + t := (mul_le_mul_of_nonneg_right hkept hx).trans h.1
    -- the square of the loss is far below the loss itself
    have hsq : (k : ℚ) * (2 * k + 2) ≤ 2 ^ 41 * (2 * k + 2) :=
      mul_le_mul_of_nonneg_right hk (by linarith)
    by_contra hlt
    have hx1 : 1 + (2 * k + 2) / 2 ^ 53 < x := by linarith
    have hpos : (0 : ℚ) < 1 - k / 2 ^ 53 := by linarith
    have hmul := mul_lt_mul_of_pos_left hx1 hpos
    nlinarith
  · have hle := h.2
    linarith

end Near

namespace Binary64

attribute [local irreducible] one limit

/-! ## Rounded quotients -/

/-- A quotient that is not among the smallest numbers loses one rounding. -/
theorem near_nearest_of_le {num den : ℕ} (hden : 0 < den)
    (h : 2 ^ 52 * step (num / den) ≤ num / den) : Near 1 0 (nearest num den) (num / den) := by
  have hden' : (0 : ℚ) < den := Nat.cast_pos.2 hden
  obtain ⟨habove, hbelow⟩ := nearest_error num hden
  have hstep : 2 ^ 52 * (den * step (num / den)) ≤ num := by
    calc 2 ^ 52 * (den * step (num / den)) = 2 ^ 52 * step (num / den) * den := by ring
      _ ≤ num / den * den := Nat.mul_le_mul_right den h
      _ ≤ num := Nat.div_mul_le_self num den
  have habove' : (2 : ℚ) * (den * nearest num den) ≤ 2 * num + den * step (num / den) := by
    exact_mod_cast habove
  have hbelow' : (2 : ℚ) * num ≤ 2 * (den * nearest num den) + den * step (num / den) := by
    exact_mod_cast hbelow
  have hstep' : (2 : ℚ) ^ 52 * (den * step (num / den)) ≤ num := by exact_mod_cast hstep
  constructor
  · rw [pow_one, add_zero, le_div_iff₀ hden', kept]
    nlinarith
  · rw [pow_one, add_zero, ← mul_div_assoc, div_le_iff₀ hden', kept]
    nlinarith

/-- Among the smallest numbers the grid is one of whole units. -/
theorem near_nearest (num : ℕ) {den : ℕ} (hden : 0 < den) :
    Near 1 (1 / 2) (nearest num den) (num / den) := by
  by_cases h : 1 < step (num / den)
  · exact (near_nearest_of_le hden (pow_mul_step_le h)).widen (by norm_num)
  have hden' : (0 : ℚ) < den := Nat.cast_pos.2 hden
  have hstep : step (num / den) = 1 := le_antisymm (not_lt.1 h) (step_pos _)
  obtain ⟨habove, hbelow⟩ := nearest_error num hden
  rw [hstep, Nat.mul_one] at habove hbelow
  have habove' : (nearest num den : ℚ) ≤ num / den + 1 / 2 := by
    rw [← sub_le_iff_le_add, le_div_iff₀ hden']
    have : (2 : ℚ) * (den * nearest num den) ≤ 2 * num + den := by exact_mod_cast habove
    linarith
  have hbelow' : (num : ℚ) / den ≤ nearest num den + 1 / 2 := by
    rw [div_le_iff₀ hden']
    have : (2 : ℚ) * num ≤ 2 * (den * nearest num den) + den := by exact_mod_cast hbelow
    linarith
  have hkept := kept_le_one
  rw [Near, pow_one]
  exact ⟨(mul_le_of_le_one_left (Nat.cast_nonneg _) hkept).trans habove',
    (mul_le_of_le_one_left (by positivity) hkept).trans hbelow'⟩

/-- A quotient rounded past the smallest numbers is not among them. -/
theorem near_nearest_of_lt {num den : ℕ} (hden : 0 < den) (h : 2 ^ 52 < nearest num den) :
    Near 1 0 (nearest num den) (num / den) := by
  apply near_nearest_of_le hden
  by_cases hstep : 1 < step (num / den)
  · exact pow_mul_step_le hstep
  have hone : step (num / den) = 1 := le_antisymm (not_lt.1 hstep) (step_pos _)
  rw [hone, Nat.mul_one, Nat.le_div_iff_mul_le hden]
  by_contra hlt
  have := nearest_le hden (onGrid_of_le (by norm_num)) (not_le.1 hlt).le
  omega

/-- Whole numbers of units lose nothing among the smallest numbers. -/
theorem near_nearest_one (n : ℕ) : Near 1 0 (nearest n 1) n := by
  by_cases h : n ≤ 2 ^ 53
  · rw [nearest_one_of_onGrid (onGrid_of_le h)]
    exact .refl 1 le_rfl (Nat.cast_nonneg n)
  · have hstep : 1 < step n := by
      have := lt_pow_mul_step n
      omega
    have hnear : Near 1 0 (nearest n 1) (n / (1 : ℕ)) := by
      apply near_nearest_of_le Nat.one_pos
      rw [Nat.div_one]
      exact pow_mul_step_le hstep
    rwa [Nat.cast_one, div_one] at hnear

/-! ## Values -/

variable {x y z : Binary64}

/-- The exact value of a finite number. -/
def value (x : Binary64) : ℚ := x.place / one

/-- The exact value without its sign. -/
def magnitude (x : Binary64) : ℚ := x.height / one

/-- Half of the least positive number. -/
def tiny : ℚ := 1 / (2 * one)

theorem one_cast_pos : (0 : ℚ) < one := Nat.cast_pos.2 one_pos

theorem tiny_nonneg : 0 ≤ tiny := by
  unfold tiny
  positivity

theorem pow_le_one : 2 ^ 99 ≤ one := by decide +kernel

/-- Half of the least positive number is next to nothing, even a great many times. -/
theorem pow_mul_tiny_le : 2 ^ 100 * tiny ≤ 1 := by
  have hone : (2 : ℚ) ^ 99 ≤ one := by exact_mod_cast pow_le_one
  have hpos := one_cast_pos
  rw [tiny, ← mul_div_assoc, div_le_one (by positivity)]
  linarith

theorem tiny_le_one : tiny ≤ 1 := by
  have := pow_mul_tiny_le
  have := tiny_nonneg
  linarith

theorem magnitude_nonneg (x : Binary64) : 0 ≤ x.magnitude :=
  div_nonneg (Nat.cast_nonneg _) one_cast_pos.le

theorem magnitude_pos (h : 0 < x.height) : 0 < x.magnitude :=
  div_pos (Nat.cast_pos.2 h) one_cast_pos

theorem magnitude_le_magnitude (h : x.height ≤ y.height) : x.magnitude ≤ y.magnitude :=
  div_le_div_of_nonneg_right (Nat.cast_le.2 h) one_cast_pos.le

theorem magnitude_le_one (h : x.height ≤ one) : x.magnitude ≤ 1 :=
  (div_le_one one_cast_pos).2 (Nat.cast_le.2 h)

theorem one_le_magnitude (h : one ≤ x.height) : 1 ≤ x.magnitude :=
  (one_le_div one_cast_pos).2 (Nat.cast_le.2 h)

theorem sq_value (x : Binary64) : x.value ^ 2 = x.magnitude ^ 2 := by
  unfold value magnitude height
  rw [div_pow, div_pow, Nat.cast_natAbs, Int.cast_abs, sq_abs]

/-! ## Operations -/

section Rounded

variable {num den : ℕ} (hden : 0 < den) (hz : z.isFinite = true)
  (h : z.height = min (nearest num den) limit)

include hz h in
theorem height_eq_nearest : z.height = nearest num den := by
  have := (isFinite_iff.1 hz).2
  omega

include hden hz h

/-- A finite number at the place of a rounded quotient. -/
theorem near_of_height : Near 1 tiny z.magnitude (num / den / one) := by
  have hnear := (near_nearest num hden).mul_left (inv_nonneg.2 one_cast_pos.le)
  rw [← height_eq_nearest hz h] at hnear
  have hhalf : (one : ℚ)⁻¹ * (1 / 2) = tiny := by
    rw [tiny, one_div, one_div, mul_inv, mul_comm]
  rwa [hhalf, inv_mul_eq_div, inv_mul_eq_div] at hnear

theorem near_of_height_of_lt (hlt : 2 ^ 52 < z.height) :
    Near 1 0 z.magnitude (num / den / one) := by
  rw [height_eq_nearest hz h] at hlt
  have hnear := (near_nearest_of_lt hden hlt).mul_left (inv_nonneg.2 one_cast_pos.le)
  rw [← height_eq_nearest hz h] at hnear
  rwa [mul_zero, inv_mul_eq_div, inv_mul_eq_div] at hnear

end Rounded

theorem near_div (hx : x.isFinite = true) (hy : y.isFinite = true) (hu : y.Unsigned)
    (hpos : 0 < y.height) (hz : (x / y).isFinite = true) :
    Near 1 tiny (x / y).magnitude (x.magnitude / y.magnitude) := by
  have hnear := near_of_height hpos hz (height_div hx hy hu hpos)
  have hone := one_cast_pos.ne'
  have hexact : ((x.height * one : ℕ) : ℚ) / y.height / one = x.magnitude / y.magnitude := by
    unfold magnitude
    push_cast
    field_simp
  rwa [hexact] at hnear

theorem near_square (hx : x.isFinite = true) (hz : x.square.isFinite = true) :
    Near 1 tiny x.square.magnitude (x.magnitude ^ 2) := by
  have hnear := near_of_height one_pos hz (height_square hx)
  have hexact : ((x.height * x.height : ℕ) : ℚ) / one / one = x.magnitude ^ 2 := by
    unfold magnitude
    push_cast
    ring
  rwa [hexact] at hnear

/-- A product that is not among the smallest numbers. -/
theorem near_mul (hx : x.isFinite = true) (hy : y.isFinite = true) (hz : (x * y).isFinite = true)
    (hlt : 2 ^ 52 < (x * y).height) : Near 1 0 (x * y).magnitude (x.magnitude * y.magnitude) := by
  have hnear := near_of_height_of_lt one_pos hz (height_mul hx hy) hlt
  have hexact : ((x.height * y.height : ℕ) : ℚ) / one / one = x.magnitude * y.magnitude := by
    unfold magnitude
    push_cast
    ring
  rwa [hexact] at hnear

/-! ## Sums -/

theorem near_add (hx : x.Unsigned) (hy : y.Unsigned) (hz : (x + y).isFinite = true) :
    Near 1 0 (x + y).magnitude (x.magnitude + y.magnitude) := by
  have hnear := (near_nearest_one (x.height + y.height)).mul_left (inv_nonneg.2 one_cast_pos.le)
  rw [← height_eq_nearest hz (hx.height_add hy)] at hnear
  have hexact : (one : ℚ)⁻¹ * ((x.height + y.height : ℕ) : ℚ) = x.magnitude + y.magnitude := by
    unfold magnitude
    push_cast
    ring
  rwa [mul_zero, hexact, inv_mul_eq_div] at hnear

/-- One rounding for each term that is added to a start. -/
theorem near_foldl_add {xs : List Binary64} (hxs : ∀ x ∈ xs, x.Unsigned) {a : Binary64}
    (ha : a.Unsigned) (hz : (xs.foldl (· + ·) a).isFinite = true) :
    Near xs.length 0 (xs.foldl (· + ·) a).magnitude (a.magnitude + (xs.map magnitude).sum) := by
  induction xs generalizing a with
  | nil =>
    rw [List.map_nil, List.sum_nil, add_zero]
    exact .refl _ le_rfl (magnitude_nonneg a)
  | cons x xs ih =>
    rw [List.foldl_cons] at hz ⊢
    have hx := hxs x (by simp)
    have hrest : ∀ y ∈ xs, y.Unsigned := fun y hy => hxs y (by simp [hy])
    -- a sum of unsigned numbers is finite only after finite sums
    obtain ⟨hu, hle, -⟩ := foldl_add_unsigned hrest (ha.add hx)
    have hfin : (a + x).isFinite = true :=
      (ha.add hx).isFinite_iff.2 (hle.trans_lt (hu.isFinite_iff.1 hz))
    have hsum : 0 ≤ (xs.map magnitude).sum := List.sum_nonneg fun q hq => by
      obtain ⟨y, -, rfl⟩ := List.mem_map.1 hq
      exact magnitude_nonneg y
    have hstep := (near_add ha hx hfin).add (.refl 1 le_rfl hsum)
    rw [add_zero] at hstep
    have hnear := (ih hrest (ha.add hx) hz).trans le_rfl le_rfl hstep
    rwa [add_zero, add_assoc] at hnear

theorem near_sum {xs : List Binary64} (hxs : ∀ x ∈ xs, x.Unsigned)
    (hz : (sum xs).isFinite = true) :
    Near xs.length 0 (sum xs).magnitude (xs.map magnitude).sum := by
  have hnear := near_foldl_add hxs unsigned_zero hz
  have hzero : (0 : Binary64).magnitude = 0 := by
    rw [magnitude, height_ofNat_zero, Nat.cast_zero, zero_div]
  rwa [hzero, zero_add] at hnear

/-! ## Roots -/

/-- Half of the doubled root of a large number loses less than one rounding. -/
theorem near_doubledRoot {n : ℕ} (h : 2 ^ 53 ≤ n.sqrt) :
    Near 1 0 ((doubledRoot n / 2 : ℚ) ^ 2) n := by
  have hlow : n.sqrt * n.sqrt ≤ n := Nat.sqrt_le n
  have hhigh : n ≤ n.sqrt * n.sqrt + n.sqrt + n.sqrt := Nat.sqrt_le_add n
  unfold doubledRoot
  generalize n.sqrt = s at *
  have h' : (2 : ℚ) ^ 53 ≤ s := by exact_mod_cast h
  split_ifs with hexact
  · have hroot : ((2 * s + 0 : ℕ) / 2 : ℚ) ^ 2 = n := by
      rw [← hexact]
      push_cast
      ring
    rw [hroot]
    exact .refl 1 le_rfl (Nat.cast_nonneg n)
  · -- the number lies strictly between two squares, and the root is taken in the middle
    have hlow' : (s : ℚ) * s + 1 ≤ n := by exact_mod_cast Nat.lt_of_le_of_ne hlow hexact
    have hhigh' : (n : ℚ) ≤ s * s + s + s := by exact_mod_cast hhigh
    have hroot : ((2 * s + 1 : ℕ) / 2 : ℚ) ^ 2 = s * s + s + 1 / 4 := by
      push_cast
      ring
    have hs : (2 : ℚ) ^ 53 * s ≤ s * s := mul_le_mul_of_nonneg_right h' (Nat.cast_nonneg s)
    rw [hroot, Near, pow_one, add_zero, add_zero, kept]
    constructor
    · linarith
    · linarith

theorem near_sqrt (hx : x.Unsigned) (hfin : x.isFinite = true) (hone : one ≤ x.height) :
    Near 3 0 (x.sqrt.magnitude ^ 2) x.magnitude := by
  have hz : x.sqrt.isFinite = true := (isFinite_sqrt_iff hx).2 hfin
  have hlarge : 2 ^ 53 < one := by
    have := pow_le_one
    omega
  have hlt : 2 ^ 52 < x.sqrt.height := by
    have := one_le_height_sqrt hx hone
    omega
  have hround := near_of_height_of_lt Nat.two_pos hz (height_sqrt hx hfin) hlt
  have hroot : 2 ^ 53 ≤ (x.height * one).sqrt := by
    rw [Nat.le_sqrt]
    exact Nat.mul_le_mul (by omega) hlarge.le
  have hpos := one_cast_pos
  have hmiddle := (near_doubledRoot hroot).mul_left (sq_nonneg (one : ℚ)⁻¹)
  have hsquare := hround.square_exact (magnitude_nonneg _) (by positivity)
  have hleft : (one : ℚ)⁻¹ ^ 2 * (doubledRoot (x.height * one) / 2 : ℚ) ^ 2 =
      (doubledRoot (x.height * one) / (2 : ℕ) / one) ^ 2 := by
    push_cast
    ring
  have hright : (one : ℚ)⁻¹ ^ 2 * ((x.height * one : ℕ) : ℚ) = x.magnitude := by
    unfold magnitude
    push_cast
    field_simp
  rw [mul_zero, hleft, hright] at hmiddle
  have hnear := hsquare.trans le_rfl le_rfl hmiddle
  rwa [add_zero] at hnear

end Binary64

end NodeRanking
