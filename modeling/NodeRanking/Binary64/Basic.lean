import NodeRanking.Rounding

/-!
# Binary numbers of 64 bits

Every finite number is a whole number of *units* of `2 ^ -1074`, the least positive one; the finite
ones reach up to `Binary64.limit = 2 ^ 2098` units, exclusive.

1. `Representable n`: `n` units need at most 53 significant binary digits and stay below the limit.
2. `nearest num den` rounds a quotient of units to 53 significant digits, a tie going to the even
   neighbour (`representable_nearest`), and `ofRatio` gives it a sign, or an infinity past the
   limit.
3. `order?` places every number but NaN on one line of whole numbers; all comparisons read it.

There is a single NaN: no operation of this library tells two of them apart.
-/

namespace NodeRanking

/-- The number of units in 1. -/
def Binary64.one : Nat := Nat.pow 2 1074

/-- The first power of two beyond the finite numbers, in units. -/
def Binary64.limit : Nat := Nat.pow 2 2098

/-- The distance of neighbours on the grid of 53 significant binary digits, at `n` units: one unit
as long as `n` has no more digits than that. -/
def Binary64.step (n : Nat) : Nat := Nat.pow 2 (n.log2 - 52)

/-- `n` units are a finite number: below the limit, and with at most 53 significant digits. -/
def Binary64.Representable (n : Nat) : Prop := n < Binary64.limit ∧ Binary64.step n ∣ n

instance : DecidablePred Binary64.Representable :=
  fun n => inferInstanceAs (Decidable (n < Binary64.limit ∧ Binary64.step n ∣ n))

/-- A binary number of 64 bits, NaNs taken as one. -/
inductive Binary64 where
  | nan
  | infinity (negative : Bool)
  | finite (negative : Bool) (units : Nat) (representable : Binary64.Representable units)
deriving DecidableEq

namespace Binary64

/-! ## Rounding to 53 significant digits -/

/-- `num / den` units rounded to 53 significant digits, a tie going to the even neighbour. No
upper limit is applied. -/
def nearest (num den : Nat) : Nat :=
  let step := step (num / den)
  roundDiv num (den * step) * step

theorem pow_add_two (j k : Nat) : Nat.pow 2 (j + k) = Nat.pow 2 j * Nat.pow 2 k := Nat.pow_add 2 j k

theorem pow_two_pos (k : Nat) : 0 < Nat.pow 2 k := Nat.pow_pos (by decide)

theorem step_dvd_mul {m k : Nat} (hm : m ≤ Nat.pow 2 53) :
    step (m * Nat.pow 2 k) ∣ m * Nat.pow 2 k := by
  rcases Nat.eq_zero_or_pos m with rfl | hpos
  · simp
  have hne : m * Nat.pow 2 k ≠ 0 := Nat.mul_ne_zero (by omega) (Nat.ne_of_gt (pow_two_pos k))
  rcases Nat.lt_or_eq_of_le hm with hlt | rfl
  · have h : m * Nat.pow 2 k < Nat.pow 2 (53 + k) := by
      rw [pow_add_two]
      exact Nat.mul_lt_mul_of_pos_right hlt (pow_two_pos k)
    have := (Nat.log2_lt hne).2 h
    exact Nat.dvd_trans (Nat.pow_dvd_pow 2 (by omega)) (Nat.dvd_mul_left _ _)
  · have h : (Nat.pow 2 (53 + k)).log2 = 53 + k := Nat.log2_two_pow
    rw [← pow_add_two, step, h]
    exact Nat.pow_dvd_pow 2 (by omega)

theorem roundDiv_step_le {num den : Nat} (hden : 0 < den) :
    roundDiv num (den * step (num / den)) ≤ Nat.pow 2 53 := by
  refine roundDiv_le_of_lt ?_
  have hq : num < (num / den + 1) * den := by
    rw [Nat.mul_comm]
    exact Nat.lt_mul_div_succ num hden
  have hl : num / den < Nat.pow 2 ((num / den).log2 + 1) := Nat.lt_log2_self
  have hp : Nat.pow 2 ((num / den).log2 + 1) ≤ Nat.pow 2 (53 + ((num / den).log2 - 52)) :=
    Nat.pow_le_pow_right (by omega) (by omega)
  calc num < (num / den + 1) * den := hq
    _ ≤ Nat.pow 2 (53 + ((num / den).log2 - 52)) * den := Nat.mul_le_mul_right den (by omega)
    _ = Nat.pow 2 53 * (den * step (num / den)) := by
      rw [pow_add_two, step, Nat.mul_assoc, Nat.mul_comm den]

theorem representable_nearest {num den : Nat} (hden : 0 < den) (h : nearest num den < limit) :
    Representable (nearest num den) :=
  ⟨h, step_dvd_mul (roundDiv_step_le hden)⟩

/-- `num / den` units with a sign, rounded to the nearest number; past the limit it is infinite. A
zero denominator has no quotient. -/
def ofRatio (negative : Bool) (num den : Nat) : Binary64 :=
  if hden : 0 < den then
    if h : nearest num den < limit then
      .finite negative (nearest num den) (representable_nearest hden h)
    else
      .infinity negative
  else
    .nan

theorem limit_pos : 0 < limit := by decide +kernel

/-- The zero of either sign. -/
def zero (negative : Bool) : Binary64 :=
  .finite negative 0 ⟨limit_pos, Nat.dvd_zero _⟩

/-- The number nearest to a natural number. -/
def ofNat (n : Nat) : Binary64 := ofRatio false (n * one) 1

instance (n : Nat) : OfNat Binary64 n := ⟨ofNat n⟩

/-- The number nearest to a whole number; zero has no sign. -/
def ofInt (i : Int) : Binary64 := ofRatio (decide (i < 0)) (i.natAbs * one) 1

instance : Inhabited Binary64 := ⟨zero false⟩

/-! ## Order -/

/-- The whole number of units with its sign. -/
def signed (negative : Bool) (units : Nat) : Int :=
  if negative then -(units : Int) else units

/-- The place of a number on the line: its units, with the infinities at either limit. NaN has
none. -/
def order? : Binary64 → Option Int
  | .nan => none
  | .infinity negative => some (signed negative limit)
  | .finite negative units _ => some (signed negative units)

/-- Strictly below; never so for a NaN. -/
def lt (x y : Binary64) : Bool :=
  match x.order?, y.order? with
  | some i, some j => decide (i < j)
  | _, _ => false

/-- At most; never so for a NaN. -/
def le (x y : Binary64) : Bool :=
  match x.order?, y.order? with
  | some i, some j => decide (i ≤ j)
  | _, _ => false

instance : LT Binary64 := ⟨fun x y => x.lt y = true⟩

instance : LE Binary64 := ⟨fun x y => x.le y = true⟩

instance (x y : Binary64) : Decidable (x < y) := inferInstanceAs (Decidable (x.lt y = true))

instance (x y : Binary64) : Decidable (x ≤ y) := inferInstanceAs (Decidable (x.le y = true))

/-- Whether a number carries a minus sign, zeros included. -/
def isNegative : Binary64 → Bool
  | .nan => false
  | .infinity negative => negative
  | .finite negative _ _ => negative

/-- A total order in which `-0` lies below `+0` and a NaN above everything; the sums of this
library are taken in it. -/
def totalLe (x y : Binary64) : Bool :=
  match x.order?, y.order? with
  | some i, some j => decide (i < j) || (decide (i = j) && (x.isNegative || !y.isNegative))
  | _, none => true
  | none, _ => false

/-! ## Kinds of numbers -/

/-- Neither infinite nor a NaN. -/
def isFinite : Binary64 → Bool
  | .finite .. => true
  | _ => false

/-- A zero of either sign. -/
def isZero : Binary64 → Bool
  | .finite _ units _ => units == 0
  | _ => false

/-- A finite number without a fraction. -/
def isWhole : Binary64 → Bool
  | .finite _ units _ => units % one == 0
  | _ => false

end Binary64

end NodeRanking
