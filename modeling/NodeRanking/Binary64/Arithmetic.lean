import NodeRanking.Binary64.Basic
import NodeRanking.Selection

/-!
# Rounded arithmetic

Each operation is the exact one followed by one rounding (`ofRatio`); sums and products of
infinities and the signs of zeros are given by cases.

1. A sum that is exactly zero is `-0` only when both terms are.
2. The sign of a product or quotient is negative exactly when the signs of its operands differ.
3. `0 / 0`, `∞ / ∞`, `0 * ∞`, `∞ - ∞` and the root of a number below zero are NaN.
-/

namespace NodeRanking

namespace Binary64

/-! ## Sign -/

/-- The number with the other sign. -/
def neg : Binary64 → Binary64
  | .nan => .nan
  | .infinity negative => .infinity (!negative)
  | .finite negative units h => .finite (!negative) units h

/-- The number without its sign. -/
def abs : Binary64 → Binary64
  | .nan => .nan
  | .infinity _ => .infinity false
  | .finite _ units h => .finite false units h

/-! ## The four operations -/

/-- A whole number of units, rounded; `negativeZero` is the sign that a zero gets. -/
def ofUnits (negativeZero : Bool) (i : Int) : Binary64 :=
  if i = 0 then zero negativeZero else ofRatio (decide (i < 0)) i.natAbs 1

/-- The sum, rounded once. -/
def add : Binary64 → Binary64 → Binary64
  | .nan, _ => .nan
  | _, .nan => .nan
  | .infinity s, .infinity t => if s = t then .infinity s else .nan
  | .infinity s, .finite .. => .infinity s
  | .finite .., .infinity t => .infinity t
  | .finite s m _, .finite t n _ => ofUnits (s && t) (signed s m + signed t n)

/-- The difference, rounded once. -/
def sub (x y : Binary64) : Binary64 := x.add y.neg

/-- The product, rounded once. -/
def mul : Binary64 → Binary64 → Binary64
  | .nan, _ => .nan
  | _, .nan => .nan
  | .infinity s, .infinity t => .infinity (s != t)
  | .infinity s, .finite t n _ => if n = 0 then .nan else .infinity (s != t)
  | .finite s m _, .infinity t => if m = 0 then .nan else .infinity (s != t)
  | .finite s m _, .finite t n _ => ofRatio (s != t) (m * n) one

/-- The quotient, rounded once. -/
def div : Binary64 → Binary64 → Binary64
  | .nan, _ => .nan
  | _, .nan => .nan
  | .infinity _, .infinity _ => .nan
  | .infinity s, .finite t _ _ => .infinity (s != t)
  | .finite s _ _, .infinity t => zero (s != t)
  | .finite s m _, .finite t n _ =>
    if n = 0 then (if m = 0 then .nan else .infinity (s != t)) else ofRatio (s != t) (m * one) n

instance : Neg Binary64 := ⟨neg⟩

instance : Add Binary64 := ⟨add⟩

instance : Sub Binary64 := ⟨sub⟩

instance : Mul Binary64 := ⟨mul⟩

instance : Div Binary64 := ⟨div⟩

/-- The square, rounded once. -/
def square (x : Binary64) : Binary64 := x * x

/-! ## Roots and whole numbers -/

/-- The square root, rounded once. The whole part of the root of `units * one` has far more than 53
significant digits, so what lies past it only has to be told from nothing: half a unit stands for
it. -/
def sqrt : Binary64 → Binary64
  | .nan => .nan
  | .infinity negative => if negative then .nan else .infinity false
  | .finite negative units _ =>
    if units = 0 then zero negative
    else if negative then .nan
    else
      let radicand := units * one
      let root := isqrt radicand
      ofRatio false (2 * root + if root * root = radicand then 0 else 1) 2

/-- The nearest whole number, a half going away from zero. -/
def round : Binary64 → Binary64
  | .nan => .nan
  | .infinity negative => .infinity negative
  | .finite negative units _ => ofRatio negative (roundHalfUp units one * one) 1

/-- The whole part as a natural number, brought into `[0, top]`; zero for a NaN. -/
def toNat (top : Nat) : Binary64 → Nat
  | .nan => 0
  | .infinity negative => if negative then 0 else top
  | .finite negative units _ => if negative then 0 else min (units / one) top

/-! ## Choosing -/

/-- The larger of two numbers; a NaN gives way to the other one. -/
def max (x y : Binary64) : Binary64 :=
  match x, y with
  | .nan, y => y
  | x, .nan => x
  | x, y => if x < y then y else x

/-- The number brought into `[low, high]`; a NaN stays one. -/
def clamp (x low high : Binary64) : Binary64 :=
  if x < low then low else if high < x then high else x

/-! ## Sums -/

/-- The sum of a list from the left. -/
def sum (xs : List Binary64) : Binary64 := xs.foldl (· + ·) 0

/-- The sum in ascending order, which does not depend on the order of the list. -/
def sumAscending (xs : List Binary64) : Binary64 := sum (sortBy totalLe xs)

end Binary64

end NodeRanking
