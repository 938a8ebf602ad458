import NodeRanking.Decimal.Basic

/-!
# The shortest decimal that reads back

For 1, 2, … 17 digits in turn, the two neighbours of the exact value on the decimal grid of that
many digits are candidates. The first grid with a candidate that reads back as the number wins; of
two candidates on it the nearer one does, and a format says which way an exact tie goes.
-/

namespace NodeRanking

/-- Which of two equally near neighbours is taken. -/
inductive Tie where
  | up
  | even
deriving DecidableEq

namespace Decimal

/-- The power of ten above a positive number of units: the number lies in
`[10 ^ (place - 1), 10 ^ place)`. Every unit is above `10 ^ -324`. -/
def place (units : Nat) : Int :=
  (Nat.toDigits 10 (units * Nat.pow 10 324 / Binary64.one)).length - 324

/-- A number of units in steps of `10 ^ exponent`, as a quotient. -/
def inSteps (units : Nat) (exponent : Int) : Nat × Nat :=
  if 0 ≤ exponent then (units, Binary64.one * Nat.pow 10 exponent.toNat)
  else (units * Nat.pow 10 (-exponent).toNat, Binary64.one)

/-- The candidate with steps of `10 ^ exponent` that reads back as these units, the nearer one if
both neighbours do. -/
def onGrid? (tie : Tie) (x : Binary64) (units : Nat) (exponent : Int) : Option Decimal :=
  let (num, den) := inSteps units exponent
  let low : Decimal := ⟨num / den, exponent⟩
  let high : Decimal := ⟨num / den + 1, exponent⟩
  let rest := num % den
  let lowReads := decide (low.toBinary64 false = x)
  let highReads := decide (0 < rest ∧ high.toBinary64 false = x)
  let preferHigh :=
    decide (den < 2 * rest) || (decide (2 * rest = den) && (tie == .up || low.digits % 2 == 1))
  if lowReads && highReads then some (if preferHigh then high else low)
  else if lowReads then some low
  else if highReads then some high
  else none

/-- The first hit on the grids of `n`, `n + 1`, … digits, at most `fuel` of them. -/
def firstOnGrids? (tie : Tie) (x : Binary64) (units : Nat) (n : Nat) : Nat → Option Decimal
  | 0 => none
  | fuel + 1 =>
    (onGrid? tie x units (place units - n)).or (firstOnGrids? tie x units (n + 1) fuel)

/-- The same number without trailing zeros among its digits. -/
def trimZeros : Nat → Decimal → Decimal
  | 0, d => d
  | fuel + 1, d =>
    if d.digits ≠ 0 ∧ d.digits % 10 = 0 then trimZeros fuel ⟨d.digits / 10, d.exponent + 1⟩ else d

/-- The exact value of a number of units. -/
def ofUnits (units : Nat) : Decimal := ⟨units * Nat.pow 5 1074, -1074⟩

/-- The shortest decimal that reads back as this number of units. Seventeen digits always do, so
the exact value is never needed. -/
def shortest (tie : Tie) (units : Nat) (h : Binary64.Representable units) : Decimal :=
  if units = 0 then ⟨0, 0⟩
  else
    trimZeros 17 <|
      (firstOnGrids? tie (.finite false units h) units 1 17).getD (ofUnits units)

end Decimal

end NodeRanking
