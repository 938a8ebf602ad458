import NodeRanking.Binary64.Basic

/-!
# The interchange word

A number as 64 bits: one for the sign, eleven for the exponent and 52 for the fraction.

1. `toBits` writes the word; every NaN is the quiet one without a sign.
2. `ofBits` reads any word; all words with the top exponent and a fraction are NaN.
-/

namespace NodeRanking

namespace Binary64

/-- The digits of the word below the sign, for a number of units: the units themselves up to
`2 ^ 53`, and beyond that the exponent above the 53 leading digits. The leading digit carries into
the exponent. -/
def wordOfUnits (units : Nat) : Nat :=
  let shift := units.log2 - 52
  shift * Nat.pow 2 52 + units / Nat.pow 2 shift

/-- The interchange word of a number. -/
def toBits : Binary64 → UInt64
  | .nan => 0x7ff8000000000000
  | .infinity negative => if negative then 0xfff0000000000000 else 0x7ff0000000000000
  | .finite negative units _ =>
    UInt64.ofNat ((if negative then Nat.pow 2 63 else 0) + wordOfUnits units)

/-- The number of units of a finite word with this exponent and fraction. -/
def unitsOfWord (exponent fraction : Nat) : Nat :=
  if exponent = 0 then fraction else (Nat.pow 2 52 + fraction) * Nat.pow 2 (exponent - 1)

/-- The number that an interchange word stands for. -/
def ofBits (word : UInt64) : Binary64 :=
  let n := word.toNat
  let negative := decide (Nat.pow 2 63 ≤ n)
  let exponent := n / Nat.pow 2 52 % Nat.pow 2 11
  let fraction := n % Nat.pow 2 52
  if exponent = 2047 then (if fraction = 0 then .infinity negative else .nan)
  else ofRatio negative (unitsOfWord exponent fraction) 1

end Binary64

end NodeRanking
