import NodeRanking.Decimal.Shortest

/-!
# Written numbers

1. `Layout.write` writes a number with the shortest digits that read back, in the notation that a
   format asks for: positional or with an exponent, with or without a point in whole numbers.
2. `writeFixed` writes the exact value rounded to a number of places, a half going to the even
   digit.
-/

namespace NodeRanking

namespace Decimal

/-- What a format decides about its numbers. -/
structure Layout where
  /-- The way of an exact tie between two shortest decimals. -/
  tie : Tie
  /-- Whether a whole number ends in `.0`. -/
  wholePoint : Bool
  /-- The least and the greatest number of digits before the point that are written positionally;
  without it all are. -/
  positional : Option (Int × Int)
  /-- The word for a NaN. -/
  nan : String
  /-- The words for positive and negative infinity. -/
  infinity : String × String

def digitText (n : Nat) : List Char := Nat.toDigits 10 n

/-- Positional notation: the digits with a point among, before or after them, zeros filling up. -/
def positionalText (wholePoint : Bool) (d : Decimal) : List Char :=
  let ds := digitText d.digits
  let before : Int := ds.length + d.exponent
  if 0 ≤ d.exponent then
    ds ++ List.replicate d.exponent.toNat '0' ++ (if wholePoint then ['.', '0'] else [])
  else if 0 < before then ds.take before.toNat ++ '.' :: ds.drop before.toNat
  else '0' :: '.' :: (List.replicate (-before).toNat '0' ++ ds)

/-- Notation with an exponent: one digit before the point, and a sign on every exponent. -/
def exponentText (d : Decimal) : List Char :=
  let ds := digitText d.digits
  let e : Int := ds.length + d.exponent - 1
  let mantissa :=
    match ds with
    | [] => []
    | [c] => [c]
    | c :: cs => c :: '.' :: cs
  mantissa ++ 'e' :: (if e < 0 then '-' else '+') :: digitText e.natAbs

/-- The decimal in the notation of the layout. -/
def Layout.decimalText (layout : Layout) (d : Decimal) : List Char :=
  let before : Int := (digitText d.digits).length + d.exponent
  match layout.positional with
  | none => positionalText layout.wholePoint d
  | some (low, high) =>
    if d.digits = 0 ∨ (low ≤ before ∧ before ≤ high) then positionalText layout.wholePoint d
    else exponentText d

def Layout.write (layout : Layout) : Binary64 → String
  | .nan => layout.nan
  | .infinity negative => if negative then layout.infinity.2 else layout.infinity.1
  | .finite negative units h =>
    String.ofList <|
      (if negative then ['-'] else []) ++ layout.decimalText (shortest layout.tie units h)

/-- Digits alone: whole numbers without a point, never an exponent. -/
def plain : Layout where
  tie := .up
  wholePoint := false
  positional := none
  nan := "NaN"
  infinity := ("inf", "-inf")

/-- The exact value rounded to a number of places, a half going to the even digit. -/
def writeFixed (places : Nat) : Binary64 → String
  | .nan => plain.nan
  | .infinity negative => if negative then plain.infinity.2 else plain.infinity.1
  | .finite negative units _ =>
    let ds := digitText (roundDiv (units * Nat.pow 10 places) Binary64.one)
    let padded := List.replicate (places + 1 - ds.length) '0' ++ ds
    let whole := padded.take (padded.length - places)
    let fraction := padded.drop (padded.length - places)
    String.ofList <|
      (if negative then ['-'] else []) ++ whole ++ (if places = 0 then [] else '.' :: fraction)

end Decimal

end NodeRanking
