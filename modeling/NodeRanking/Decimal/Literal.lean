import NodeRanking.Decimal.Basic

/-!
# Decimal literals

The written form of a decimal number: an optional sign, digits with an optional point among, before
or after them, and an optional exponent of `e` or `E`, an optional sign and digits.

1. There is at least one digit before the exponent, and at least one in it.
2. Nothing else is a literal: no blank, no separator, no word for infinity or NaN.
-/

namespace NodeRanking

namespace Decimal

/-- The sign in front, if there is one, and what follows it. -/
def splitSign : List Char → Bool × List Char
  | '-' :: cs => (true, cs)
  | '+' :: cs => (false, cs)
  | cs => (false, cs)

/-- The run of digits after a point, and what follows it; without a point there is none. -/
def splitFraction : List Char → List Char × List Char
  | '.' :: cs => Digits.split cs
  | cs => ([], cs)

/-- The exponent that makes up the whole of the text; the empty text is the exponent zero. -/
def exponent? : List Char → Option Int
  | [] => some 0
  | c :: cs =>
    if c = 'e' ∨ c = 'E' then
      let (negative, ds) := splitSign cs
      if ds ≠ [] ∧ ds.all Digits.isDigit then
        some (if negative then -(Digits.value ds : Int) else Digits.value ds)
      else none
    else none

/-- The decimal without a sign that makes up the whole of the text. -/
def unsigned? (cs : List Char) : Option Decimal :=
  let (whole, rest) := Digits.split cs
  let (fraction, rest) := splitFraction rest
  if whole = [] ∧ fraction = [] then none
  else (exponent? rest).map fun e => ⟨Digits.value (whole ++ fraction), e - fraction.length⟩

/-- The sign and the decimal that make up the whole of the text. -/
def literal? (cs : List Char) : Option (Bool × Decimal) :=
  let (negative, rest) := splitSign cs
  (unsigned? rest).map (negative, ·)

end Decimal

/-- The binary number nearest to the literal that makes up the whole of the text. -/
def Binary64.ofLiteral? (cs : List Char) : Option Binary64 :=
  (Decimal.literal? cs).map fun (negative, d) => d.toBinary64 negative

end NodeRanking
