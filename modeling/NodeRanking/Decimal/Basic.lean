import NodeRanking.Binary64.Basic

/-!
# Decimal numbers

A decimal is a whole number of digits times a power of ten, without a sign.

1. `Decimal.toBinary64` is the nearest binary number of its exact value: one rounding, whatever the
   number of digits.
2. `Digits.value` reads a run of digits; `Nat.toDigits 10` writes one.
-/

namespace NodeRanking

/-- The number `digits * 10 ^ exponent`. -/
structure Decimal where
  digits : Nat
  exponent : Int
deriving DecidableEq

namespace Decimal

/-- The exact value as a quotient of natural numbers. -/
def ratio (d : Decimal) : Nat × Nat :=
  if 0 ≤ d.exponent then (d.digits * Nat.pow 10 d.exponent.toNat, 1)
  else (d.digits, Nat.pow 10 (-d.exponent).toNat)

/-- An upper bound for the number of digits of `n`: three binary digits take at most one decimal
digit. -/
def digitBound (n : Nat) : Nat := n.log2 / 3 + 1

/-- The nearest binary number. A value of `10 ^ 310` or more is past the finite numbers and one
below `10 ^ -330` is nearer to zero than to the least unit, so neither needs its powers of ten. -/
def toBinary64 (negative : Bool) (d : Decimal) : Binary64 :=
  if d.digits = 0 then .zero negative
  else if 310 ≤ d.exponent then .infinity negative
  else if d.exponent + digitBound d.digits ≤ -330 then .zero negative
  else .ofRatio negative (d.ratio.1 * Binary64.one) d.ratio.2

end Decimal

/-- Decimal literals stand for the nearest binary number. -/
instance : OfScientific Binary64 where
  ofScientific digits negativeExponent exponent :=
    Decimal.toBinary64 false ⟨digits, if negativeExponent then -(exponent : Int) else exponent⟩

namespace Digits

/-- Whether a character is one of the ten digits. -/
def isDigit (c : Char) : Bool := '0' ≤ c && c ≤ '9'

def ofChar (c : Char) : Nat := c.toNat - '0'.toNat

/-- The number that a run of digits continues, most significant first. -/
def extend (start : Nat) (cs : List Char) : Nat := cs.foldl (fun n c => 10 * n + ofChar c) start

/-- The number written by a run of digits. -/
def value (cs : List Char) : Nat := extend 0 cs

/-- The leading run of digits and what follows it. -/
def split (cs : List Char) : List Char × List Char := (cs.takeWhile isDigit, cs.dropWhile isDigit)

theorem split_append (cs : List Char) : (split cs).1 ++ (split cs).2 = cs :=
  List.takeWhile_append_dropWhile

end Digits

end NodeRanking
