import NodeRanking.Binary64.Arithmetic
import NodeRanking.Data.Basic
import NodeRanking.Decimal.Basic

/-!
# Numbers in JSON

1. A number without fraction and exponent that fits a word of 64 bits is a whole number, with the
   exception of `-0`.
2. Any other number is a binary one. As many leading digits as fit a word of 64 bits make up its
   significand, which is then multiplied or divided by one power of ten, so the result may be a
   little off the nearest number.
3. A number beyond the finite ones is unreadable.
-/

namespace NodeRanking

namespace Json

/-- A written number; a fraction has at least one digit. -/
structure Number where
  negative : Bool
  whole : List Char
  fraction : List Char
  exponent : Option (Bool × List Char)

namespace Number

/-! ## Grammar -/

/-- The fraction at the start of a text, if there is one, and what follows. A point needs a digit
after it. -/
def scanFraction : List Char → Option (List Char × Nat × List Char)
  | '.' :: cs =>
    let (ds, rest) := Digits.split cs
    if ds = [] then none else some (ds, ds.length + 1, rest)
  | cs => some ([], 0, cs)

/-- The sign of an exponent, the number of characters it takes, and what follows. -/
def scanExponentSign : List Char → Bool × Nat × List Char
  | '-' :: cs => (true, 1, cs)
  | '+' :: cs => (false, 1, cs)
  | cs => (false, 0, cs)

/-- The exponent at the start of a text, if there is one, and what follows. -/
def scanExponent : List Char → Option (Option (Bool × List Char) × Nat × List Char)
  | c :: cs =>
    if c = 'e' ∨ c = 'E' then
      let (negative, width, cs) := scanExponentSign cs
      let (ds, rest) := Digits.split cs
      if ds = [] then none else some (some (negative, ds), width + ds.length + 1, rest)
    else some (none, 0, c :: cs)
  | [] => some (none, 0, [])

/-- The number at the start of a text, its length and what follows. A zero in front of other digits
is not allowed. -/
def scan (cs : List Char) : Option (Number × Nat × List Char) := do
  let (negative, cs) := match cs with
    | '-' :: cs => (true, cs)
    | cs => (false, cs)
  let (whole, cs) := Digits.split cs
  guard (whole ≠ [] ∧ (whole.head? = some '0' → whole.length = 1))
  let (fraction, fractionWidth, cs) ← scanFraction cs
  let (exponent, exponentWidth, cs) ← scanExponent cs
  let width := (if negative then 1 else 0) + whole.length + fractionWidth + exponentWidth
  return (⟨negative, whole, fraction, exponent⟩, width, cs)

/-! ## Value -/

/-- The largest number of 64 bits. -/
def wordTop : Nat := UInt64.size - 1

/-- A number continued by digits as long as it fits a word, and the digits that are left. -/
def absorb (n : Nat) : List Char → Nat × List Char
  | [] => (n, [])
  | c :: cs =>
    let next := 10 * n + Digits.ofChar c
    if next ≤ wordTop then absorb next cs else (n, c :: cs)

/-- The largest power of ten that is a finite number. -/
def topPower : Nat := 308

/-- The nearest number to a power of ten. -/
def powerOfTen (k : Nat) : Binary64 := Decimal.toBinary64 false ⟨1, k⟩

/-- A significand times a power of ten, each multiplication or division rounded by itself. There is
none past the finite numbers. -/
def scaled (significand : Nat) (exponent : Int) : Option Binary64 :=
  let f := Binary64.ofNat significand
  if significand = 0 then some 0
  else if topPower < exponent then none
  else if 0 ≤ exponent then
    let product := f * powerOfTen exponent.toNat
    if product.isFinite then some product else none
  else if -(topPower : Int) ≤ exponent then some (f / powerOfTen (-exponent).toNat)
  else if -(2 * topPower : Int) ≤ exponent then
    some (f / powerOfTen topPower / powerOfTen (-exponent - topPower).toNat)
  else some 0

/-- The power of ten that an exponent asks for. -/
def exponentValue : Option (Bool × List Char) → Int
  | none => 0
  | some (negative, ds) => if negative then -(Digits.value ds : Int) else Digits.value ds

/-- The value as a binary number. -/
def toFloat (n : Number) : Option Binary64 :=
  let (significand, wholeLeft) := absorb 0 n.whole
  let (significand, fractionLeft) := absorb significand n.fraction
  let absorbed : Nat := n.fraction.length - fractionLeft.length
  let magnitude :=
    scaled significand (wholeLeft.length - absorbed + exponentValue n.exponent)
  magnitude.map fun x => if n.negative then -x else x

def toData (n : Number) : Data :=
  let whole := Digits.value n.whole
  let isWhole : Bool := n.fraction = [] && n.exponent.isNone
  if isWhole ∧ !n.negative ∧ whole ≤ wordTop then .integer whole
  else if isWhole ∧ n.negative ∧ whole ≠ 0 ∧ whole ≤ UInt64.size / 2 then .integer (-whole)
  else n.toFloat.elim .unreadable .float

end Number

end Json

end NodeRanking
