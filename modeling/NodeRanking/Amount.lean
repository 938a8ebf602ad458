import NodeRanking.Binary64.Arithmetic
import NodeRanking.Decimal.Layout
import NodeRanking.Decimal.Literal
import NodeRanking.Fault
import NodeRanking.Text.Blank

/-!
# Amounts of a resource

Amounts are whole numbers of base units: thousandths of a core for the processor, bytes for memory.
They are written in two forms.

1. As text: a decimal with an optional unit (`units`). A processor amount without a unit is in
   cores, a memory amount without one in bytes. The product is rounded to a whole number, a half
   going up (`parse`).
2. As a number, which is always in base units and must be whole.
-/

namespace NodeRanking

/-- The resources that amounts are given of. -/
inductive Resource where
  | cpu
  | memory
deriving DecidableEq

namespace Amount

/-- The units of a resource with the base units in each, the empty unit last. A text is in the first
unit that it ends with. -/
def units : Resource → List (List Char × Nat)
  | .cpu => [(['m'], 1), ([], 1000)]
  | .memory =>
    [(['K', 'i'], 1024), (['M', 'i'], 1024 * 1024), (['G', 'i'], 1024 * 1024 * 1024),
      (['T', 'i'], 1024 * 1024 * 1024 * 1024), (['k'], 1000), (['K'], 1000), (['M'], 1000 * 1000),
      (['G'], 1000 * 1000 * 1000), (['T'], 1000 * 1000 * 1000 * 1000), ([], 1)]

/-- The number in front of the unit, and the base units in that unit. -/
def splitUnit? (resource : Resource) (cs : List Char) : Option (List Char × Nat) :=
  (units resource).findSome? fun (unit, size) => (Text.dropSuffix? unit cs).map (·, size)

/-- The first number that is too large for an amount. -/
def ceiling : Binary64 := Binary64.ofNat UInt64.size

/-- The whole number nearest to a number that is not negative, a half going up. Numbers above the
ceiling have none, and the ceiling itself has the largest amount. -/
def ofNumber? (x : Binary64) : Option UInt64 :=
  let whole := x.round
  if ceiling < whole then none else some (UInt64.ofNat (whole.toNat (UInt64.size - 1)))

/-- The number in front of a unit: a decimal that is finite and not below zero. -/
def numeral? (cs : List Char) : Option Binary64 :=
  (Binary64.ofLiteral? (Text.trim cs)).filter fun x => x.isFinite && Binary64.le 0 x

/-- The amount that a text stands for. -/
def ofText? (resource : Resource) (raw : String) : Option UInt64 := do
  let (cs, size) ← splitUnit? resource (Text.trim raw.toList)
  let x ← numeral? cs
  ofNumber? (x * Binary64.ofNat size)

/-- The amount that a text stands for. If it stands for none, the fault has the text as it is, blanks
included. -/
def parse (resource : Resource) (raw : String) : Except Fault UInt64 :=
  (Fault.amount raw).ofOption (ofText? resource raw)

/-- A number that is not whole, and what is to be done about it. -/
def notWhole (x : Binary64) : String :=
  Decimal.plain.write x ++ " (numbers are whole base units, use a quantity string for fractions)"

/-- The amount that a number stands for. -/
def ofNumber (x : Binary64) : Except Fault UInt64 :=
  if x.isFinite && Binary64.le 0 x && x.isWhole then
    (Fault.amount (Decimal.plain.write x)).ofOption (ofNumber? x)
  else .error (.amount (notWhole x))

/-- The amount of a resource in a document. -/
def ofData (resource : Resource) : Data → Data.Decoded UInt64
  | .integer n =>
    if 0 ≤ n ∧ n < UInt64.size then .ok (UInt64.ofNat n.toNat)
    else (ofNumber (.ofInt n)).mapError Fault.inDocument
  | .float x => (ofNumber x).mapError Fault.inDocument
  | .text raw => (parse resource raw).mapError Fault.inDocument
  | _ => .error .shape

end Amount

end NodeRanking
