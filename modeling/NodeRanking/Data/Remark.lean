import NodeRanking.Data.Basic
import NodeRanking.Decimal.Basic
import NodeRanking.Text.Blank

/-!
# Remarks

What is said of a fault in a document: words, and the place of the fault where it is known.

1. Words may end in a place of their own, written as `Mark.text` writes it but for zeros in front
   of the numbers. `Remark.ofWords` takes it off the words, so that no remark has two places.
2. Lines are counted from one, so a place on line zero is taken off as well, but is none.
3. `Remark.locate` gives a place to a remark that has none yet.
-/

namespace NodeRanking

namespace Mark

/-- The words between what is said and the line. -/
def beforeLine : List Char := " at line ".toList

/-- The words between the line and the column. -/
def beforeColumn : List Char := " column ".toList

/-- A place in words. -/
def text (mark : Mark) : String :=
  String.ofList
    (beforeLine ++ Nat.toDigits 10 mark.line ++ beforeColumn ++ Nat.toDigits 10 mark.column)

/-- What is in front of the number that a text ends in, and the number. It has at least one digit
and fits a word of 64 bits. -/
def splitNumber? (cs : List Char) : Option (List Char × Nat) :=
  let (digits, front) := Digits.split cs.reverse
  let n := Digits.value digits.reverse
  if digits ≠ [] ∧ n < UInt64.size then some (front.reverse, n) else none

/-- What is in front of the place that a text ends in, and the place. -/
def split? (cs : List Char) : Option (List Char × Mark) := do
  let (cs, column) ← splitNumber? cs
  let (cs, line) ← splitNumber? (← Text.dropSuffix? beforeColumn cs)
  let cs ← Text.dropSuffix? beforeLine cs
  return (cs, ⟨line, column⟩)

end Mark

/-- Words, and the place that they are about. -/
structure Remark where
  words : String
  place : Option Mark
deriving DecidableEq

namespace Remark

/-- The remark of some words, which may end in a place. -/
def ofWords (words : String) : Remark :=
  match Mark.split? words.toList with
  | some (front, mark) => ⟨String.ofList front, if mark.line = 0 then none else some mark⟩
  | none => ⟨words, none⟩

/-- The remark with a place, if it has none. -/
def locate (mark : Mark) (remark : Remark) : Remark :=
  { remark with place := remark.place.or (some mark) }

/-- The words with the place behind them. -/
def text (remark : Remark) : String := remark.words ++ (remark.place.map Mark.text).getD ""

end Remark

end NodeRanking
