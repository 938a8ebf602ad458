import NodeRanking.Decimal.Basic
import NodeRanking.Toml.Blank

/-!
# Dates and times in TOML

A date, a time of day, or a date with a time of day and perhaps an offset. The day must be one of
its month, and a minute may have a leap second. Only the extent of a moment is kept.
-/

namespace NodeRanking

namespace Toml

/-- A number of exactly `width` digits in a range. -/
def field? (width low high : Nat) (cs : List Char) : Option (Nat × List Char) := do
  let ds := cs.take width
  guard (ds.length = width ∧ ds.all Digits.isDigit)
  let n := Digits.value ds
  guard (low ≤ n ∧ n ≤ high)
  return (n, cs.drop width)

/-- What follows a character at the start. -/
def after? (c : Char) : List Char → Option (List Char)
  | d :: cs => if c = d then some cs else none
  | [] => none

/-- Whether a year has a leap day. -/
def isLeap (year : Nat) : Bool := year % 4 = 0 && (year % 100 ≠ 0 || year % 400 = 0)

def daysIn (year month : Nat) : Nat :=
  if month = 2 then (if isLeap year then 29 else 28)
  else if month = 4 ∨ month = 6 ∨ month = 9 ∨ month = 11 then 30
  else 31

/-- What follows a date at the start. -/
def date? (cs : List Char) : Option (List Char) := do
  let (year, cs) ← field? 4 0 9999 cs
  let (month, cs) ← field? 2 1 12 (← after? '-' cs)
  let (_, cs) ← field? 2 1 (daysIn year month) (← after? '-' cs)
  return cs

/-- What follows a time of day at the start. -/
def time? (cs : List Char) : Option (List Char) := do
  let (_, cs) ← field? 2 0 23 cs
  let (_, cs) ← field? 2 0 59 (← after? ':' cs)
  let (_, cs) ← field? 2 0 60 (← after? ':' cs)
  match cs with
  | '.' :: rest =>
    let (ds, rest) := Digits.split rest
    return if ds = [] then cs else rest
  | cs => return cs

/-- What follows an offset at the start; the text itself if there is none. -/
def skipOffset (cs : List Char) : List Char :=
  match cs with
  | 'Z' :: rest => rest
  | 'z' :: rest => rest
  | c :: rest =>
    if c = '+' ∨ c = '-' then
      let offset? : Option (List Char) := do
        let (_, rest) ← field? 2 0 23 rest
        let (_, rest) ← field? 2 0 59 (← after? ':' rest)
        return rest
      offset?.getD cs
    else cs
  | [] => []

/-- What follows a moment at the start. -/
def moment? (cs : List Char) : Option (List Char) :=
  match date? cs with
  | none => time? cs
  | some rest =>
    match rest with
    | c :: cs =>
      if c = 'T' ∨ c = 't' ∨ c = ' ' then some (((time? cs).map skipOffset).getD rest)
      else some rest
    | [] => some []

end Toml

end NodeRanking
