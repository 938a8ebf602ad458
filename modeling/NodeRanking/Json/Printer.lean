import NodeRanking.Data.Basic
import NodeRanking.Decimal.Layout
import NodeRanking.Text.Hexadecimal

/-!
# Writing JSON

1. `compact` writes a value without any blank.
2. `pretty` gives every item and member a line of its own, two spaces further in for each level; an
   empty list or record stays on its line.
3. Numbers have the shortest digits that read back, positionally from `1e-5` up to below `1e16`; a
   number that is not finite is null.
-/

namespace NodeRanking

namespace Json

/-- Numbers in JSON: whole ones with a point, the even one of two equally near decimals, and an
exponent for large and small ones. -/
def numbers : Decimal.Layout where
  tie := .even
  wholePoint := true
  positional := some (-4, 16)
  nan := "null"
  infinity := ("null", "null")

/-- A character of a string as it is written. -/
def escape (c : Char) : List Char :=
  if c = '"' then ['\\', '"']
  else if c = '\\' then ['\\', '\\']
  else if c = '\x08' then ['\\', 'b']
  else if c = '\x0c' then ['\\', 'f']
  else if c = '\n' then ['\\', 'n']
  else if c = '\r' then ['\\', 'r']
  else if c = '\t' then ['\\', 't']
  else if c.toNat < 0x20 then ['\\', 'u', '0', '0'] ++ Text.byteDigits c.toNat
  else [c]

/-- A string between quotes. -/
def quote (s : String) : String := String.ofList ('"' :: (s.toList.flatMap escape ++ ['"']))

/-- A value that is neither a list nor a record. -/
def scalarText : Data → String
  | .bool b => if b then "true" else "false"
  | .integer n => toString n
  | .float x => numbers.write x
  | .text s => quote s
  | _ => "null"

/-! ## Without blanks -/

mutual

/-- A value without blanks. -/
def compact : Data → String
  | .list items => "[" ++ compactItems items ++ "]"
  | .record members => "\x7b" ++ compactMembers members ++ "\x7d"
  | .located _ value => compact value
  | .unnamed value => compact value
  | value => scalarText value

/-- Items with commas between them. -/
def compactItems : List Data → String
  | [] => ""
  | [item] => compact item
  | item :: rest => compact item ++ "," ++ compactItems rest

/-- Members with commas between them. -/
def compactMembers : List (String × Data) → String
  | [] => ""
  | [(name, value)] => quote name ++ ":" ++ compact value
  | (name, value) :: rest => quote name ++ ":" ++ compact value ++ "," ++ compactMembers rest

end

/-! ## On lines -/

/-- The start of a line at a level. -/
def newLine (level : Nat) : String := String.ofList ('\n' :: List.replicate (2 * level) ' ')

mutual

/-- A value over several lines, its own level being the first one. -/
def prettyAt (level : Nat) : Data → String
  | .list [] => "[]"
  | .list items => "[" ++ prettyItems (level + 1) items ++ newLine level ++ "]"
  | .record [] => "\x7b\x7d"
  | .record members => "\x7b" ++ prettyMembers (level + 1) members ++ newLine level ++ "\x7d"
  | .located _ value => prettyAt level value
  | .unnamed value => prettyAt level value
  | value => scalarText value

/-- Items on lines of their own. -/
def prettyItems (level : Nat) : List Data → String
  | [] => ""
  | [item] => newLine level ++ prettyAt level item
  | item :: rest => newLine level ++ prettyAt level item ++ "," ++ prettyItems level rest

/-- Members on lines of their own. -/
def prettyMembers (level : Nat) : List (String × Data) → String
  | [] => ""
  | [(name, value)] => newLine level ++ quote name ++ ": " ++ prettyAt level value
  | (name, value) :: rest =>
    newLine level ++ quote name ++ ": " ++ prettyAt level value ++ "," ++ prettyMembers level rest

end

/-- A value over several lines. -/
def pretty (value : Data) : String := prettyAt 0 value

end Json

end NodeRanking
