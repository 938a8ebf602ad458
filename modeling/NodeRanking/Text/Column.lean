/-!
# Columns of a table

Texts filled up with spaces to the width of a column, counted in characters. A text that is wider
than its column is written in full.
-/

namespace NodeRanking

namespace Text

/-- The spaces that a text of this length lacks to the width. -/
def filling (width length : Nat) : String := String.ofList (List.replicate (width - length) ' ')

/-- The text at the left edge of its column. -/
def alignLeft (width : Nat) (s : String) : String := s ++ filling width s.length

/-- The text at the right edge of its column. -/
def alignRight (width : Nat) (s : String) : String := filling width s.length ++ s

/-- The texts of the columns on one line. -/
def row (cells : List String) : String := " ".intercalate cells ++ "\n"

/-- A line of dashes. -/
def rule (width : Nat) : String := String.ofList (List.replicate width '-') ++ "\n"

end Text

end NodeRanking
