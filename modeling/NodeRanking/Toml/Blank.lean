/-!
# Blanks, line ends and comments in TOML

1. A line ends in a line feed, alone or after a carriage return.
2. A comment holds no control character but the tab.
-/

namespace NodeRanking

namespace Toml

/-- Whether a character may stand between the parts of a line. -/
def isBlank (c : Char) : Bool := c = ' ' || c = '\t'

/-- What follows the blanks at the start. -/
def skipBlanks (cs : List Char) : List Char := cs.dropWhile isBlank

/-- Whether a character may stand in a comment, and outside of escapes in a text. -/
def isPrintable (c : Char) : Bool :=
  c = '\t' || (0x20 ≤ c.toNat && c.toNat ≤ 0x7e) || 0x80 ≤ c.toNat

/-- What follows a line end at the start. -/
def lineEnd? : List Char → Option (List Char)
  | '\n' :: cs => some cs
  | '\r' :: '\n' :: cs => some cs
  | _ => none

/-- What follows the blanks, line ends and comments at the start; `inComment` says that a comment
has begun. -/
def skipTrivia (inComment : Bool) : List Char → Option (List Char)
  | [] => some []
  | '\r' :: '\n' :: cs => skipTrivia false cs
  | c :: cs =>
    if c = '\n' then skipTrivia false cs
    else if inComment then (if isPrintable c then skipTrivia true cs else none)
    else if isBlank c then skipTrivia false cs
    else if c = '#' then skipTrivia true cs
    else some (c :: cs)

/-- What follows the rest of a line on which nothing but a comment may stand. -/
def finishLine (cs : List Char) : Option (List Char) :=
  match skipBlanks cs with
  | [] => some []
  | '#' :: cs => skipTrivia true cs
  | cs => lineEnd? cs

end Toml

end NodeRanking
