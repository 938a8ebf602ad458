import NodeRanking.Text.Hexadecimal
import NodeRanking.Toml.Blank

/-!
# Texts in TOML

Texts between double quotes have escapes, those between single quotes have none. Three quotes open
a text of several lines: a line end right after them is dropped, every other one is a line feed,
and up to two quotes may stand right before the three that close it.
-/

namespace NodeRanking

namespace Toml

/-- The character whose number is written with `width` hexadecimal digits. -/
def codePoint? (width : Nat) (cs : List Char) : Option (Char × List Char) := do
  guard (width ≤ cs.length)
  let n ← Text.hexValue? (cs.take width)
  guard (n.isValidChar)
  return (Char.ofNat n, cs.drop width)

/-- The character of an escape, after the backslash. -/
def escape? : List Char → Option (Char × List Char)
  | 'b' :: cs => some ('\x08', cs)
  | 't' :: cs => some ('\t', cs)
  | 'n' :: cs => some ('\n', cs)
  | 'f' :: cs => some ('\x0c', cs)
  | 'r' :: cs => some ('\r', cs)
  | '"' :: cs => some ('"', cs)
  | '\\' :: cs => some ('\\', cs)
  | 'u' :: cs => codePoint? 4 cs
  | 'U' :: cs => codePoint? 8 cs
  | _ => none

/-! ## One line -/

/-- A text between double quotes, after the first of them. -/
def basicLine : Nat → List Char → Option (List Char × List Char)
  | 0, _ => none
  | fuel + 1, cs =>
    match cs with
    | [] => none
    | '"' :: cs => some ([], cs)
    | '\\' :: cs => do
      let (c, cs) ← escape? cs
      let (text, rest) ← basicLine fuel cs
      return (c :: text, rest)
    | c :: cs =>
      if isPrintable c then do
        let (text, rest) ← basicLine fuel cs
        return (c :: text, rest)
      else none

/-- A text between single quotes, after the first of them. -/
def literalLine (cs : List Char) : Option (List Char × List Char) :=
  let inText (c : Char) : Bool := isPrintable c && c ≠ '\''
  match cs.dropWhile inText with
  | '\'' :: rest => some (cs.takeWhile inText, rest)
  | _ => none

/-! ## Several lines -/

/-- The quotes that belong to a text and what follows the three quotes that close it, if it closes
here. -/
def closing? (quote : Char) (cs : List Char) : Option (List Char × List Char) :=
  let run := min 5 (cs.takeWhile (· = quote)).length
  if 3 ≤ run then some (List.replicate (run - 3) quote, cs.drop run) else none

/-- What follows the blanks and line ends at the start. -/
def skipLines : List Char → List Char
  | '\r' :: '\n' :: cs => skipLines cs
  | c :: cs => if c = '\n' ∨ isBlank c then skipLines cs else c :: cs
  | [] => []

/-- What follows a line end, and the blanks and line ends after it, that a backslash takes out of
the text. -/
def continuation? (cs : List Char) : Option (List Char) := (lineEnd? (skipBlanks cs)).map skipLines

/-- A text of several lines, after the quotes that open it. -/
def lines (quote : Char) (escapes : Bool) : Nat → List Char → Option (List Char × List Char)
  | 0, _ => none
  | fuel + 1, cs =>
    match closing? quote cs, lineEnd? cs, cs with
    | some closed, _, _ => some closed
    | none, some cs, _ => do
      let (text, rest) ← lines quote escapes fuel cs
      return ('\n' :: text, rest)
    | none, none, [] => none
    | none, none, c :: cs =>
      if escapes ∧ c = '\\' then
        match continuation? cs with
        | some cs => lines quote escapes fuel cs
        | none => do
          let (c, cs) ← escape? cs
          let (text, rest) ← lines quote escapes fuel cs
          return (c :: text, rest)
      else if isPrintable c then do
        let (text, rest) ← lines quote escapes fuel cs
        return (c :: text, rest)
      else none

/-! ## All texts -/

/-- A text on one line, as it may also stand in a key. -/
def lineText? : List Char → Option (String × List Char)
  | '"' :: cs => (basicLine (cs.length + 1) cs).map fun (text, rest) => (String.ofList text, rest)
  | '\'' :: cs => (literalLine cs).map fun (text, rest) => (String.ofList text, rest)
  | _ => none

/-- A text on one or several lines. -/
def text? (cs : List Char) : Option (String × List Char) :=
  let several (quote : Char) (escapes : Bool) (cs : List Char) : Option (String × List Char) :=
    let cs := (lineEnd? cs).getD cs
    (lines quote escapes (cs.length + 1) cs).map fun (text, rest) => (String.ofList text, rest)
  match cs with
  | '"' :: '"' :: '"' :: cs => several '"' true cs
  | '\'' :: '\'' :: '\'' :: cs => several '\'' false cs
  | cs => lineText? cs

end Toml

end NodeRanking
