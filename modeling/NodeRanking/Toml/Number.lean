import NodeRanking.Data.Basic
import NodeRanking.Decimal.Literal
import NodeRanking.Toml.Text

/-!
# Numbers in TOML

1. Digits may be divided by single underscores.
2. Whole numbers have 64 bits with a sign; hexadecimal, octal and binary ones have no written sign.
3. A binary number has a fraction or an exponent. One past the largest positive number is refused.
-/

namespace NodeRanking

namespace Toml

/-- More digits of a run, each after an underscore or not, and what follows. -/
def moreDigits (isDigit : Char → Bool) : List Char → List Char × List Char
  | '_' :: c :: cs =>
    if isDigit c then
      let (ds, rest) := moreDigits isDigit cs
      (c :: ds, rest)
    else ([], '_' :: c :: cs)
  | c :: cs =>
    if isDigit c then
      let (ds, rest) := moreDigits isDigit cs
      (c :: ds, rest)
    else ([], c :: cs)
  | [] => ([], [])

/-- A run of at least one digit, without its underscores. -/
def digits? (isDigit : Char → Bool) : List Char → Option (List Char × List Char)
  | c :: cs =>
    if isDigit c then
      let (ds, rest) := moreDigits isDigit cs
      some (c :: ds, rest)
    else none
  | [] => none

/-- A decimal whole number: its sign as written and its digits, of which the first is a zero only
if it is the only one. -/
def decimal? (cs : List Char) : Option ((List Char × List Char) × List Char) :=
  let (sign, cs) := match cs with
    | '-' :: cs => (['-'], cs)
    | '+' :: cs => (['+'], cs)
    | cs => ([], cs)
  match cs with
  | '0' :: cs => some ((sign, ['0']), cs)
  | cs => (digits? Digits.isDigit cs).map fun (ds, rest) => ((sign, ds), rest)

/-! ## Whole numbers -/

/-- Whether a number has 64 bits with a sign. -/
def fits (n : Int) : Bool := -9223372036854775808 ≤ n && n ≤ 9223372036854775807

/-- A whole number with a radix other than ten, after the mark of its radix. -/
def radix? (radix : Nat) (cs : List Char) : Option (Int × List Char) := do
  let isDigit (c : Char) : Bool := (Text.hexDigit? c).any (· < radix)
  let (ds, rest) ← digits? isDigit cs
  let n : Nat := ds.foldl (fun n c => radix * n + (Text.hexDigit? c).getD 0) 0
  guard (fits n)
  return (n, rest)

def integer? : List Char → Option (Int × List Char)
  | '0' :: 'x' :: cs => radix? 16 cs
  | '0' :: 'o' :: cs => radix? 8 cs
  | '0' :: 'b' :: cs => radix? 2 cs
  | cs => do
    let ((sign, ds), rest) ← decimal? cs
    let n : Int := if sign = ['-'] then -(Digits.value ds : Int) else Digits.value ds
    guard (fits n)
    return (n, rest)

/-! ## Binary numbers -/

/-- A fraction as written without underscores, point included. -/
def fraction? : List Char → Option (List Char × List Char)
  | '.' :: cs => (digits? Digits.isDigit cs).map fun (ds, rest) => ('.' :: ds, rest)
  | _ => none

/-- An exponent as written without underscores, its letter and sign included. -/
def exponent? : List Char → Option (List Char × List Char)
  | c :: cs =>
    if c = 'e' ∨ c = 'E' then
      let (sign, cs) := match cs with
        | '-' :: cs => (['-'], cs)
        | '+' :: cs => (['+'], cs)
        | cs => ([], cs)
      (digits? Digits.isDigit cs).map fun (ds, rest) => ('e' :: (sign ++ ds), rest)
    else none
  | [] => none

/-- A fraction, an exponent or both, as written without underscores. -/
def tail? (cs : List Char) : Option (List Char × List Char) :=
  match fraction? cs with
  | some (fraction, rest) =>
    match exponent? rest with
    | some (exponent, rest) => some (fraction ++ exponent, rest)
    | none => some (fraction, rest)
  | none => exponent? cs

/-- The words for infinity and NaN, with an optional sign. -/
def special? (cs : List Char) : Option (Binary64 × List Char) :=
  let (negative, cs) := Decimal.splitSign cs
  match cs with
  | 'i' :: 'n' :: 'f' :: rest => some (.infinity negative, rest)
  | 'n' :: 'a' :: 'n' :: rest => some (.nan, rest)
  | _ => none

def float? (cs : List Char) : Option (Binary64 × List Char) :=
  match decimal? cs with
  | none => special? cs
  | some ((sign, ds), rest) => do
    let (tail, rest) ← tail? rest
    let x ← Binary64.ofLiteral? (sign ++ ds ++ tail)
    guard (x ≠ .infinity false)
    return (x, rest)

end Toml

end NodeRanking
