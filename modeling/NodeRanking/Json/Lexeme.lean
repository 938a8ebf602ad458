import NodeRanking.Json.Number
import NodeRanking.Text.Hexadecimal

/-!
# The lexemes of JSON

A text as a list of lexemes, each with the places where it starts and stops. The list ends with
`finish` at the end of the text, or with `fault` at the first character that starts no lexeme.
-/

namespace NodeRanking

namespace Json

/-- What a lexeme is. A string is without a text if it has half of a surrogate pair only. -/
inductive Token where
  | openList
  | closeList
  | openRecord
  | closeRecord
  | comma
  | colon
  | string (text : Option String)
  | scalar (value : Data)
  | finish
  | fault

/-- A token and where it stands. -/
structure Lexeme where
  token : Token
  start : Mark
  stop : Mark

/-! ## Strings -/

/-- What a string is written with: characters, and units of 16 bits by their number. -/
inductive Piece where
  | char (c : Char)
  | unit (n : Nat)

def escaped? : Char → Option Char
  | '"' => some '"'
  | '\\' => some '\\'
  | '/' => some '/'
  | 'b' => some '\x08'
  | 'f' => some '\x0c'
  | 'n' => some '\n'
  | 'r' => some '\r'
  | 't' => some '\t'
  | _ => none

/-- The pieces of a string up to the closing quote, the place after it, and what follows. -/
def scanString (mark : Mark) : List Char → Option (List Piece × Mark × List Char)
  | [] => none
  | '"' :: cs => some ([], mark.along 1, cs)
  | '\\' :: 'u' :: a :: b :: c :: d :: cs => do
    let n ← Text.hexValue? [a, b, c, d]
    let (pieces, mark, rest) ← scanString (mark.along 6) cs
    return (.unit n :: pieces, mark, rest)
  | '\\' :: e :: cs => do
    let c ← escaped? e
    let (pieces, mark, rest) ← scanString (mark.along 2) cs
    return (.char c :: pieces, mark, rest)
  | c :: cs =>
    if c.toNat < 0x20 ∨ c = '\\' then none
    else do
      let (pieces, mark, rest) ← scanString (mark.after c) cs
      return (.char c :: pieces, mark, rest)

/-- Whether a unit is the first half of a surrogate pair. -/
def isLeading (n : Nat) : Bool := 0xd800 ≤ n && n ≤ 0xdbff

/-- Whether a unit is the second half of a surrogate pair. -/
def isTrailing (n : Nat) : Bool := 0xdc00 ≤ n && n ≤ 0xdfff

/-- The characters that pieces stand for; half of a surrogate pair stands for none. -/
def join? : List Piece → Option (List Char)
  | [] => some []
  | .char c :: rest => (join? rest).map (c :: ·)
  | .unit n :: .unit m :: rest =>
    if isLeading n then
      if isTrailing m then
        let code := 0x10000 + (n - 0xd800) * 0x400 + (m - 0xdc00)
        (join? rest).map (Char.ofNat code :: ·)
      else none
    else if isTrailing n then none
    else (join? (.unit m :: rest)).map (Char.ofNat n :: ·)
  | .unit n :: rest =>
    if isLeading n || isTrailing n then none else (join? rest).map (Char.ofNat n :: ·)

/-! ## The text -/

/-- Whether a character may stand between lexemes. -/
def isSpace (c : Char) : Bool := c = ' ' || c = '\n' || c = '\t' || c = '\r'

/-- The token of a character that is a lexeme by itself. -/
def punctuation? : Char → Option Token
  | '[' => some .openList
  | ']' => some .closeList
  | '\x7b' => some .openRecord
  | '\x7d' => some .closeRecord
  | ',' => some .comma
  | ':' => some .colon
  | _ => none

/-- The words and their values. -/
def words : List (List Char × Data) :=
  [("true".toList, .bool true), ("false".toList, .bool false), ("null".toList, .null)]

/-- The token at the start of a text, the place after it, and what follows. -/
def scanToken (mark : Mark) (cs : List Char) : Option (Token × Mark × List Char) :=
  match cs with
  | [] => none
  | '"' :: rest => do
    let (pieces, stop, rest) ← scanString (mark.along 1) rest
    return (.string ((join? pieces).map String.ofList), stop, rest)
  | c :: rest =>
    match punctuation? c with
    | some token => some (token, mark.along 1, rest)
    | none =>
      match words.find? fun w => w.1.isPrefixOf cs with
      | some (word, value) => some (.scalar value, mark.along word.length, cs.drop word.length)
      | none => do
        let (number, width, rest) ← Number.scan cs
        return (.scalar number.toData, mark.along width, rest)

/-- The lexemes of a text that starts at a place. Every step takes at least one character, so the
length of the text bounds their number. -/
def lexFrom : Nat → Mark → List Char → List Lexeme
  | _, mark, [] => [⟨.finish, mark, mark⟩]
  | 0, mark, _ => [⟨.fault, mark, mark⟩]
  | fuel + 1, mark, c :: cs =>
    if isSpace c then lexFrom fuel (mark.after c) cs
    else
      match scanToken mark (c :: cs) with
      | some (token, stop, rest) => ⟨token, mark, stop⟩ :: lexFrom fuel stop rest
      | none => [⟨.fault, mark, mark⟩]

def lex (s : String) : List Lexeme := lexFrom s.length Mark.start s.toList

end Json

end NodeRanking
