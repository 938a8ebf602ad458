import NodeRanking.Data.Decode
import NodeRanking.Json.Lexeme

/-!
# Reading JSON

1. `readValue` reads one value; where the text breaks off or goes wrong, the value read so far is
   kept, with `malformed` in the place of the fault, and nothing follows it.
2. Each item and member is marked with the place where its list or record is left after it.
3. `Document.decode` decodes a value before it looks at what follows it.
-/

namespace NodeRanking

namespace Json

/-- The place where a record is left: behind its closing brace, or else before the next lexeme. -/
def leaveRecord : List Lexeme → Mark
  | ⟨.closeRecord, _, stop⟩ :: _ => stop
  | ⟨_, start, _⟩ :: _ => start
  | [] => Mark.start

/-- The place where a list is left: behind its closing bracket, or else before the next lexeme; a
comma is skipped. -/
def leaveList : List Lexeme → Mark
  | ⟨.closeList, _, stop⟩ :: _ => stop
  | ⟨.comma, _, _⟩ :: ⟨_, start, _⟩ :: _ => start
  | ⟨_, start, _⟩ :: _ => start
  | [] => Mark.start

/-- What has been read, and the lexemes that follow unless there was a fault. -/
abbrev Partial (α : Type) := α × Option (List Lexeme)

mutual

/-- The value at the start of some lexemes. -/
def readValue : Nat → List Lexeme → Partial Data
  | 0, _ => (.malformed, none)
  | fuel + 1, lexemes =>
    match lexemes with
    | ⟨.scalar value, _, _⟩ :: rest => (value, some rest)
    | ⟨.string text, _, _⟩ :: rest => (text.elim .unreadable .text, some rest)
    | ⟨.openList, _, _⟩ :: ⟨.closeList, _, _⟩ :: rest => (.list [], some rest)
    | ⟨.openList, _, _⟩ :: rest =>
      let (items, rest) := readItems fuel rest
      (.list items, rest)
    | ⟨.openRecord, _, _⟩ :: ⟨.closeRecord, _, _⟩ :: rest => (.record [], some rest)
    | ⟨.openRecord, _, _⟩ :: rest =>
      let (members, rest) := readMembers fuel rest
      (.record members, rest)
    | _ => (.malformed, none)

/-- The items of a list that is not empty, up to its closing bracket. -/
def readItems : Nat → List Lexeme → Partial (List Data)
  | 0, _ => ([.malformed], none)
  | fuel + 1, lexemes =>
    match readValue fuel lexemes with
    | (value, none) => ([value], none)
    | (value, some rest) =>
      let item := Data.located (leaveList rest) value
      match rest with
      | ⟨.comma, _, _⟩ :: rest =>
        let (items, rest) := readItems fuel rest
        (item :: items, rest)
      | ⟨.closeList, _, _⟩ :: rest => ([item], some rest)
      | _ => ([item, .malformed], none)

/-- The members of a record that is not empty, up to its closing brace. -/
def readMembers : Nat → List Lexeme → Partial (List (String × Data))
  | 0, _ => ([("", .malformed)], none)
  | fuel + 1, lexemes =>
    match lexemes with
    | ⟨.string name, _, _⟩ :: ⟨.colon, _, _⟩ :: rest =>
      let member (value : Data) : String × Data :=
        name.elim ("", .unnamed value) fun name => (name, value)
      match readValue fuel rest with
      | (value, none) => ([member value], none)
      | (value, some rest) =>
        let value := Data.located (leaveRecord rest) value
        match rest with
        | ⟨.comma, _, _⟩ :: rest =>
          let (members, rest) := readMembers fuel rest
          (member value :: members, rest)
        | ⟨.closeRecord, _, _⟩ :: rest => ([member value], some rest)
        | _ => ([member value, ("", .malformed)], none)
    | _ => ([("", .malformed)], none)

end

/-- A document: its value, and whether nothing but blanks follows it. -/
structure Document where
  value : Data
  complete : Bool

/-- The document of a text. A lexeme is read in at most two steps. -/
def Document.ofText (s : String) : Document :=
  let lexemes := lex s
  match readValue (2 * lexemes.length) lexemes with
  | (value, some [⟨.finish, _, _⟩]) => ⟨value, true⟩
  | (value, _) => ⟨value, false⟩

/-- A document decoded; what follows its value is looked at last. -/
def Document.decode {α : Type} (read : Data → Data.Decoded α) (document : Document) :
    Data.Decoded α := do
  let result ← read document.value
  if document.complete then return result else .error .shape

end Json

end NodeRanking
