import NodeRanking.Toml.Moment
import NodeRanking.Toml.Number

/-!
# The statements of TOML

A document is a list of statements: headers, which say what table the lines after them belong to,
and assignments of a value to a key.

1. A key has at most 79 parts, and values are nested at most 79 deep (`depthLimit`).
2. A list may run over several lines and end in a comma; a table between braces may do neither.
3. The tables between braces are put together by `Members.assign`, as the lines of a document are.
-/

namespace NodeRanking

namespace Toml

/-- The greatest number of parts in a key, and the greatest depth of a value. -/
def depthLimit : Nat := 79

/-! ## Keys -/

/-- Whether a character may stand in a key without quotes. -/
def isBare (c : Char) : Bool := c.isAlphanum || c = '_' || c = '-'

/-- One part of a key. -/
def keyPart? (cs : List Char) : Option (String × List Char) :=
  match lineText? cs with
  | some part => some part
  | none =>
    let part := cs.takeWhile isBare
    if part = [] then none else some (String.ofList part, cs.dropWhile isBare)

/-- A key of at most so many parts, with points between them and blanks anywhere. -/
def keyUpTo? : Nat → List Char → Option (List String × List Char)
  | 0, _ => none
  | count + 1, cs => do
    let (part, rest) ← keyPart? (skipBlanks cs)
    match skipBlanks rest with
    | '.' :: rest =>
      let (parts, rest) ← keyUpTo? count rest
      return (part :: parts, rest)
    | rest => return ([part], rest)

def key? (cs : List Char) : Option (List String × List Char) := keyUpTo? depthLimit cs

/-! ## Tables under construction -/

/-- How a table came to be: by a header of its own, by the header of a table in it, or by the key of
an assignment. -/
inductive Origin where
  | header
  | parent
  | key
deriving DecidableEq

/-- What a key stands for in a document under construction. -/
inductive Item where
  | value (data : Data)
  | table (origin : Origin) (members : List (String × Item))
  | tables (members : List (List (String × Item)))

abbrev Members := List (String × Item)

namespace Members

def find? (name : String) (members : Members) : Option Item :=
  (List.find? (fun m => m.1 == name) members).map (·.2)

/-- The members with an item in place of the one of that name, or at the end if there is none. -/
def put (name : String) (item : Item) : Members → Members
  | [] => [(name, item)]
  | m :: rest => if m.1 = name then (name, item) :: rest else m :: put name item rest

/-- The last table of a list of tables changed. -/
def changeLast (change : Members → Option Members) (tables : List Members) :
    Option (List Members) := do
  let last ← tables.getLast?
  let last ← change last
  return tables.dropLast ++ [last]

/-- A value given to a key. The name must be new; tables on the way to it are made by keys, and the
one that the name is in must be. A table with a header of its own cannot be changed by a key. -/
def assign (value : Data) : List String → Members → Option Members
  | [], _ => none
  | [name], members =>
    if (members.find? name).isSome then none else some (members.put name (.value value))
  | name :: path, members =>
    let change (origin : Origin) (inner : Members) : Option Members := do
      let inner ← assign value path inner
      return members.put name (.table origin inner)
    let isLast : Bool := path.length == 1
    match members.find? name with
    | none => change .key []
    | some (.table .key inner) => change .key inner
    | some (.table .parent inner) => if isLast then none else change .parent inner
    | some (.table .header _) => none
    | some (.value _) => none
    | some (.tables tables) =>
      if isLast then none
      else do
        let tables ← changeLast (assign value path) tables
        return members.put name (.tables tables)

/-- The table at a path changed by a header: `final` gives the new item for what the last name
stands for. Tables on the way to it are made as parents; of a list of tables the last is meant. -/
def header (final : Option Item → Option Item) : List String → Members → Option Members
  | [], _ => none
  | [name], members => do
    let item ← final (members.find? name)
    return members.put name item
  | name :: path, members =>
    match members.find? name with
    | none => do
      let inner ← header final path []
      return members.put name (.table .parent inner)
    | some (.table origin inner) => do
      let inner ← header final path inner
      return members.put name (.table origin inner)
    | some (.tables tables) => do
      let tables ← changeLast (header final path) tables
      return members.put name (.tables tables)
    | some (.value _) => none

end Members

mutual

def Item.toData : Item → Data
  | .value data => data
  | .table _ members => .record (membersData members)
  | .tables tables => .list (tablesData tables)

def membersData : List (String × Item) → List (String × Data)
  | [] => []
  | (name, item) :: rest => (name, item.toData) :: membersData rest

def tablesData : List (List (String × Item)) → List Data
  | [] => []
  | members :: rest => .record (membersData members) :: tablesData rest

end

/-! ## Values -/

/-- A value that is neither a list nor a table. -/
def scalar? (cs : List Char) : Option (Data × List Char) :=
  match cs with
  | '"' :: _ => (text? cs).map fun (s, rest) => (.text s, rest)
  | '\'' :: _ => (text? cs).map fun (s, rest) => (.text s, rest)
  | 't' :: 'r' :: 'u' :: 'e' :: rest => some (.bool true, rest)
  | 'f' :: 'a' :: 'l' :: 's' :: 'e' :: rest => some (.bool false, rest)
  | cs =>
    match moment? cs with
    | some rest => some (.moment, rest)
    | none =>
      match float? cs with
      | some (x, rest) => some (.float x, rest)
      | none => (integer? cs).map fun (n, rest) => (.integer n, rest)

mutual

/-- A value in which so many levels of lists and tables may be nested. -/
def value? : Nat → Nat → List Char → Option (Data × List Char)
  | 0, _, _ => none
  | fuel + 1, depth, cs =>
    match cs, depth with
    | '[' :: cs, depth + 1 => do
      let (items, rest) ← items? fuel depth cs
      return (.list items, rest)
    | '\x7b' :: cs, depth + 1 =>
      match skipBlanks cs with
      | '\x7d' :: rest => some (.record [], rest)
      | cs => do
        let (members, rest) ← members? fuel depth [] cs
        return (.record (membersData members), rest)
    | cs, _ => scalar? cs

/-- The items of a list, up to its closing bracket. -/
def items? : Nat → Nat → List Char → Option (List Data × List Char)
  | 0, _, _ => none
  | fuel + 1, depth, cs => do
    match ← skipTrivia false cs with
    | ']' :: rest => return ([], rest)
    | cs =>
      let (item, rest) ← value? fuel depth cs
      match ← skipTrivia false rest with
      | ',' :: rest =>
        let (items, rest) ← items? fuel depth rest
        return (item :: items, rest)
      | ']' :: rest => return ([item], rest)
      | _ => none

/-- The members of a table between braces, added to those before them, up to the closing brace. -/
def members? : Nat → Nat → Members → List Char → Option (Members × List Char)
  | 0, _, _, _ => none
  | fuel + 1, depth, members, cs => do
    let (key, rest) ← key? cs
    let (data, rest) ← value? fuel depth (skipBlanks (← after? '=' rest))
    let members ← members.assign data key
    match skipBlanks rest with
    | ',' :: rest => members? fuel depth members rest
    | '\x7d' :: rest => return (members, rest)
    | _ => none

end

/-! ## Statements -/

inductive Statement where
  /-- The header of a table. -/
  | table (path : List String)
  /-- The header of one more table in a list of tables. -/
  | tables (path : List String)
  /-- A value given to a key of the current table. -/
  | assign (path : List String) (value : Data)

/-- The statement at the start of a text, up to the end of its line. -/
def statement? (cs : List Char) : Option (Statement × List Char) :=
  match cs with
  | '[' :: '[' :: cs => do
    let (path, rest) ← key? cs
    let rest ← finishLine (← after? ']' (← after? ']' rest))
    return (.tables path, rest)
  | '[' :: cs => do
    let (path, rest) ← key? cs
    let rest ← finishLine (← after? ']' rest)
    return (.table path, rest)
  | cs => do
    let (path, rest) ← key? cs
    let rest := skipBlanks (← after? '=' rest)
    let (data, rest) ← value? (2 * rest.length + 1) depthLimit rest
    return (.assign path data, ← finishLine rest)

def statements? : Nat → List Char → Option (List Statement)
  | 0, _ => none
  | fuel + 1, cs => do
    match ← skipTrivia false cs with
    | [] => return []
    | cs =>
      let (statement, rest) ← statement? cs
      let statements ← statements? fuel rest
      return statement :: statements

end Toml

end NodeRanking
