import NodeRanking.Toml.Statement

/-!
# Documents of TOML

The statements of a document, one after the other, build its table. A header opens a table, which
must be new or have been made by the header of a table in it only; the assignments after it go
into that table.
-/

namespace NodeRanking

namespace Toml

/-- What a header of one table makes of what its name stands for. -/
def openTable : Option Item → Option Item
  | none => some (.table .header [])
  | some (.table .parent members) => some (.table .header members)
  | some _ => none

/-- What a header of one more table in a list makes of what its name stands for. -/
def openTables : Option Item → Option Item
  | none => some (.tables [[]])
  | some (.tables tables) => some (.tables (tables ++ [[]]))
  | some _ => none

/-- The members at a path that a header has opened, changed. -/
def Members.within (change : Members → Option Members) :
    List String → Members → Option Members
  | [], members => change members
  | name :: path, members =>
    match members.find? name with
    | some (.table origin inner) => do
      let inner ← within change path inner
      return members.put name (.table origin inner)
    | some (.tables tables) => do
      let tables ← changeLast (within change path) tables
      return members.put name (.tables tables)
    | _ => none

/-- One statement: the path of the current table and the whole table, before and after it. -/
def Statement.apply (state : List String × Members) : Statement → Option (List String × Members)
  | .table path => (state.2.header openTable path).map (path, ·)
  | .tables path => (state.2.header openTables path).map (path, ·)
  | .assign path value => (state.2.within (Members.assign value path) state.1).map (state.1, ·)

/-- The table that a list of statements builds. -/
def build? (statements : List Statement) : Option Members :=
  (statements.foldlM Statement.apply ([], [])).map (·.2)

/-- The record that a text stands for. A byte order mark at its start is passed over. -/
def document? (s : String) : Option Data := do
  let cs := match s.toList with
    | '\ufeff' :: cs => cs
    | cs => cs
  let statements ← statements? (cs.length + 1) cs
  let members ← build? statements
  return .record (membersData members)

end Toml

end NodeRanking
