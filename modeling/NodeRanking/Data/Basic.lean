import NodeRanking.Binary64.Basic

/-!
# Data

The tree that a written document stands for, whatever its format: scalars, lists and records.

1. A reader that finds a fault keeps what it has read so far and puts `malformed` in the place of
   the fault, so that what comes before it can still be looked at first.
2. `unreadable` is written in due form and can be passed over, but stands for no value.
3. `located` tells at which place of the text a list or record is left right after a member.
-/

namespace NodeRanking

/-- A place in a text: its line, counted from one, and the bytes in front of it on that line. -/
structure Mark where
  line : Nat
  column : Nat
deriving DecidableEq

namespace Mark

/-- The start of a text. -/
def start : Mark := ⟨1, 0⟩

/-- The place after a character. -/
def after (mark : Mark) (c : Char) : Mark :=
  if c = '\n' then ⟨mark.line + 1, 0⟩ else ⟨mark.line, mark.column + c.utf8Size⟩

/-- The place after some more bytes of the same line. -/
def along (mark : Mark) (bytes : Nat) : Mark := ⟨mark.line, mark.column + bytes⟩

end Mark

/-- A document, or a part of one. -/
inductive Data where
  | null
  | bool (b : Bool)
  | integer (n : Int)
  | float (x : Binary64)
  | text (s : String)
  /-- A date, a time of day, or both. -/
  | moment
  | list (items : List Data)
  | record (members : List (String × Data))
  /-- A value with the place where the list or record around it is left after it. -/
  | located (leave : Mark) (value : Data)
  /-- The value of a member whose name stands for no text. -/
  | unnamed (value : Data)
  | unreadable
  | malformed

namespace Data

mutual

/-- Whether no part is malformed. Whatever is well formed can be passed over. -/
def wellFormed : Data → Bool
  | .list items => itemsWellFormed items
  | .record members => membersWellFormed members
  | .located _ value => value.wellFormed
  | .unnamed value => value.wellFormed
  | .malformed => false
  | _ => true

/-- Whether no item of a list is malformed. -/
def itemsWellFormed : List Data → Bool
  | [] => true
  | item :: rest => item.wellFormed && itemsWellFormed rest

/-- Whether no member of a record is malformed. -/
def membersWellFormed : List (String × Data) → Bool
  | [] => true
  | (_, value) :: rest => value.wellFormed && membersWellFormed rest

end

end Data

end NodeRanking
