import NodeRanking.Data.Decode

/-!
# Faults

Ranking and placement never fail. What can fail is the reading of settings and snapshots at the edge
of the program.
-/

namespace NodeRanking

/-- Why something could not be read. -/
inductive Fault where
  /-- Settings that cannot be read or decoded. -/
  | settings
  /-- A text that is no amount of a resource. -/
  | amount (raw : String)
  /-- A snapshot in a format that is not known, by its extension. -/
  | format (extension : String)
  /-- A snapshot in TOML that cannot be decoded. -/
  | snapshot
  /-- A file that is not there or is not text. -/
  | file
  /-- A document in JSON that cannot be decoded. -/
  | json (cause : Data.Fault)
deriving DecidableEq

namespace Fault

/-- What is said of a fault, where this library has words of its own for it. -/
def message? : Fault → Option String
  | amount raw => some ("Invalid quantity: " ++ raw)
  | format extension => some ("Snapshot error: Unsupported snapshot format: ." ++ extension)
  | json (.remark r) => some ("Serialization error: " ++ r.text)
  | _ => none

/-- A fault as that of the document that it is found in, with what is said of it. -/
def inDocument (fault : Fault) : Data.Fault :=
  fault.message?.elim .shape fun words => .remark (.ofWords words)

end Fault

/-- The value if there is one, and this fault otherwise. -/
def Fault.ofOption {α : Type} (fault : Fault) : Option α → Except Fault α
  | some x => .ok x
  | none => .error fault

end NodeRanking
