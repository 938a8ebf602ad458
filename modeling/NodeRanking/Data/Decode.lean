import NodeRanking.Data.Remark

/-!
# Decoding data

Records are read into drafts, member by member in the order of the document, so the first fault of
the document is the one that is reported.

1. A record may also be written as the list of its values in a fixed order.
2. A member may be left out or have a name that the record does not know; none may come twice.
3. `Fault.remark` is the one fault that says what is wrong. Its place is the one where the innermost
   record or list around it was left, unless it came with a place.
-/

namespace NodeRanking

namespace Data

/-- What the two formats of documents differ in. -/
inductive Dialect where
  | toml
  | json
deriving DecidableEq

/-- Why data cannot be decoded: it does not have the shape asked for, or there is something to say
of a value in it. -/
inductive Fault where
  | shape
  | remark (remark : Remark)
deriving DecidableEq

/-- The fault as it is known where the list or record around it is left. -/
def Fault.leaving (mark : Mark) : Fault → Fault
  | .shape => .shape
  | .remark r => .remark (r.locate mark)

/-- The outcome of decoding. -/
abbrev Decoded (α : Type) := Except Fault α

/-- A part of a list or record, read with the place where that is left after it. -/
def enter {α : Type} (read : Data → Decoded α) : Data → Decoded α
  | .located mark value => (read value).mapError (·.leaving mark)
  | value => read value

/-! ## Records -/

/-- How a record is written: its fields in the order of the list form, the names of each, and how
the value of a field changes a draft. -/
structure RecordForm (Field Draft : Type) where
  fields : List Field
  names : Field → List String
  read : Dialect → Field → Data → Draft → Decoded Draft

namespace RecordForm

variable {Field Draft : Type} [DecidableEq Field]

/-- The field of a name. -/
def field? (form : RecordForm Field Draft) (name : String) : Option Field :=
  form.fields.find? fun field => (form.names field).contains name

/-- One member read into a draft; `seen` are the fields before it. -/
def readMember (form : RecordForm Field Draft) (dialect : Dialect) (state : List Field × Draft)
    (member : String × Data) : Decoded (List Field × Draft) :=
  match member, form.field? member.1 with
  | (_, .unnamed _), _ => .error .shape
  | (_, value), none => if value.wellFormed then .ok state else .error .shape
  | (_, value), some field =>
    if field ∈ state.1 then .error .shape
    else do
      let draft ← enter (form.read dialect field · state.2) value
      return (field :: state.1, draft)

/-- The values of a list read into a draft, in the order of the fields. What is left over is
passed over by one dialect and a fault in the other. -/
def readItems (form : RecordForm Field Draft) (dialect : Dialect) :
    List Field → List Data → Draft → Decoded Draft
  | _, [], draft => .ok draft
  | [], _ :: _, draft => if dialect = .toml then .ok draft else .error .shape
  | field :: fields, item :: items, draft => do
    let draft ← enter (form.read dialect field · draft) item
    readItems form dialect fields items draft

/-- A whole record read into a draft. -/
def decode (form : RecordForm Field Draft) (dialect : Dialect) (draft : Draft) :
    Data → Decoded Draft
  | .record members => do
    let (_, draft) ← members.foldlM (form.readMember dialect) ([], draft)
    return draft
  | .list items => form.readItems dialect form.fields items draft
  | .moment => .ok draft
  | _ => .error .shape

end RecordForm

/-! ## Other shapes -/

def asText : Data → Decoded String
  | .text s => .ok s
  | _ => .error .shape

/-- A number; a whole one is rounded. -/
def asNumber : Data → Decoded Binary64
  | .integer n => .ok (.ofInt n)
  | .float x => .ok x
  | _ => .error .shape

/-- A whole number of at most 32 bits. -/
def asCount : Data → Decoded UInt32
  | .integer n => if 0 ≤ n ∧ n < UInt32.size then .ok (UInt32.ofNat n.toNat) else .error .shape
  | _ => .error .shape

/-- A list, every item read alike. -/
def asList {α : Type} (read : Data → Decoded α) : Data → Decoded (List α)
  | .list items => items.mapM (enter read)
  | _ => .error .shape

/-- A value that may be null. -/
def asOption {α : Type} (read : Data → Decoded α) : Data → Decoded (Option α)
  | .null => .ok none
  | value => some <$> read value

/-- Whether a value says nothing: an empty list or record in one dialect, null in the other. -/
def saysNothing : Dialect → Data → Bool
  | .toml, .list [] => true
  | .toml, .record [] => true
  | .json, .null => true
  | _, _ => false

/-- One of several names: written as a text, or as a record with the name for its only member and a
value that says nothing. -/
def asName {α : Type} (ofName? : String → Option α) (dialect : Dialect) : Data → Decoded α
  | .text s => (ofName? s).elim (.error .shape) .ok
  | .record [(name, .located _ value)] => named name value
  | .record [(name, value)] => named name value
  | _ => .error .shape
where
  /-- The name of a member whose value says nothing. -/
  named (name : String) (value : Data) : Decoded α :=
    if saysNothing dialect value then (ofName? name).elim (.error .shape) .ok else .error .shape

end Data

end NodeRanking
