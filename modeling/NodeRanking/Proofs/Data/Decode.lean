import NodeRanking.Data.Decode
import Mathlib.Tactic.SplitIfs

/-!
# Laws of decoding

A decoder that runs in steps succeeds if each step does (`bind_eq_ok_iff`). A record with the names
of its fields is decoded member by member: `foldlM_readMember_cons` is one step of that.
-/

namespace NodeRanking

namespace Data

variable {α β Field Draft : Type}

theorem bind_eq_ok_iff {x : Decoded α} {f : α → Decoded β} {b : β} :
    (x >>= f) = .ok b ↔ ∃ a, x = .ok a ∧ f a = .ok b := by
  cases x <;> simp [bind, Except.bind]

theorem bind_eq_ok {x : Decoded α} {f : α → Decoded β} {a : α} {b : β} (hx : x = .ok a)
    (hf : f a = .ok b) : (x >>= f) = .ok b :=
  bind_eq_ok_iff.2 ⟨a, hx, hf⟩

/-- A value that is written as it is, without a place on it and under a name that is a text. -/
def IsBare : Data → Prop
  | .located _ _ => False
  | .unnamed _ => False
  | _ => True

theorem enter_of_isBare {d : Data} (hd : d.IsBare) (read : Data → Decoded α) :
    enter read d = read d := by
  cases d with
  | located leave value => exact hd.elim
  | _ => rfl

theorem ne_unnamed_of_isBare {d : Data} (hd : d.IsBare) : ∀ v, d ≠ .unnamed v := by
  rintro v rfl
  exact hd

theorem itemsWellFormed_iff {items : List Data} :
    itemsWellFormed items = true ↔ ∀ d ∈ items, d.wellFormed = true := by
  induction items with
  | nil => simp [itemsWellFormed]
  | cons item items ih => rw [itemsWellFormed, Bool.and_eq_true, ih, List.forall_mem_cons]

theorem membersWellFormed_iff {members : List (String × Data)} :
    membersWellFormed members = true ↔ ∀ m ∈ members, m.2.wellFormed = true := by
  induction members with
  | nil => simp [membersWellFormed]
  | cons member members ih => rw [membersWellFormed, Bool.and_eq_true, ih, List.forall_mem_cons]

variable [DecidableEq Field] {form : RecordForm Field Draft} {dialect : Dialect}

/-- What one member makes of a draft, if its name is a text. -/
theorem readMember_eq {name : String} {state : List Field × Draft} {d : Data}
    (hd : ∀ v, d ≠ .unnamed v) :
    form.readMember dialect state (name, d) =
      match form.field? name with
      | none => if d.wellFormed then .ok state else .error .shape
      | some field =>
        if field ∈ state.1 then .error .shape
        else do
          let draft ← enter (form.read dialect field · state.2) d
          return (field :: state.1, draft) := by
  unfold RecordForm.readMember
  cases form.field? name <;> cases d <;> first
    | rfl
    | exact absurd rfl (hd _)

/-- Members are read into a draft if the first one is, under a name that has not come before, and
then the others are. -/
theorem foldlM_readMember_cons {name : String} {d : Data} {members : List (String × Data)}
    {seen : List Field} {draft next : Draft} {result : List Field × Draft} (field : Field)
    (hfield : form.field? name = some field) (hnew : field ∉ seen) (hd : d.IsBare)
    (hread : form.read dialect field d draft = .ok next)
    (hrest : members.foldlM (form.readMember dialect) (field :: seen, next) = .ok result) :
    ((name, d) :: members).foldlM (form.readMember dialect) (seen, draft) = .ok result := by
  rw [List.foldlM_cons, readMember_eq (ne_unnamed_of_isBare hd)]
  simp only [hfield, hnew, if_false, enter_of_isBare hd, hread]
  exact hrest

theorem decode_record {members : List (String × Data)} {draft draft' : Draft} (seen : List Field)
    (h : members.foldlM (form.readMember dialect) ([], draft) = .ok (seen, draft')) :
    form.decode dialect draft (.record members) = .ok draft' :=
  bind_eq_ok h rfl

/-- Items that each decode to their original decode to the list of the originals. -/
theorem asList_map {read : Data → Decoded α} (write : α → Data) (hbare : ∀ a, (write a).IsBare)
    (h : ∀ a, read (write a) = .ok a) (as : List α) :
    asList read (.list (as.map write)) = .ok as := by
  show (as.map write).mapM (enter read) = .ok as
  induction as with
  | nil => rfl
  | cons a as ih =>
    rw [List.map_cons, List.mapM_cons, enter_of_isBare (hbare a), h a, ih]
    rfl

end Data

end NodeRanking
