import NodeRanking.Proofs.Data.Decode
import NodeRanking.Proofs.Toml.Document

/-!
# Documents of settings

The text of settings is a document of one table for each section (`document?_toText`), and from
these tables the settings are decoded, before any repair (`decode_tables`).
-/

namespace NodeRanking

namespace Settings

open Data Toml

attribute [local irreducible] Binary64.one Binary64.limit

/-! ## The tables of settings -/

def criterionMembers (c : CriterionSettings) : List (String × Data) :=
  [("weight", .float c.weight), ("type", .text c.polarity.name)]

def curveMembers (curve : PowerCurve) : List (String × Data) :=
  [("k0", .float curve.base), ("k1", .float curve.scale), ("k2", .float curve.rate),
    ("formula", .text curve.shape.name)]

/-- The tables that the sections of settings stand for. -/
def tables (s : Settings) : List Table :=
  [("pod_load_balancing", criterionMembers s.criteria.pods),
    ("cpu", criterionMembers s.criteria.cpu),
    ("memory", criterionMembers s.criteria.memory),
    ("power", criterionMembers s.criteria.power),
    ("power_model", curveMembers s.curve),
    ("placement", [("mode", .text s.mode.name)])]

/-! ## Reading the text -/

/-- A line of a section reads back as a member. -/
def WritesMember (line : String × String) (member : String × Data) : Prop :=
  line.1 = member.1 ∧ IsBareKey line.1 ∧ Writes line.2 member.2

/-- A section reads back as a table. -/
def WritesTable (part : String × List (String × String)) (table : Table) : Prop :=
  part.1 = table.1 ∧ IsBareKey part.1 ∧ List.Forall₂ WritesMember part.2 table.2

theorem states_lines {lines : List (String × String)} {members : List (String × Data)}
    {rest : List Char} {statements : List Statement} (h : List.Forall₂ WritesMember lines members)
    (hrest : States rest statements) :
    States ((String.join (lines.map fun (key, value) => key ++ " = " ++ value ++ "\n")).toList ++ rest)
      ((members.map fun m => Statement.assign [m.1] m.2) ++ statements) := by
  induction h with
  | nil => exact hrest
  | @cons line member lines members hline _ ih =>
    obtain ⟨hname, hbare, hvalue⟩ := hline
    rw [hname] at hbare
    have hassign := States.assign hbare hvalue ih
    simpa [hname] using hassign

theorem states_section {part : String × List (String × String)} {table : Table} {rest : List Char}
    {statements : List Statement} (h : WritesTable part table) (hrest : States rest statements) :
    States ((sectionText part.1 part.2).toList ++ rest) (table.statements ++ statements) := by
  obtain ⟨hname, hbare, hlines⟩ := h
  rw [hname] at hbare
  have hheader := States.header hbare (states_lines hlines hrest)
  simpa [sectionText, hname, Table.statements] using hheader

theorem states_sections {parts : List (String × List (String × String))} {tables : List Table}
    (h : List.Forall₂ WritesTable parts tables) :
    States ("\n".intercalate (parts.map fun (name, lines) => sectionText name lines)).toList
      (tables.flatMap Table.statements) := by
  induction h with
  | nil => exact states_nil
  | @cons part table parts tables hpart hparts ih =>
    cases hparts with
    | nil => simpa using states_section hpart states_nil
    | cons hnext hrest => simpa using states_section hpart ih.newLine

theorem writesMember_cons {key text : String} {d : Data} {lines : List (String × String)}
    {members : List (String × Data)} (hkey : IsBareKey key) (htext : Writes text d)
    (hrest : List.Forall₂ WritesMember lines members) :
    List.Forall₂ WritesMember ((key, text) :: lines) ((key, d) :: members) :=
  .cons ⟨rfl, hkey, htext⟩ hrest

theorem writesTable_cons {name : String} {lines : List (String × String)}
    {members : List (String × Data)} {parts : List (String × List (String × String))}
    {tables : List Table} (hname : IsBareKey name) (hlines : List.Forall₂ WritesMember lines members)
    (hrest : List.Forall₂ WritesTable parts tables) :
    List.Forall₂ WritesTable ((name, lines) :: parts) ((name, members) :: tables) :=
  .cons ⟨rfl, hname, hlines⟩ hrest

theorem isPlainName_polarity (p : Polarity) : IsPlainName p.name := by
  cases p <;> decide +kernel

theorem isPlainName_shape (shape : CurveShape) : IsPlainName shape.name := by
  cases shape <;> decide +kernel

theorem isPlainName_mode (mode : Mode) : IsPlainName mode.name := by
  cases mode <;> decide +kernel

theorem writes_criterion (c : CriterionSettings) :
    List.Forall₂ WritesMember (criterionLines c) (criterionMembers c) := by
  apply writesMember_cons (by decide) (writes_number c.weight)
  exact writesMember_cons (by decide) (writes_quoted (isPlainName_polarity c.polarity)) .nil

theorem writes_curve (curve : PowerCurve) :
    List.Forall₂ WritesMember (curveLines curve) (curveMembers curve) := by
  apply writesMember_cons (by decide) (writes_number curve.base)
  apply writesMember_cons (by decide) (writes_number curve.scale)
  apply writesMember_cons (by decide) (writes_number curve.rate)
  exact writesMember_cons (by decide) (writes_quoted (isPlainName_shape curve.shape)) .nil

theorem writes_sections (s : Settings) : List.Forall₂ WritesTable s.sections s.tables := by
  have hmode := writesMember_cons (by decide : IsBareKey "mode")
    (writes_quoted (isPlainName_mode s.mode)) .nil
  apply writesTable_cons (by decide) (writes_criterion s.criteria.pods)
  apply writesTable_cons (by decide) (writes_criterion s.criteria.cpu)
  apply writesTable_cons (by decide) (writes_criterion s.criteria.memory)
  apply writesTable_cons (by decide) (writes_criterion s.criteria.power)
  apply writesTable_cons (by decide) (writes_curve s.curve)
  exact writesTable_cons (by decide) hmode .nil

/-- The text of settings is a document of their tables. -/
theorem document?_toText (s : Settings) :
    document? s.toText = some (.record (s.tables.map fun table => (table.1, .record table.2))) := by
  apply document?_tables (states_sections s.writes_sections)
  · simp [sections, sectionText]
  · simp [tables]
  · intro table htable
    simp only [tables, List.mem_cons, List.not_mem_nil, or_false] at htable
    rcases htable with rfl | rfl | rfl | rfl | rfl | rfl <;> simp [criterionMembers, curveMembers]

/-! ## Decoding -/

variable (dialect : Dialect)

theorem decode_criterion (c start : CriterionSettings) :
    CriterionSettings.form.decode dialect start (.record (criterionMembers c)) = .ok c := by
  have hpolarity : Polarity.ofText c.polarity.name = c.polarity := by
    cases c.polarity <;> decide
  refine decode_record [.polarity, .weight] ?_
  refine foldlM_readMember_cons .weight rfl (by simp) trivial rfl ?_
  refine foldlM_readMember_cons .polarity rfl (by simp) trivial rfl ?_
  rw [hpolarity]
  rfl

theorem decode_curve (curve start : PowerCurve) :
    PowerCurve.form.decode dialect start (.record (curveMembers curve)) = .ok curve := by
  have hshape : asName CurveShape.ofName? dialect (.text curve.shape.name) = .ok curve.shape := by
    cases curve.shape <;> rfl
  refine decode_record [.shape, .rate, .scale, .base] ?_
  refine foldlM_readMember_cons .base rfl (by simp) trivial rfl ?_
  refine foldlM_readMember_cons .scale rfl (by simp) trivial rfl ?_
  refine foldlM_readMember_cons .rate rfl (by simp) trivial rfl ?_
  exact foldlM_readMember_cons .shape rfl (by simp) trivial (bind_eq_ok hshape rfl) rfl

theorem decode_mode (mode start : Mode) :
    Mode.form.decode dialect start (.record [("mode", .text mode.name)]) = .ok mode := by
  have hmode : asName Mode.ofName? dialect (.text mode.name) = .ok mode := by
    cases mode <;> rfl
  refine decode_record [()] ?_
  exact foldlM_readMember_cons () rfl (by simp) trivial hmode rfl

/-- The tables of settings decode to the settings, as they are. -/
theorem decode_tables (s start : Settings) :
    form.decode dialect start (.record (s.tables.map fun table => (table.1, .record table.2))) =
      .ok s := by
  have criterion (c : Criterion) := decode_criterion dialect (s.criteria.get c)
  refine decode_record [.placement, .curve, .criterion .power, .criterion .memory,
    .criterion .cpu, .criterion .pods] ?_
  refine foldlM_readMember_cons (.criterion .pods) rfl (by simp) trivial
    (bind_eq_ok (criterion .pods _) rfl) ?_
  refine foldlM_readMember_cons (.criterion .cpu) rfl (by simp) trivial
    (bind_eq_ok (criterion .cpu _) rfl) ?_
  refine foldlM_readMember_cons (.criterion .memory) rfl (by simp) trivial
    (bind_eq_ok (criterion .memory _) rfl) ?_
  refine foldlM_readMember_cons (.criterion .power) rfl (by simp) trivial
    (bind_eq_ok (criterion .power _) rfl) ?_
  refine foldlM_readMember_cons .curve rfl (by simp) trivial
    (bind_eq_ok (decode_curve dialect s.curve _) rfl) ?_
  exact foldlM_readMember_cons .placement rfl (by simp) trivial
    (bind_eq_ok (decode_mode dialect s.mode _) rfl) rfl

end Settings

end NodeRanking
