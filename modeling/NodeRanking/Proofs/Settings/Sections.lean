import NodeRanking.Proofs.Data.Record
import NodeRanking.Proofs.Settings
import NodeRanking.Proofs.Toml.Proper
import NodeRanking.Settings.Document

/-!
# What a document says of settings

A document may say something of every setting or leave it out, and `Settings.Written` is all that it
says. `Settings.Written.SaidBy` states that a document says just this: every section is written
once, as a table under one of its titles (`Settings.Section.titles`), or left out, and so is every
key in it.

1. `Settings.Written.settings` are the settings that are meant, and `Settings.Written.drafted` the
   same before any repair (`repaired_drafted`).
2. A section decodes to what its table says, in the place of the standard values
   (`decode_of_saidBy` for criteria and curve, `Mode.decode_of_says`).
3. The sections of settings, like the keys of each section, are parts that do not depend on each
   other (`Settings.parts`).
-/

namespace NodeRanking

open Data Toml

attribute [local irreducible] Binary64.one Binary64.limit

/-! ## Values -/

/-- A value and the number that it stands for. -/
inductive IsNumber : Data → Binary64 → Prop
  | float (x : Binary64) : IsNumber (.float x) x
  | whole (n : Int) : IsNumber (.integer n) (.ofInt n)

/-- A value and the text that it stands for. -/
inductive IsText : Data → String → Prop
  | text (s : String) : IsText (.text s) s

/-- A value and the one that it names: its name as a text, or a record with the name for its only
member and nothing in the value of that. -/
inductive IsName {α : Type} (word : α → String) : Data → α → Prop
  | text (a : α) : IsName word (.text (word a)) a
  | emptyList (a : α) : IsName word (.record [(word a, .list [])]) a
  | emptyRecord (a : α) : IsName word (.record [(word a, .record [])]) a

theorem IsNumber.asNumber {d : Data} {x : Binary64} (h : IsNumber d x) : asNumber d = .ok x := by
  cases h <;> rfl

theorem IsText.asText {d : Data} {s : String} (h : IsText d s) : asText d = .ok s := by
  cases h
  rfl

theorem IsName.asName {α : Type} {word : α → String} {ofName? : String → Option α}
    (hword : ∀ a, ofName? (word a) = some a) {d : Data} {a : α} (h : IsName word d a) :
    asName ofName? .toml d = .ok a := by
  cases h <;> simp [Data.asName, asName.named, saysNothing, hword]

/-- A value that names a shape of the curve. -/
def IsShape : Data → CurveShape → Prop :=
  IsName fun
    | .saturating => "saturating"
    | .decaying => "decaying"

/-- A value that names a mode. -/
def IsMode : Data → Mode → Prop :=
  IsName fun
    | .current => "current"
    | .projected => "projected"

theorem IsShape.asName {d : Data} {shape : CurveShape} (h : IsShape d shape) :
    asName CurveShape.ofName? .toml d = .ok shape :=
  IsName.asName (fun shape => by cases shape <;> rfl) h

theorem IsMode.asName {d : Data} {mode : Mode} (h : IsMode d mode) :
    asName Mode.ofName? .toml d = .ok mode :=
  IsName.asName (fun mode => by cases mode <;> rfl) h

/-! ## Keys -/

/-- What a table says under a key: nothing, if the key is not there. -/
def Says {α : Type} (Is : Data → α → Prop) (table : List (String × Data)) (key : String)
    (said : Option α) : Prop :=
  ∃ value, Entry table [key] value ∧ Option.Rel Is value said

namespace Says

variable {α Field Draft : Type} {Is : Data → α → Prop} {table table' : List (String × Data)}
  {key : String} {said : Option α}

theorem congr (h : Says Is table key said) (heq : ∀ m, m ∈ table ↔ m ∈ table') :
    Says Is table' key said := by
  obtain ⟨value, hentry, hsaid⟩ := h
  exact ⟨value, hentry.congr heq, hsaid⟩

theorem absent (h : (table.map Prod.fst).filter (· ∈ [key]) = []) : Says Is table key none :=
  ⟨none, .of_filter_eq_nil h, .none⟩

theorem present {d : Data} {a : α} (hnames : (table.map Prod.fst).Nodup)
    (h : (table.map Prod.fst).filter (· ∈ [key]) = [key]) (hmem : (key, d) ∈ table)
    (his : Is d a) : Says Is table key (some a) :=
  ⟨some d, .of_filter_eq_singleton hnames h hmem, .some his⟩

theorem makes {form : RecordForm Field Draft} {agree : Field → Draft → Draft → Prop}
    {field : Field} {start target : Draft} (h : Says Is table key said)
    (hnone : said = none → agree field start target)
    (hsome : ∀ d a, Is d a → said = some a → ∀ draft, ∃ next,
      form.read .toml field d draft = .ok next ∧ agree field next target) :
    ∃ value, Entry table [key] value ∧ form.Makes agree .toml field start target value := by
  obtain ⟨value, hentry, hsaid⟩ := h
  refine ⟨value, hentry, ?_⟩
  cases hsaid with
  | none => exact hnone rfl
  | some his => exact hsome _ _ his rfl

end Says

/-- A proper table is decoded to a target if what is under every key makes its part of it. -/
theorem decode_table {Field Draft : Type} [DecidableEq Field] {form : RecordForm Field Draft}
    {agree : Field → Draft → Draft → Prop} (hform : form.Parts agree)
    {table : List (String × Data)} (hproper : Proper (.record table)) {start target : Draft}
    (hentry : ∀ field, ∃ value, Entry table (form.names field) value ∧
      form.Makes agree .toml field start target value) :
    form.decode .toml start (.record table) = .ok target :=
  hform.decode_eq (fun m hm => (hproper.of_mem m hm).isBare)
    (fun m hm => (hproper.of_mem m hm).wellFormed) hproper.names_nodup hentry

/-! ## Criteria -/

namespace CriterionSettings

/-- What a section says of a criterion. -/
structure Written where
  weight : Option Binary64
  polarity : Option String

def Written.SaidBy (w : Written) (table : List (String × Data)) : Prop :=
  Says IsNumber table "weight" w.weight ∧ Says IsText table "type" w.polarity

/-- The settings with what is written in the place of others. -/
def Written.onto (w : Written) (c : CriterionSettings) : CriterionSettings where
  weight := w.weight.getD c.weight
  polarity := (w.polarity.map .ofText).getD c.polarity

/-- The same where a weight counts as written only if it can be used. -/
def Written.usableOnto (w : Written) (c : CriterionSettings) : CriterionSettings where
  weight := (w.weight.filter fun x => x.isFinite && Binary64.le 0 x).getD c.weight
  polarity := (w.polarity.map .ofText).getD c.polarity

/-- A weight that cannot be used is the written one or the default, so it may as well be replaced
by the default. -/
theorem Written.usableOnto_eq (w : Written) (c : CriterionSettings) : w.usableOnto c =
    if (w.onto c).isUsable then w.onto c else { w.onto c with weight := c.weight } := by
  obtain ⟨weight, polarity⟩ := w
  cases weight with
  | none => split_ifs <;> rfl
  | some x =>
    have hx : (Written.onto ⟨some x, polarity⟩ c).isUsable = (x.isFinite && Binary64.le 0 x) := rfl
    unfold usableOnto
    rw [hx, Option.filter_some]
    split_ifs <;> rfl

def AgreeOn : Field → CriterionSettings → CriterionSettings → Prop
  | .weight, c, c' => c.weight = c'.weight
  | .polarity, c, c' => c.polarity = c'.polarity

theorem parts : form.Parts AgreeOn where
  equivalence field := by cases field <;> exact ⟨fun _ => rfl, Eq.symm, Eq.trans⟩
  eq_of_agree {c c'} h := by
    obtain ⟨weight, polarity⟩ := c
    obtain ⟨weight', polarity'⟩ := c'
    obtain rfl : weight = weight' := h .weight
    obtain rfl : polarity = polarity' := h .polarity
    rfl
  agree_of_read {_ field _ _ _} hread other hother := by
    cases field <;>
    · obtain ⟨_, -, hpure⟩ := bind_eq_ok_iff.1 hread
      cases hpure
      cases other <;> first | rfl | exact absurd rfl hother
  mem_fields field := by cases field <;> decide
  names_nodup := by decide

theorem decode_of_saidBy {w : Written} {table : List (String × Data)}
    (hproper : Proper (.record table)) (h : w.SaidBy table) (c : CriterionSettings) :
    form.decode .toml c (.record table) = .ok (w.onto c) := by
  obtain ⟨weight, polarity⟩ := w
  obtain ⟨hweight, hpolarity⟩ := h
  refine decode_table parts hproper fun field => ?_
  cases field with
  | weight =>
    refine hweight.makes (by rintro rfl; rfl) ?_
    rintro d x his rfl draft
    exact ⟨_, bind_eq_ok his.asNumber rfl, rfl⟩
  | polarity =>
    refine hpolarity.makes (by rintro rfl; rfl) ?_
    rintro d s his rfl draft
    exact ⟨_, bind_eq_ok his.asText rfl, rfl⟩

end CriterionSettings

/-! ## The curve -/

namespace PowerCurve

/-- What a section says of the curve of power. -/
structure Written where
  base : Option Binary64
  scale : Option Binary64
  rate : Option Binary64
  shape : Option CurveShape

def Written.SaidBy (w : Written) (table : List (String × Data)) : Prop :=
  Says IsNumber table "k0" w.base ∧ Says IsNumber table "k1" w.scale ∧
    Says IsNumber table "k2" w.rate ∧ Says IsShape table "formula" w.shape

/-- The curve with what is written in the place of others. -/
def Written.onto (w : Written) (curve : PowerCurve) : PowerCurve where
  base := w.base.getD curve.base
  scale := w.scale.getD curve.scale
  rate := w.rate.getD curve.rate
  shape := w.shape.getD curve.shape

/-- The same where the constants count, written or not, only if they can be used together. -/
def Written.usableOnto (w : Written) (curve : PowerCurve) : PowerCurve :=
  if (w.onto curve).isUsable then w.onto curve else { curve with shape := w.shape.getD curve.shape }

def AgreeOn : Field → PowerCurve → PowerCurve → Prop
  | .base, curve, curve' => curve.base = curve'.base
  | .scale, curve, curve' => curve.scale = curve'.scale
  | .rate, curve, curve' => curve.rate = curve'.rate
  | .shape, curve, curve' => curve.shape = curve'.shape

theorem parts : form.Parts AgreeOn where
  equivalence field := by cases field <;> exact ⟨fun _ => rfl, Eq.symm, Eq.trans⟩
  eq_of_agree {curve curve'} h := by
    obtain ⟨base, scale, rate, shape⟩ := curve
    obtain ⟨base', scale', rate', shape'⟩ := curve'
    obtain rfl : base = base' := h .base
    obtain rfl : scale = scale' := h .scale
    obtain rfl : rate = rate' := h .rate
    obtain rfl : shape = shape' := h .shape
    rfl
  agree_of_read {_ field _ _ _} hread other hother := by
    cases field <;>
    · obtain ⟨_, -, hpure⟩ := bind_eq_ok_iff.1 hread
      cases hpure
      cases other <;> first | rfl | exact absurd rfl hother
  mem_fields field := by cases field <;> decide
  names_nodup := by decide

theorem decode_of_saidBy {w : Written} {table : List (String × Data)}
    (hproper : Proper (.record table)) (h : w.SaidBy table) (curve : PowerCurve) :
    form.decode .toml curve (.record table) = .ok (w.onto curve) := by
  obtain ⟨base, scale, rate, shape⟩ := w
  obtain ⟨hbase, hscale, hrate, hshape⟩ := h
  refine decode_table parts hproper fun field => ?_
  cases field with
  | base =>
    refine hbase.makes (by rintro rfl; rfl) ?_
    rintro d x his rfl draft
    exact ⟨_, bind_eq_ok his.asNumber rfl, rfl⟩
  | scale =>
    refine hscale.makes (by rintro rfl; rfl) ?_
    rintro d x his rfl draft
    exact ⟨_, bind_eq_ok his.asNumber rfl, rfl⟩
  | rate =>
    refine hrate.makes (by rintro rfl; rfl) ?_
    rintro d x his rfl draft
    exact ⟨_, bind_eq_ok his.asNumber rfl, rfl⟩
  | shape =>
    refine hshape.makes (by rintro rfl; rfl) ?_
    rintro d shape his rfl draft
    exact ⟨_, bind_eq_ok his.asName rfl, rfl⟩

end PowerCurve

/-! ## The mode -/

theorem Mode.parts : Mode.form.Parts fun _ mode mode' => mode = mode' where
  equivalence _ := eq_equivalence
  eq_of_agree h := h ()
  agree_of_read _ _ hother := absurd rfl hother
  mem_fields _ := List.mem_singleton_self ()
  names_nodup := by decide

theorem Mode.decode_of_says {said : Option Mode} {table : List (String × Data)}
    (hproper : Proper (.record table)) (h : Says IsMode table "mode" said)
    (mode : Mode) : Mode.form.decode .toml mode (.record table) = .ok (said.getD mode) := by
  refine decode_table Mode.parts hproper fun _ => ?_
  refine h.makes (by rintro rfl; rfl) ?_
  rintro d mode' his rfl draft
  exact ⟨_, his.asName, rfl⟩

/-! ## Sections -/

namespace Settings

/-- What a document says of settings. -/
structure Written where
  criteria : ByCriterion CriterionSettings.Written
  curve : PowerCurve.Written
  mode : Option Mode

/-- The titles that a section may have in a document. -/
def Section.titles : Section → List String
  | .criterion .pods => ["pods", "pod_load_balancing", "podLoadBalancingCriteria"]
  | .criterion .cpu => ["cpu", "cpuCriteria"]
  | .criterion .memory => ["mem", "memory", "memCriteria"]
  | .criterion .power => ["power", "powerCriteria"]
  | .curve => ["power_model", "powerModel"]
  | .placement => ["placement"]

/-- The names that sections are read under are their titles. -/
theorem Section.mem_names_iff {part : Section} {name : String} :
    name ∈ part.names ↔ name ∈ part.titles := by
  have hperm : part.names.Perm part.titles := by
    obtain c | _ | _ := part
    · cases c <;> decide
    · decide
    · decide
  exact hperm.mem_iff

/-- A document has a section at most once, as a table under one of its titles. Where the section is
left out its table is empty. -/
def HasTable (doc : List (String × Data)) (part : Section) (table : List (String × Data)) : Prop :=
  ∃ value, Entry doc part.titles value ∧ value.getD (.record []) = .record table

namespace Written

/-- What the table of a section says. -/
def SaidIn (w : Written) (table : List (String × Data)) : Section → Prop
  | .criterion c => (w.criteria.get c).SaidBy table
  | .curve => w.curve.SaidBy table
  | .placement => Says IsMode table "mode" w.mode

/-- What the sections of a document say. -/
def SaidBy (w : Written) (doc : List (String × Data)) : Prop :=
  ∀ part, ∃ table, HasTable doc part table ∧ w.SaidIn table part

/-- The settings with what is written in the place of standard values. -/
def drafted (w : Written) : Settings where
  criteria := .ofFn fun c => (w.criteria.get c).onto (standard.criteria.get c)
  curve := w.curve.onto .standard
  mode := w.mode.getD .current

/-- The settings that are meant. A weight counts as written if it is usable, and the constants of
the curve, written or standard, if they are usable together. -/
def settings (w : Written) : Settings where
  criteria := .ofFn fun c => (w.criteria.get c).usableOnto (standard.criteria.get c)
  curve := w.curve.usableOnto .standard
  mode := w.mode.getD .current

theorem repaired_drafted (w : Written) : w.drafted.repaired = w.settings := by
  have hcriteria : w.drafted.repaired.criteria = w.settings.criteria := by
    ext c
    rw [get_criteria_repaired]
    unfold drafted settings
    rw [ByCriterion.get_ofFn, ByCriterion.get_ofFn, CriterionSettings.Written.usableOnto_eq]
  calc w.drafted.repaired
      = ⟨w.drafted.repaired.criteria, w.settings.curve, w.settings.mode⟩ := rfl
    _ = w.settings := by rw [hcriteria]

end Written

/-- Two settings have the same for a section. -/
def AgreeOn : Section → Settings → Settings → Prop
  | .criterion c, s, s' => s.criteria.get c = s'.criteria.get c
  | .curve, s, s' => s.curve = s'.curve
  | .placement, s, s' => s.mode = s'.mode

theorem eq_of_agreeOn {s s' : Settings} (h : ∀ part, AgreeOn part s s') : s = s' := by
  obtain ⟨criteria, curve, mode⟩ := s
  obtain ⟨criteria', curve', mode'⟩ := s'
  obtain rfl : criteria = criteria' := ByCriterion.ext_get fun c => h (.criterion c)
  obtain rfl : curve = curve' := h .curve
  obtain rfl : mode = mode' := h .placement
  rfl

theorem AgreeOn.repaired {part : Section} {s s' : Settings} (h : AgreeOn part s s') :
    AgreeOn part s.repaired s'.repaired := by
  cases part with
  | criterion c =>
    have hc : s.criteria.get c = s'.criteria.get c := h
    show s.repaired.criteria.get c = s'.repaired.criteria.get c
    rw [get_criteria_repaired, get_criteria_repaired, hc]
  | curve =>
    have hcurve : s.curve = s'.curve := h
    show s.repaired.curve = s'.repaired.curve
    unfold Settings.repaired
    rw [hcurve]
  | placement => exact h

theorem get_setCriterion (s : Settings) (c c' : Criterion) (new : CriterionSettings) :
    (s.setCriterion c new).criteria.get c' = if c' = c then new else s.criteria.get c' :=
  ByCriterion.get_map _ _ _

theorem parts : form.Parts AgreeOn where
  equivalence part := by cases part <;> exact ⟨fun _ => rfl, Eq.symm, Eq.trans⟩
  eq_of_agree := eq_of_agreeOn
  agree_of_read {_ part _ _ _} hread other hother := by
    cases part with
    | criterion c =>
      obtain ⟨_, -, hpure⟩ := bind_eq_ok_iff.1 hread
      cases hpure
      cases other with
      | criterion c' =>
        have hc : c' ≠ c := fun heq => hother (congrArg _ heq)
        exact (get_setCriterion _ _ _ _).trans (if_neg hc)
      | _ => rfl
    | _ =>
      obtain ⟨_, -, hpure⟩ := bind_eq_ok_iff.1 hread
      cases hpure
      cases other <;> first | rfl | exact absurd rfl hother
  mem_fields part := by
    cases part with
    | criterion c => cases c <;> decide
    | _ => decide
  names_nodup := by decide

end Settings

end NodeRanking
