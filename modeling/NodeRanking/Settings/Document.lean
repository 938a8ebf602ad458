import NodeRanking.Data.Decode
import NodeRanking.Decimal.Layout
import NodeRanking.Settings.Basic
import NodeRanking.Toml.Document

/-!
# Settings as documents

1. `Settings.ofText?` reads settings from TOML. What is left out keeps its standard value, every
   section has other names beside its own, and the result is repaired.
2. `Settings.toText` writes all settings.
-/

namespace NodeRanking

open Data

/-! ## Reading -/

inductive CriterionSettings.Field where
  | weight
  | polarity
deriving DecidableEq

def CriterionSettings.form : RecordForm CriterionSettings.Field CriterionSettings where
  fields := [.weight, .polarity]
  names
    | .weight => ["weight"]
    | .polarity => ["type"]
  read := fun _ field value c =>
    match field with
    | .weight => do
      let weight ← asNumber value
      return { c with weight }
    | .polarity => do
      let text ← asText value
      return { c with polarity := .ofText text }

inductive PowerCurve.Field where
  | base
  | scale
  | rate
  | shape
deriving DecidableEq

def PowerCurve.form : RecordForm PowerCurve.Field PowerCurve where
  fields := [.base, .scale, .rate, .shape]
  names
    | .base => ["k0"]
    | .scale => ["k1"]
    | .rate => ["k2"]
    | .shape => ["formula"]
  read := fun dialect field value curve =>
    match field with
    | .base => do
      let base ← asNumber value
      return { curve with base }
    | .scale => do
      let scale ← asNumber value
      return { curve with scale }
    | .rate => do
      let rate ← asNumber value
      return { curve with rate }
    | .shape => do
      let shape ← asName CurveShape.ofName? dialect value
      return { curve with shape }

/-- The form of the section for placement: a mode. -/
def Mode.form : RecordForm Unit Mode where
  fields := [()]
  names := fun _ => ["mode"]
  read := fun dialect _ value _ => asName Mode.ofName? dialect value

namespace Settings

/-- The sections of settings. -/
inductive Section where
  | criterion (c : Criterion)
  | curve
  | placement
deriving DecidableEq

/-- The names of a section, its own in front. -/
def Section.names : Section → List String
  | .criterion .pods => ["pod_load_balancing", "podLoadBalancingCriteria", "pods"]
  | .criterion .cpu => ["cpu", "cpuCriteria"]
  | .criterion .memory => ["memory", "memCriteria", "mem"]
  | .criterion .power => ["power", "powerCriteria"]
  | .curve => ["power_model", "powerModel"]
  | .placement => ["placement"]

/-- The settings with those of one criterion replaced. -/
def setCriterion (c : Criterion) (new : CriterionSettings) (s : Settings) : Settings :=
  { s with criteria := s.criteria.map fun c' old => if c' = c then new else old }

def form : RecordForm Section Settings where
  fields := Criterion.all.map .criterion ++ [.curve, .placement]
  names := Section.names
  read := fun dialect part value s =>
    match part with
    | .criterion c => do
      let new ← CriterionSettings.form.decode dialect (standard.criteria.get c) value
      return s.setCriterion c new
    | .curve => do
      let curve ← PowerCurve.form.decode dialect .standard value
      return { s with curve }
    | .placement => do
      let mode ← Mode.form.decode dialect .current value
      return { s with mode }

/-- Settings of a document, repaired. -/
def ofData (value : Data) : Decoded Settings := do
  let s ← form.decode .toml standard value
  return s.repaired

/-- Settings of a text, if it is TOML and holds settings. -/
def ofText? (s : String) : Option Settings :=
  (Toml.document? s).bind fun value => (ofData value).toOption

/-! ## Writing -/

/-- Numbers in settings: positional, whole ones with a point. -/
def numbers : Decimal.Layout where
  tie := .up
  wholePoint := true
  positional := none
  nan := "nan"
  infinity := ("inf", "-inf")

def sectionText (name : String) (lines : List (String × String)) : String :=
  "[" ++ name ++ "]\n" ++ String.join (lines.map fun (key, value) => key ++ " = " ++ value ++ "\n")

/-- A name between quotes. -/
def quoted (name : String) : String := "\"" ++ name ++ "\""

def criterionLines (c : CriterionSettings) : List (String × String) :=
  [("weight", numbers.write c.weight), ("type", quoted c.polarity.name)]

def curveLines (curve : PowerCurve) : List (String × String) :=
  [("k0", numbers.write curve.base), ("k1", numbers.write curve.scale),
    ("k2", numbers.write curve.rate), ("formula", quoted curve.shape.name)]

/-- The sections with their lines, each under its own name. -/
def sections (s : Settings) : List (String × List (String × String)) :=
  [("pod_load_balancing", criterionLines s.criteria.pods),
    ("cpu", criterionLines s.criteria.cpu),
    ("memory", criterionLines s.criteria.memory),
    ("power", criterionLines s.criteria.power),
    ("power_model", curveLines s.curve),
    ("placement", [("mode", quoted s.mode.name)])]

/-- The text of settings, an empty line between two sections. -/
def toText (s : Settings) : String :=
  "\n".intercalate (s.sections.map fun (name, lines) => sectionText name lines)

end Settings

end NodeRanking
