import NodeRanking.Criterion
import NodeRanking.Decimal.Basic
import NodeRanking.PowerCurve

/-!
# Settings

The weight and polarity of every criterion, the curve of power, and the state that nodes are judged
in.

1. `Settings.standard` are the settings of a program that is given none.
2. `Settings.repaired` puts the standard value in place of every weight that is not a finite number
   of at least zero, and the standard constants in place of a curve that is not usable. It
   keeps polarities, shape and mode.
-/

namespace NodeRanking

/-- How much a criterion counts, and which end of its scale is the good one. -/
structure CriterionSettings where
  weight : Binary64
  polarity : Polarity
deriving DecidableEq

/-- Whether nodes are judged as they are, or as they would be with the workload on them. -/
inductive Mode where
  | current
  | projected
deriving DecidableEq

def Mode.name : Mode → String
  | current => "current"
  | projected => "projected"

def Mode.ofName? (s : String) : Option Mode := [current, projected].find? (·.name = s)

/-- Everything that a ranking depends on beside the nodes and the workload. -/
structure Settings where
  criteria : ByCriterion CriterionSettings
  curve : PowerCurve
  mode : Mode
deriving DecidableEq

/-- Whether a weight can be used: finite and not below zero. -/
def CriterionSettings.isUsable (c : CriterionSettings) : Bool :=
  c.weight.isFinite && Binary64.le 0 c.weight

/-- The standard curve: 150 when idle and 100 more under full load. -/
def PowerCurve.standard : PowerCurve := ⟨150, 100, 3, .saturating⟩

namespace Settings

/-- The standard settings: every criterion a cost, power counting as much as two of the others. -/
def standard : Settings where
  criteria := ⟨⟨0.2, .cost⟩, ⟨0.2, .cost⟩, ⟨0.2, .cost⟩, ⟨0.4, .cost⟩⟩
  curve := .standard
  mode := .current

def weights (s : Settings) : ByCriterion Binary64 := s.criteria.map fun _ c => c.weight

def polarities (s : Settings) : ByCriterion Polarity := s.criteria.map fun _ c => c.polarity

/-- The settings with standard values in place of unusable ones. -/
def repaired (s : Settings) : Settings where
  criteria := s.criteria.map fun criterion c =>
    if c.isUsable then c else { c with weight := (standard.criteria.get criterion).weight }
  curve := if s.curve.isUsable then s.curve else { PowerCurve.standard with shape := s.curve.shape }
  mode := s.mode

end Settings

end NodeRanking
