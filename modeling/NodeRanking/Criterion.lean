import NodeRanking.Binary64.Basic
import NodeRanking.Text.Blank

/-!
# Criteria

Nodes are compared by four criteria, each with a polarity that says which end of its scale is the
good one.

1. `Polarity.ofText` knows one word, `benefit` in any letter case; every other text is a cost.
2. `Polarity.isBetter` is strict, so a value is never preferred to itself, and a NaN never at all.
3. `ByCriterion` holds one value for each criterion.
-/

namespace NodeRanking

/-- What a node is judged by: the workloads on it, the shares of its processor and memory that are
requested, and the power that it draws. -/
inductive Criterion where
  | pods
  | cpu
  | memory
  | power
deriving DecidableEq

namespace Criterion

/-- The criteria in their order of evaluation. -/
def all : List Criterion := [.pods, .cpu, .memory, .power]

def name : Criterion → String
  | pods => "pods"
  | cpu => "cpu"
  | memory => "memory"
  | power => "power"

def ofName? (s : String) : Option Criterion := all.find? (·.name = s)

end Criterion

/-- Whether the high or the low end of a scale is preferred. -/
inductive Polarity where
  | benefit
  | cost
deriving DecidableEq

namespace Polarity

def name : Polarity → String
  | benefit => "Benefit"
  | cost => "Cost"

/-- The polarity that a text names: `benefit` in any letter case and between any blanks is a
benefit, and all else is a cost. -/
def ofText (s : String) : Polarity :=
  if (Text.trim s.toList).map Char.toLower = "benefit".toList then benefit else cost

/-- Whether a candidate is strictly better than the current value. -/
def isBetter (polarity : Polarity) (candidate current : Binary64) : Bool :=
  match polarity with
  | benefit => current.lt candidate
  | cost => candidate.lt current

def flip : Polarity → Polarity
  | benefit => cost
  | cost => benefit

end Polarity

/-- One value for each criterion. -/
structure ByCriterion (α : Type) where
  pods : α
  cpu : α
  memory : α
  power : α
deriving DecidableEq

namespace ByCriterion

variable {α β : Type}

def get (v : ByCriterion α) : Criterion → α
  | .pods => v.pods
  | .cpu => v.cpu
  | .memory => v.memory
  | .power => v.power

/-- The values that a function has. -/
def ofFn (f : Criterion → α) : ByCriterion α := ⟨f .pods, f .cpu, f .memory, f .power⟩

/-- Every value changed by a function of it and its criterion. -/
def map (f : Criterion → α → β) (v : ByCriterion α) : ByCriterion β := ofFn fun c => f c (v.get c)

/-- The values in the order of the criteria. -/
def toList (v : ByCriterion α) : List α := Criterion.all.map v.get

@[simp] theorem get_ofFn (f : Criterion → α) (c : Criterion) : (ofFn f).get c = f c := by
  cases c <;> rfl

@[simp] theorem get_map (f : Criterion → α → β) (v : ByCriterion α) (c : Criterion) :
    (v.map f).get c = f c (v.get c) := get_ofFn _ c

@[ext] theorem ext_get {v w : ByCriterion α} (h : ∀ c, v.get c = w.get c) : v = w := by
  cases v
  cases w
  have hp := h .pods
  have hc := h .cpu
  have hm := h .memory
  have hw := h .power
  simp_all [get]

end ByCriterion

/-- What is measured, or derived from what is measured, of one node. -/
abbrev Metrics := ByCriterion Binary64

end NodeRanking
