import NodeRanking.Binary64.Arithmetic

/-!
# Power drawn at a usage

A curve with three constants and one of two shapes. With `d = e ^ (-rate * u)` the saturating shape
is `base + scale * (1 - d)`, which rises with the usage `u`, and the decaying one is
`base + scale * d`, which falls with it.
-/

namespace NodeRanking

inductive CurveShape where
  | saturating
  | decaying
deriving DecidableEq

def CurveShape.name : CurveShape → String
  | saturating => "saturating"
  | decaying => "decaying"

def CurveShape.ofName? (s : String) : Option CurveShape :=
  [saturating, decaying].find? (·.name = s)

/-- A curve of power over usage. -/
structure PowerCurve where
  base : Binary64
  scale : Binary64
  rate : Binary64
  shape : CurveShape
deriving DecidableEq

namespace PowerCurve

/-- Whether the constants are finite and not below zero, and so is the peak `base + scale`. -/
def isUsable (curve : PowerCurve) : Bool :=
  [curve.base, curve.scale, curve.rate].all (fun k => k.isFinite && Binary64.le 0 k) &&
    (curve.base + curve.scale).isFinite

/-- The power drawn at a usage, with `exp` for the exponential. -/
def powerAt (exp : Binary64 → Binary64) (curve : PowerCurve) (usage : Binary64) : Binary64 :=
  let decay := exp (-curve.rate * usage)
  match curve.shape with
  | .saturating => curve.base + curve.scale * (1 - decay)
  | .decaying => curve.base + curve.scale * decay

end PowerCurve

end NodeRanking
