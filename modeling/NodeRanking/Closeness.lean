import NodeRanking.Extremes

/-!
# Closeness and score

1. `closeness` is the share of the distance to the anti-ideal point in the sum of both distances:
   0 at the anti-ideal point, 1 at the ideal one, and 0.5 where the two points coincide.
2. `scoreOf` is the closeness in hundredths, rounded, a half going up.
-/

namespace NodeRanking

/-- The Euclidean distance of two points. The squares are summed in the order of the criteria. -/
def distance (a b : Metrics) : Binary64 :=
  (Binary64.sum (Criterion.all.map fun c => (a.get c - b.get c).square)).sqrt

/-- The closeness where the two points coincide. -/
def undecided : Binary64 := 0.5

/-- The share of the second distance in the sum of both; undecided where the sum counts as zero. -/
def share (toIdeal toAntiIdeal : Binary64) : Binary64 :=
  let total := toIdeal + toAntiIdeal
  if total < negligible then undecided else toAntiIdeal / total

/-- The closeness of a point to the ideal. -/
def closeness (extremes : Extremes) (metrics : Metrics) : Binary64 :=
  share (distance metrics extremes.ideal) (distance metrics extremes.antiIdeal)

/-- The highest score of a node. -/
def topScore : Nat := 100

/-- The score of a closeness; zero for a NaN. -/
def scoreOf (closeness : Binary64) : Int :=
  let top := Binary64.ofNat topScore
  (((closeness * top).round.clamp 0 top).toNat topScore : Nat)

/-- A node with its closeness and score. -/
structure Rating where
  name : String
  closeness : Binary64
  score : Int
deriving DecidableEq

/-- The rating of a row of a weighted matrix. -/
def Rating.ofRow (extremes : Extremes) (row : Row) : Rating :=
  let c := NodeRanking.closeness extremes row.metrics
  ⟨row.name, c, scoreOf c⟩

/-- The ratings of the rows of a weighted matrix, in their order. -/
def rate (extremes : Extremes) (rows : List Row) : List Rating := rows.map (.ofRow extremes)

end NodeRanking
