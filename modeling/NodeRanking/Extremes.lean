import NodeRanking.DecisionMatrix
import NodeRanking.Selection

/-!
# The ideal and the anti-ideal point

Of each column of a weighted matrix, the value that is better than all others and the one that all
others are better than. A value gives way only to a strictly better one, so the first of several
equal values is kept.
-/

namespace NodeRanking

/-- The best and the worst value of every criterion among the candidates. -/
structure Extremes where
  ideal : Metrics
  antiIdeal : Metrics
deriving DecidableEq

/-- The extremes of a matrix; an empty one has none. -/
def Extremes.ofRows? (polarities : ByCriterion Polarity) : List Row → Option Extremes
  | [] => none
  | first :: rest =>
    let extreme (beats : Polarity → Binary64 → Binary64 → Bool) : Metrics :=
      .ofFn fun c => bestFrom (beats (polarities.get c)) (first.metrics.get c) (column rest c)
    some
      { ideal := extreme fun p x held => p.isBetter x held
        antiIdeal := extreme fun p x held => p.isBetter held x }

theorem Extremes.ofRows?_eq_none_iff (polarities : ByCriterion Polarity) (rows : List Row) :
    ofRows? polarities rows = none ↔ rows = [] := by
  cases rows <;> simp [ofRows?]

end NodeRanking
