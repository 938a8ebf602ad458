import NodeRanking.Closeness
import NodeRanking.Scoreboard

/-!
# Ranking

One ranking of all candidates for a workload: measure, normalize, weigh, find the extremes, and rate
every row against them. There is a ranking exactly when there is a candidate
(`rank_eq_none_iff`).
-/

namespace NodeRanking

/-- A ranking with everything that led to it; each list has one member for each candidate, in the
order of the candidates. -/
structure Ranking where
  measured : List Row
  weighted : List Row
  extremes : Extremes
  ratings : List Rating
  board : Scoreboard
deriving DecidableEq

def Scoreboard.ofRatings (ratings : List Rating) : Scoreboard :=
  .ofList (ratings.map fun r => (r.name, r.score))

/-- The ranking of the nodes for a workload under settings, which are repaired first. -/
def rank (exp : Binary64 → Binary64) (settings : Settings) (workload : Workload)
    (nodes : List Node) : Option Ranking :=
  let settings := settings.repaired
  let measured := measure exp settings.mode settings.curve workload.request nodes
  let weighted := weigh settings.weights (normalize measured)
  (Extremes.ofRows? settings.polarities weighted).map fun extremes =>
    let ratings := rate extremes weighted
    { measured, weighted, extremes, ratings, board := .ofRatings ratings }

theorem rank_eq_none_iff (exp : Binary64 → Binary64) (settings : Settings) (workload : Workload)
    (nodes : List Node) : rank exp settings workload nodes = none ↔ nodes = [] := by
  simp [rank, Extremes.ofRows?_eq_none_iff, weigh, normalize, mapRows, measure]

end NodeRanking
