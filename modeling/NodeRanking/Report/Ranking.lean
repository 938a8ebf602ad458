import NodeRanking.Json.Printer
import NodeRanking.Ranking
import NodeRanking.Text.Column

/-!
# Reports on a ranking

The candidates of one ranking with their metrics, closeness and score: the highest score first,
equal ones by name, and equal names in the order of the candidates.
-/

namespace NodeRanking

/-- One candidate of a report. -/
structure NodeLine where
  name : String
  metrics : Metrics
  closeness : Binary64
  score : Int
deriving DecidableEq

/-- The report of one attempt; without candidates there is no attempt. -/
structure RankingReport where
  workload : String
  attempt : Option String
  lines : List NodeLine
deriving DecidableEq

/-- Whether a line may stand in front of another one. -/
def NodeLine.mayPrecede (a b : NodeLine) : Bool :=
  b.score < a.score || (a.score == b.score && (a.name < b.name || a.name == b.name))

namespace RankingReport

/-- The lines of a ranking, in the order of the candidates. -/
def linesOf (ranking : Ranking) : List NodeLine :=
  (ranking.measured.zip ranking.ratings).map fun (row, rating) =>
    ⟨row.name, row.metrics, rating.closeness, rating.score⟩

/-- The report of a ranking, if there is one; `attempt` names the attempt. -/
def ofRanking (attempt : String) (workload : Workload) : Option Ranking → RankingReport
  | none => ⟨workload.name, none, []⟩
  | some ranking => ⟨workload.name, some attempt, sortBy NodeLine.mayPrecede (linesOf ranking)⟩

/-! ## JSON -/

def metricsData (metrics : Metrics) : Data :=
  .record (Criterion.all.map fun c => (c.name, .float (metrics.get c)))

def lineData (line : NodeLine) : Data :=
  .record
    [("node", .text line.name), ("metrics", metricsData line.metrics),
      ("closeness", .float line.closeness), ("score", .integer line.score)]

def toData (report : RankingReport) : Data :=
  .record
    [("workload", .text report.workload),
      ("attempt_id", (report.attempt.map Data.text).getD .null),
      ("nodes", .list (report.lines.map lineData))]

/-! ## Table -/

/-- A line of a table from the texts of its columns. -/
def tableLine (node pods cpu memory power closeness score : String) : String :=
  Text.row
    [Text.alignLeft 24 node, Text.alignRight 6 pods, Text.alignRight 8 cpu,
      Text.alignRight 8 memory, Text.alignRight 10 power, Text.alignRight 10 closeness,
      Text.alignRight 6 score]

def lineText (line : NodeLine) : String :=
  tableLine line.name (Decimal.plain.write line.metrics.pods)
    (Decimal.writeFixed 3 line.metrics.cpu) (Decimal.writeFixed 3 line.metrics.memory)
    (Decimal.writeFixed 2 line.metrics.power) (Decimal.writeFixed 4 line.closeness)
    (toString line.score)

/-- The report as a table. -/
def toText (report : RankingReport) : String :=
  if report.lines.isEmpty then "No candidate nodes in snapshot\n"
  else
    "Workload: " ++ report.workload ++ "\n" ++
      tableLine "NODE" "PODS" "CPU" "MEMORY" "POWER" "CLOSENESS" "SCORE" ++ Text.rule 78 ++
      String.join (report.lines.map lineText)

end RankingReport

end NodeRanking
