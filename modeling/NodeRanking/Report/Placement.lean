import NodeRanking.Cluster.Document
import NodeRanking.Json.Printer
import NodeRanking.Placement
import NodeRanking.Text.Column

/-!
# Placement reports

The decisions for a queue of workloads and the nodes after the last of them.
-/

namespace NodeRanking

/-- The report of a queue of workloads. -/
structure PlacementReport where
  decisions : List Decision
  nodes : List Node
deriving DecidableEq

namespace PlacementReport

/-! ## JSON -/

def decisionData (d : Decision) : Data :=
  .record
    [("workload", .text d.workload),
      ("node", (d.choice.map fun c => Data.text c.1).getD .null),
      ("score", (d.choice.map fun c => Data.integer c.2).getD .null)]

def toData (report : PlacementReport) : Data :=
  .record
    [("decisions", .list (report.decisions.map decisionData)),
      ("nodes", .list (report.nodes.map Node.toData))]

/-! ## Table -/

/-- A line of a table from the texts of its columns. -/
def tableLine (workload node score : String) : String :=
  Text.row [Text.alignLeft 24 workload, Text.alignLeft 24 node, Text.alignRight 6 score]

def decisionText (d : Decision) : String :=
  tableLine d.workload ((d.choice.map (·.1)).getD "<unplaced>")
    ((d.choice.map fun c => toString c.2).getD "-")

/-- The bytes in a unit of memory that nodes are reported in. -/
def reportedUnit : Nat := 1024 * 1024

def nodeText (node : Node) : String :=
  "  " ++ node.name ++ " - " ++ toString node.pods.toNat ++ " pods, " ++
    toString node.requested.cpu.toNat ++ "m CPU, " ++
    toString (node.requested.memory.toNat / reportedUnit) ++ " MiB\n"

/-- The report as a table and a list of nodes. -/
def toText (report : PlacementReport) : String :=
  if report.decisions.isEmpty then "No pending workloads in snapshot\n"
  else
    tableLine "WORKLOAD" "NODE" "SCORE" ++ Text.rule 56 ++
      String.join (report.decisions.map decisionText) ++ "\nNodes:\n" ++
      String.join (report.nodes.map nodeText)

end PlacementReport

end NodeRanking
