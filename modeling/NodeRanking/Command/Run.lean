import NodeRanking.Command.Arguments
import NodeRanking.Files
import NodeRanking.Report.Placement
import NodeRanking.Report.Ranking

/-!
# Running a command

1. `Action.output` is what a command writes, or the fault that keeps it from writing anything.
2. `run` gives the exit code as well: 0 for success, 1 for a fault and 2 for misuse.
-/

namespace NodeRanking

namespace Command

/-- The world that a command runs in: its files, the exponential, and the name of its attempt. -/
structure Environment where
  files : Directory
  exp : Binary64 → Binary64
  attempt : String

/-- The workload that is ranked for when a snapshot has none. -/
def defaultWorkload : Workload := ⟨"workload", []⟩

/-- The report on the nodes of a snapshot for its workload. -/
def rankingReport (env : Environment) (settings : Settings) (snapshot : Snapshot) : RankingReport :=
  let workload := snapshot.workload.getD defaultWorkload
  .ofRanking env.attempt workload (rank env.exp settings workload snapshot.nodes)

/-- The report on the waiting workloads of a snapshot. -/
def placementReport (env : Environment) (settings : Settings) (snapshot : Snapshot) :
    PlacementReport :=
  let (decisions, nodes) :=
    placeQueue (.powerAware env.exp settings) snapshot.nodes snapshot.pending
  ⟨decisions, nodes⟩

/-- A document over several lines. -/
def jsonText (value : Data) : String := Json.pretty value ++ "\n"

/-- What an invocation writes. -/
def Invocation.output (env : Environment) (invocation : Invocation) : Except Fault String := do
  match invocation.action with
  | .score path json =>
    let snapshot ← Snapshot.ofFile env.files path
    let report := rankingReport env (Settings.effective env.files invocation.config) snapshot
    return if json then jsonText report.toData else report.toText
  | .place path json =>
    let snapshot ← Snapshot.ofFile env.files path
    let report := placementReport env (Settings.effective env.files invocation.config) snapshot
    return if json then jsonText report.toData else report.toText
  | .settings => return (Settings.effective env.files invocation.config).toText

/-- The paths of the files that a request reads. -/
def Request.paths : Request → List String
  | .run ⟨config, .score snapshot _⟩ => config.toList ++ [snapshot]
  | .run ⟨config, .place snapshot _⟩ => config.toList ++ [snapshot]
  | .run ⟨config, .settings⟩ => config.toList
  | _ => []

/-- How the program ended: its exit code and what it wrote on either channel. -/
structure Ending where
  code : Nat
  output : String
  complaint : String
deriving DecidableEq

/-- The name and number of this version. -/
def versionText : String := "powertopsis 0.1.0\n"

/-- How the program is used. -/
def usageText : String :=
  "Usage: powertopsis [--config PATH] [--log-level LEVEL] [-v] COMMAND\n\n" ++
    "Commands:\n" ++
    "  score --snapshot PATH [--json]   Score every node of a snapshot for its workload\n" ++
    "  place --snapshot PATH [--json]   Place the pending workloads of a snapshot one by one\n" ++
    "  config                           Print the effective scoring configuration\n"

/-- What is said of a fault on the channel for complaints. -/
def complaintOf (fault : Fault) : String :=
  "Error: " ++ fault.message?.getD "the input could not be read" ++ "\n"

/-- The program with its arguments. -/
def run (env : Environment) (arguments : List String) : Ending :=
  match read arguments with
  | .version => ⟨0, versionText, ""⟩
  | .help => ⟨0, usageText, ""⟩
  | .misuse => ⟨2, "", usageText⟩
  | .run invocation =>
    match invocation.output env with
    | .ok text => ⟨0, text, ""⟩
    | .error fault => ⟨1, "", complaintOf fault⟩

end Command

end NodeRanking
