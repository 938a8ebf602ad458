import NodeRanking.Ranking

/-!
# Placement

A queue of workloads is placed one by one: every workload is an attempt of its own, which prepares a
board of scores, asks for the score of every node, and books the workload on the chosen one.

1. `choose?` takes the highest score, of equal ones the smallest name, of equal names the first
   node.
2. `place` leaves every other node as it is; without a node the workload stays unplaced.
3. `Policy.powerAware` is the policy of this library; `Policy` admits any other.
-/

namespace NodeRanking

/-- A way to score nodes: a board is prepared once for each attempt, and then asked for each node.
The preparation may depend on the number of the attempt. -/
structure Policy where
  name : String
  prepare : Nat → Workload → List Node → Option Scoreboard
  score : Option Scoreboard → String → Int

namespace Policy

/-- The score on the board; without a board no node is listed. -/
def boardScore (board : Option Scoreboard) (node : String) : Int :=
  (board.map (·.score node)).getD Scoreboard.unlisted

/-- The ranking by pods, processor, memory and power. -/
def powerAware (exp : Binary64 → Binary64) (settings : Settings) : Policy where
  name := "PowerAware"
  prepare := fun _ workload nodes => (rank exp settings workload nodes).map (·.board)
  score := boardScore

end Policy

/-- A node that could be chosen: where it stands, its name and its score. -/
structure Candidate where
  index : Nat
  name : String
  score : Int
deriving DecidableEq

/-- Whether a candidate takes the place of an earlier one: by a higher score, or by a smaller name
with the same score. -/
def Candidate.beats (c held : Candidate) : Bool :=
  held.score < c.score || (held.score == c.score && c.name < held.name)

/-- The nodes with their scores. -/
def candidates (score : String → Int) (nodes : List Node) : List Candidate :=
  nodes.zipIdx.map fun (node, index) => ⟨index, node.name, score node.name⟩

/-- The candidate that the workload goes to. -/
def choose? (score : String → Int) (nodes : List Node) : Option Candidate :=
  best? Candidate.beats (candidates score nodes)

/-- What became of a workload: the node that it was placed on and its score, if there was a node. -/
structure Decision where
  workload : String
  choice : Option (String × Int)
deriving DecidableEq

/-- One attempt: the decision, and the nodes after it. -/
def place (policy : Policy) (attempt : Nat) (nodes : List Node) (workload : Workload) :
    Decision × List Node :=
  let board := policy.prepare attempt workload nodes
  match choose? (policy.score board) nodes with
  | none => (⟨workload.name, none⟩, nodes)
  | some c =>
    (⟨workload.name, some (c.name, c.score)⟩, nodes.modify c.index (Node.book workload.request))

/-- The attempts for a queue of workloads, numbered from `attempt`; each finds the nodes as the one
before it left them. -/
def placeFrom (policy : Policy) (attempt : Nat) (nodes : List Node) :
    List Workload → List Decision × List Node
  | [] => ([], nodes)
  | workload :: rest =>
    let (decision, nodes) := place policy attempt nodes workload
    let (decisions, nodes) := placeFrom policy (attempt + 1) nodes rest
    (decision :: decisions, nodes)

@[simp] theorem placeFrom_nil (policy : Policy) (attempt : Nat) (nodes : List Node) :
    placeFrom policy attempt nodes [] = ([], nodes) := rfl

theorem placeFrom_cons (policy : Policy) (attempt : Nat) (nodes : List Node) (workload : Workload)
    (rest : List Workload) :
    placeFrom policy attempt nodes (workload :: rest) =
      let first := place policy attempt nodes workload
      let others := placeFrom policy (attempt + 1) first.2 rest
      (first.1 :: others.1, others.2) := rfl

/-- The decisions for a queue of workloads, and the nodes after the last of them. -/
def placeQueue (policy : Policy) (nodes : List Node) (workloads : List Workload) :
    List Decision × List Node :=
  placeFrom policy 0 nodes workloads

end NodeRanking
