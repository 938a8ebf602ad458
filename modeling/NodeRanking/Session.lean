import NodeRanking.Placement

/-!
# Sessions

A scheduler that uses the policy of this library over time: it holds the settings, the nodes, and
the board of the last preparation, which stays until the next one.
-/

namespace NodeRanking

structure Session where
  settings : Settings
  nodes : List Node
  board : Option Scoreboard
deriving DecidableEq

namespace Session

variable (exp : Binary64 → Binary64)

/-- A session with settings and nodes, and nothing prepared. -/
def start (settings : Settings) (nodes : List Node) : Session := ⟨settings.repaired, nodes, none⟩

/-- Other settings; the board stays. -/
def configure (settings : Settings) (s : Session) : Session :=
  { s with settings := settings.repaired }

/-- The ranking of the nodes; nothing changes. -/
def rank (workload : Workload) (s : Session) : Option Ranking :=
  NodeRanking.rank exp s.settings workload s.nodes

/-- A new board; without nodes there is none. -/
def prepare (workload : Workload) (s : Session) : Session :=
  { s with board := (s.rank exp workload).map (·.board) }

def score (node : String) (s : Session) : Int := Policy.boardScore s.board node

/-- Workloads placed on the nodes; the board stays. -/
def place (workloads : List Workload) (s : Session) : List Decision × Session :=
  let (decisions, nodes) := placeQueue (.powerAware exp s.settings) s.nodes workloads
  (decisions, { s with nodes })

/-- A request booked on the node at a position. -/
def book (index : Nat) (request : Resources) (s : Session) : Session :=
  { s with nodes := s.nodes.modify index (Node.book request) }

/-- One more node, behind the others. -/
def add (node : Node) (s : Session) : Session := { s with nodes := s.nodes ++ [node] }

/-- The session without the nodes of a name. -/
def remove (name : String) (s : Session) : Session :=
  { s with nodes := s.nodes.filter (·.name ≠ name) }

end Session

end NodeRanking
