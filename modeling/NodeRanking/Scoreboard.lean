import NodeRanking.Selection

/-!
# Scoreboards

The scores of one attempt, by node name.

1. `Scoreboard.ofList` keeps the highest score of a name that comes more than once, so the board
   does not depend on the order of its entries.
2. `Scoreboard.entries` lists the board by ascending name.
3. `Scoreboard.best?` is the highest score, of several equal ones that of the smallest name.
-/

namespace NodeRanking

/-- Scores by node name, the names ascending. -/
structure Scoreboard where
  entries : List (String × Int)
deriving DecidableEq

namespace Scoreboard

/-- An entry put in its place among the entries; a name that is there already keeps its higher
score. -/
def insertMax (name : String) (score : Int) : List (String × Int) → List (String × Int)
  | [] => [(name, score)]
  | (n, s) :: rest =>
    if name < n then (name, score) :: (n, s) :: rest
    else if name = n then (n, max s score) :: rest
    else (n, s) :: insertMax name score rest

def ofList (entries : List (String × Int)) : Scoreboard :=
  ⟨entries.foldl (fun board e => insertMax e.1 e.2 board) []⟩

/-- The score of a node, if the board has one. -/
def get? (board : Scoreboard) (node : String) : Option Int := board.entries.lookup node

/-- The score of a node that is not on the board. -/
def unlisted : Int := 0

/-- The score of a node, listed or not. -/
def score (board : Scoreboard) (node : String) : Int := (board.get? node).getD unlisted

/-- The entry with the highest score, of equal ones the first. -/
def best? (board : Scoreboard) : Option (String × Int) :=
  NodeRanking.best? (fun e held => held.2 < e.2) board.entries

def size (board : Scoreboard) : Nat := board.entries.length

end Scoreboard

end NodeRanking
