import NodeRanking.Cluster.Basic
import NodeRanking.Settings.Basic

/-!
# The decision matrix

One row of metrics for each candidate, in the order of the candidates.

1. `measure` takes the metrics of the nodes, as they are or as they would be with the workload.
2. `euclideanNorm` is the norm of a column. The values are divided by the largest magnitude before
   they are squared, so that large columns do not overflow, and the squares are summed in ascending
   order, so that the order of the rows does not matter.
3. `normalize` divides every column by its norm; `weigh` multiplies it by the weight of its
   criterion.
-/

namespace NodeRanking

structure Row where
  name : String
  metrics : Metrics
deriving DecidableEq

/-! ## Measuring -/

/-- The share of what can be given that is requested; zero where nothing can be given. -/
def usage (requested allocatable : UInt64) : Binary64 :=
  if allocatable = 0 then 0
  else Binary64.ofNat requested.toNat / Binary64.ofNat allocatable.toNat

def Node.metrics (exp : Binary64 → Binary64) (curve : PowerCurve) (node : Node) : Metrics :=
  let cpu := usage node.requested.cpu node.allocatable.cpu
  let memory := usage node.requested.memory node.allocatable.memory
  ⟨Binary64.ofNat node.pods.toNat, cpu, memory, curve.powerAt exp cpu⟩

/-- The node in the state that it is judged in: as it is, or as if it carried one more workload with
the request. -/
def Mode.view (mode : Mode) (request : Resources) (node : Node) : Node :=
  match mode with
  | .current => node
  | .projected =>
    { node with requested := node.requested + request, pods := succCapped node.pods }

def measure (exp : Binary64 → Binary64) (mode : Mode) (curve : PowerCurve) (request : Resources)
    (nodes : List Node) : List Row :=
  nodes.map fun node => ⟨node.name, (mode.view request node).metrics exp curve⟩

/-! ## Normalizing -/

def column (rows : List Row) (c : Criterion) : List Binary64 :=
  rows.map fun row => row.metrics.get c

/-- The largest magnitude in a list, zero for the empty one. -/
def largestMagnitude (xs : List Binary64) : Binary64 :=
  xs.foldl (fun held x => held.max x.abs) 0

/-- The Euclidean norm of a column. -/
def euclideanNorm (xs : List Binary64) : Binary64 :=
  let scale := largestMagnitude xs
  if scale.isZero || !scale.isFinite then scale
  else scale * (Binary64.sumAscending (xs.map fun x => (x / scale).square)).sqrt

def norms (rows : List Row) : Metrics := .ofFn fun c => euclideanNorm (column rows c)

/-- Denominators below this count as zero. -/
def negligible : Binary64 := 1e-9

/-- The quotient, or zero where the denominator counts as zero or the quotient is not finite. -/
def divideOrZero (x y : Binary64) : Binary64 :=
  if y < negligible then 0
  else
    let quotient := x / y
    if quotient.isFinite then quotient else 0

/-- Every row with its metrics changed by criterion. -/
def mapRows (f : Criterion → Binary64 → Binary64) (rows : List Row) : List Row :=
  rows.map fun row => { row with metrics := row.metrics.map f }

/-- Every column divided by its norm. -/
def normalize (rows : List Row) : List Row :=
  let norms := norms rows
  mapRows (fun c x => divideOrZero x (norms.get c)) rows

/-- Every column multiplied by its weight. -/
def weigh (weights : ByCriterion Binary64) (rows : List Row) : List Row :=
  mapRows (fun c x => x * weights.get c) rows

theorem column_mapRows (f : Criterion → Binary64 → Binary64) (rows : List Row) (c : Criterion) :
    column (mapRows f rows) c = (column rows c).map (f c) := by
  simp [column, mapRows, List.map_map, Function.comp_def]

end NodeRanking
