/-!
# Nodes and workloads

1. Amounts of a resource and counts of workloads stop at the largest number of their word
   (`addCapped`, `succCapped`).
2. `Node.book` books a request on a node; `Workload.request` sums the requests of its containers.
3. A `Snapshot` is the state of a cluster with the workloads that wait for a node.
-/

namespace NodeRanking

/-- The sum, or the largest number of 64 bits if that is smaller. -/
def addCapped (a b : UInt64) : UInt64 := UInt64.ofNat (min (a.toNat + b.toNat) (UInt64.size - 1))

/-- One more, or the largest number of 32 bits if there is none. -/
def succCapped (a : UInt32) : UInt32 := UInt32.ofNat (min (a.toNat + 1) (UInt32.size - 1))

theorem toNat_addCapped (a b : UInt64) :
    (addCapped a b).toNat = min (a.toNat + b.toNat) (UInt64.size - 1) := by
  refine UInt64.toNat_ofNat_of_lt ?_
  have : 0 < UInt64.size := by decide
  omega

theorem toNat_succCapped (a : UInt32) :
    (succCapped a).toNat = min (a.toNat + 1) (UInt32.size - 1) := by
  refine UInt32.toNat_ofNat_of_lt ?_
  have : 0 < UInt32.size := by decide
  omega

/-- Amounts of processor time, in thousandths of a core, and of memory, in bytes. -/
structure Resources where
  cpu : UInt64
  memory : UInt64
deriving DecidableEq

namespace Resources

/-- Nothing of either resource. -/
def none : Resources := ⟨0, 0⟩

/-- The sum of each resource, capped. -/
def add (a b : Resources) : Resources := ⟨addCapped a.cpu b.cpu, addCapped a.memory b.memory⟩

instance : Add Resources := ⟨add⟩

end Resources

/-- A node: what it can give, what is requested of it and how many workloads it carries. -/
structure Node where
  name : String
  allocatable : Resources
  requested : Resources
  pods : UInt32
deriving DecidableEq

/-- The node after one more workload with this request. -/
def Node.book (request : Resources) (node : Node) : Node :=
  { node with requested := node.requested + request, pods := succCapped node.pods }

/-- A workload: a name and what each of its containers requests. -/
structure Workload where
  name : String
  containers : List Resources
deriving DecidableEq

/-- What all containers together request. -/
def Workload.request (workload : Workload) : Resources :=
  workload.containers.foldl (· + ·) Resources.none

/-- A cluster at one moment: its nodes, the workload to rank them for, and the workloads that wait
to be placed. -/
structure Snapshot where
  nodes : List Node
  workload : Option Workload
  pending : List Workload
deriving DecidableEq

end NodeRanking
