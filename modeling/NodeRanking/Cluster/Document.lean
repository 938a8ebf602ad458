import NodeRanking.Amount
import NodeRanking.Cluster.Basic

/-!
# Snapshots as documents

1. `Snapshot.ofData` decodes a snapshot. Names and what can be allocated must be there; amounts and
   counts that are left out are zero, lists that are left out are empty.
2. `Snapshot.toData` is the document of a snapshot, with every field in it.
-/

namespace NodeRanking

open Data

/-! ## Resources -/

/-- The two fields of resources. -/
def Resources.set (resource : Resource) (amount : UInt64) (r : Resources) : Resources :=
  match resource with
  | .cpu => { r with cpu := amount }
  | .memory => { r with memory := amount }

/-- The form of resources whose fields have these names. -/
def Resources.form (name : Resource → String) : RecordForm Resource Resources where
  fields := [.cpu, .memory]
  names := fun resource => [name resource]
  read := fun _ resource value r => do
    let amount ← Amount.ofData resource value
    return r.set resource amount

def Node.resourceName : Resource → String
  | .cpu => "cpu_millis"
  | .memory => "memory_bytes"

def Workload.resourceName : Resource → String
  | .cpu => "cpu"
  | .memory => "memory"

/-- Resources of a document. -/
def Resources.ofData (name : Resource → String) (dialect : Dialect) : Data → Decoded Resources :=
  (Resources.form name).decode dialect Resources.none

def Resources.toData (name : Resource → String) (r : Resources) : Data :=
  .record [(name .cpu, .integer r.cpu.toNat), (name .memory, .integer r.memory.toNat)]

/-! ## Nodes -/

namespace Node

inductive Field where
  | name
  | allocatable
  | requested
  | pods
deriving DecidableEq

structure Draft where
  name : Option String
  allocatable : Option Resources
  requested : Resources
  pods : UInt32

def form : RecordForm Field Draft where
  fields := [.name, .allocatable, .requested, .pods]
  names
    | .name => ["name"]
    | .allocatable => ["allocatable"]
    | .requested => ["requested"]
    | .pods => ["pods"]
  read := fun dialect field value draft =>
    match field with
    | .name => do
      let name ← asText value
      return { draft with name := some name }
    | .allocatable => do
      let allocatable ← Resources.ofData resourceName dialect value
      return { draft with allocatable := some allocatable }
    | .requested => do
      let requested ← Resources.ofData resourceName dialect value
      return { draft with requested }
    | .pods => do
      let pods ← asCount value
      return { draft with pods }

def ofData (dialect : Dialect) (value : Data) : Decoded Node := do
  match ← form.decode dialect ⟨none, none, Resources.none, 0⟩ value with
  | ⟨some name, some allocatable, requested, pods⟩ => .ok ⟨name, allocatable, requested, pods⟩
  | _ => .error .shape

def toData (node : Node) : Data :=
  .record
    [("name", .text node.name),
      ("allocatable", node.allocatable.toData resourceName),
      ("requested", node.requested.toData resourceName),
      ("pods", .integer node.pods.toNat)]

end Node

/-! ## Workloads -/

namespace Workload

inductive Field where
  | name
  | containers
deriving DecidableEq

structure Draft where
  name : Option String
  containers : List Resources

def form : RecordForm Field Draft where
  fields := [.name, .containers]
  names
    | .name => ["name"]
    | .containers => ["containers"]
  read := fun dialect field value draft =>
    match field with
    | .name => do
      let name ← asText value
      return { draft with name := some name }
    | .containers => do
      let containers ← asList (Resources.ofData resourceName dialect) value
      return { draft with containers }

def ofData (dialect : Dialect) (value : Data) : Decoded Workload := do
  match ← form.decode dialect ⟨none, []⟩ value with
  | ⟨some name, containers⟩ => .ok ⟨name, containers⟩
  | _ => .error .shape

def toData (workload : Workload) : Data :=
  .record
    [("name", .text workload.name),
      ("containers", .list (workload.containers.map (·.toData resourceName)))]

end Workload

/-! ## Snapshots -/

namespace Snapshot

inductive Field where
  | nodes
  | workload
  | pending
deriving DecidableEq

/-- A snapshot of nothing. -/
def empty : Snapshot := ⟨[], none, []⟩

def form : RecordForm Field Snapshot where
  fields := [.nodes, .workload, .pending]
  names
    | .nodes => ["nodes"]
    | .workload => ["workload"]
    | .pending => ["pending"]
  read := fun dialect field value snapshot =>
    match field with
    | .nodes => do
      let nodes ← asList (Node.ofData dialect) value
      return { snapshot with nodes }
    | .workload => do
      let workload ← asOption (Workload.ofData dialect) value
      return { snapshot with workload }
    | .pending => do
      let pending ← asList (Workload.ofData dialect) value
      return { snapshot with pending }

def ofData (dialect : Dialect) : Data → Decoded Snapshot := form.decode dialect empty

def toData (snapshot : Snapshot) : Data :=
  .record
    [("nodes", .list (snapshot.nodes.map Node.toData)),
      ("workload", (snapshot.workload.map Workload.toData).getD .null),
      ("pending", .list (snapshot.pending.map Workload.toData))]

end Snapshot

end NodeRanking
