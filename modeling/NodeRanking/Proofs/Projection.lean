import NodeRanking.Proofs.Choice
import NodeRanking.Proofs.Ranking

/-!
# Rankings ahead of a booking

Projected mode judges a node as if the workload were on it, and booking puts it there; the two work
out the same node (`view_projected`).

1. So a projected ranking is, stage by stage, the current ranking of the booked nodes
   (`rank_projected`), and a current ranking knows nothing of the workload
   (`rank_current_workload`).
2. What projected mode measured of the node that an attempt chooses is what the next current ranking
   measures of it (`projected_ranking_foresees`).
-/

namespace NodeRanking

attribute [local irreducible] Binary64.one Binary64.limit

/-! ## The state that a node is judged in -/

@[simp] theorem view_current (request : Resources) (node : Node) :
    Mode.current.view request node = node := rfl

/-- The state that projected mode works out is the state after booking. -/
@[simp] theorem view_projected (request : Resources) (node : Node) :
    Mode.projected.view request node = node.book request := rfl

theorem measure_current (exp : Binary64 → Binary64) (curve : PowerCurve)
    (request request' : Resources) (nodes : List Node) :
    measure exp .current curve request nodes = measure exp .current curve request' nodes := rfl

theorem measure_projected (exp : Binary64 → Binary64) (curve : PowerCurve)
    (request request' : Resources) (nodes : List Node) :
    measure exp .projected curve request nodes =
      measure exp .current curve request' (nodes.map (Node.book request)) := by
  unfold measure
  rw [List.map_map]
  apply List.map_congr_left
  intro node _
  rw [view_projected, Function.comp_apply, view_current]
  rfl

/-! ## Rankings in either mode -/

section Rankings

variable (exp : Binary64 → Binary64) (settings : Settings) (workload workload' : Workload)
  (nodes : List Node)

/-- A ranking depends on mode, workload and nodes through what is measured only. -/
theorem rank_congr {settings settings' : Settings} {workload workload' : Workload}
    {nodes nodes' : List Node} (hcriteria : settings.criteria = settings'.criteria)
    (hmeasured : measuredRows exp settings workload nodes =
      measuredRows exp settings' workload' nodes') :
    rank exp settings workload nodes = rank exp settings' workload' nodes' := by
  have hweights : settings.repaired.weights = settings'.repaired.weights := by
    simp only [Settings.weights, Settings.repaired, hcriteria]
  have hpolarities : settings.polarities = settings'.polarities := by
    simp only [Settings.polarities, hcriteria]
  have hrows : weightedRows exp settings workload nodes =
      weightedRows exp settings' workload' nodes' := by
    simp only [weightedRows, hweights, hmeasured]
  simp only [rank_eq, hpolarities, hrows]
  congr 1
  funext e
  simp only [rankingOf, hmeasured, hrows]

/-- In current mode the workload does not matter. -/
theorem rank_current_workload :
    rank exp { settings with mode := .current } workload nodes =
      rank exp { settings with mode := .current } workload' nodes := by
  apply rank_congr exp
  · rfl
  · exact measure_current exp _ _ _ nodes

/-- Projected mode ranks the nodes as if the workload were booked on each of them. -/
theorem rank_projected :
    rank exp { settings with mode := .projected } workload nodes =
      rank exp { settings with mode := .current } workload'
        (nodes.map (Node.book workload.request)) := by
  apply rank_congr exp
  · rfl
  · exact measure_projected exp _ _ _ nodes

end Rankings

/-! ## The row of the chosen node -/

section Chosen

variable (exp : Binary64 → Binary64) (settings : Settings) {nodes : List Node} {i : ℕ}
  {node : Node}

/-- What a ranking measures of the node at a place. -/
theorem measured_getElem?_of_rank (workload : Workload) (h : nodes[i]? = some node) :
    (rank exp settings workload nodes).bind (·.measured[i]?) =
      some ⟨node.name, (settings.repaired.mode.view workload.request node).metrics exp
        settings.repaired.curve⟩ := by
  have hne : nodes ≠ [] := by
    rintro rfl
    simp at h
  obtain ⟨r, hr⟩ := exists_rank exp settings workload hne
  rw [hr, Option.bind_some]
  obtain ⟨e, -, rfl⟩ := exists_isExtreme hr
  show (measuredRows exp settings workload nodes)[i]? = _
  unfold measuredRows measure
  rw [List.getElem?_map, h, Option.map_some]

/-- The projected row of a node before it is booked is its row after that in current mode. -/
theorem measured_projected_eq_booked (workload next : Workload) (h : nodes[i]? = some node) :
    (rank exp { settings with mode := .projected } workload nodes).bind (·.measured[i]?) =
      (rank exp { settings with mode := .current } next
        (nodes.modify i (Node.book workload.request))).bind (·.measured[i]?) := by
  have hbooked : (nodes.modify i (Node.book workload.request))[i]? =
      some (node.book workload.request) := by
    rw [List.getElem?_modify, h]
    simp
  rw [measured_getElem?_of_rank exp _ workload h, measured_getElem?_of_rank exp _ next hbooked]
  rfl

end Chosen

/-- A projected ranking is the current ranking of the nodes with the workload booked on each, and a
current ranking is the same for every workload. Whatever policy places a queue, what projected mode
measures of the node that an attempt is about to book is what the next current ranking measures of
it. -/
theorem projected_ranking_foresees (exp : Binary64 → Binary64) (settings : Settings)
    (policy : Policy) {nodes : List Node} (hne : nodes ≠ []) (workloads : List Workload) :
    (∀ (workload workload' : Workload) (nodes : List Node),
      rank exp { settings with mode := .projected } workload nodes =
          rank exp { settings with mode := .current } workload'
            (nodes.map (Node.book workload.request)) ∧
        rank exp { settings with mode := .current } workload nodes =
          rank exp { settings with mode := .current } workload' nodes) ∧
    ∀ i w, workloads[i]? = some w → ∃ index node score row,
      (nodesBefore policy nodes workloads i)[index]? = some node ∧
      (placeQueue policy nodes workloads).1[i]? = some ⟨w.name, some (node.name, score)⟩ ∧
      nodesBefore policy nodes workloads (i + 1) =
        (nodesBefore policy nodes workloads i).modify index (Node.book w.request) ∧
      (rank exp { settings with mode := .projected } w (nodesBefore policy nodes workloads i)).bind
        (·.measured[index]?) = some row ∧
      ∀ next, (rank exp { settings with mode := .current } next
        (nodesBefore policy nodes workloads (i + 1))).bind (·.measured[index]?) = some row := by
  constructor
  · intro workload workload' nodes
    exact ⟨rank_projected exp settings workload workload' nodes,
      rank_current_workload exp settings workload workload' nodes⟩
  · intro i w hw
    obtain ⟨hdecision, hafter⟩ := placeQueue_attempt policy nodes hw
    have hbefore : nodesBefore policy nodes workloads i ≠ [] := by
      rw [← List.length_pos_iff, length_nodesBefore]
      exact List.length_pos_iff.2 hne
    obtain ⟨index, node, score, hnode, hplace⟩ := place_eq_book policy i hbefore w
    rw [hplace] at hdecision hafter
    refine ⟨index, node, score, _, hnode, hdecision, hafter,
      measured_getElem?_of_rank exp _ w hnode, ?_⟩
    intro next
    rw [hafter, ← measured_projected_eq_booked exp settings w next hnode]
    exact measured_getElem?_of_rank exp _ w hnode

/-! ## A node at its limits -/

/-- A node that carries as much as its words can count. -/
def brimful : Node :=
  ⟨"brimful", ⟨8, 16⟩, ⟨18446744073709551615, 18446744073709551614⟩, 4294967295⟩

/-- A workload whose containers request more than a word can count. -/
def twoContainers : Workload := ⟨"two", [⟨1, 1⟩, ⟨18446744073709551615, 1⟩]⟩

/-- All three quantities of the node stop at their limits, in the projection as in the booking. -/
theorem foresees_brimful :
    [brimful] ≠ [] ∧ [twoContainers][0]? = some twoContainers ∧
    brimful.book twoContainers.request =
      { brimful with requested := ⟨18446744073709551615, 18446744073709551615⟩ } ∧ ∃ row,
      (rank (fun _ => 1) { Settings.standard with mode := .projected } twoContainers
        [brimful]).bind (·.measured[0]?) = some row ∧
      ∀ next, (rank (fun _ => 1) { Settings.standard with mode := .current } next
        [brimful.book twoContainers.request]).bind (·.measured[0]?) = some row := by
  have hne : [brimful] ≠ [] := by simp
  have hfirst : [twoContainers][0]? = some twoContainers := rfl
  have hcapped : brimful.book twoContainers.request =
      { brimful with requested := ⟨18446744073709551615, 18446744073709551615⟩ } := by decide
  obtain ⟨-, hrun⟩ := projected_ranking_foresees (fun _ => 1) .standard
    (.powerAware (fun _ => 1) .standard) hne [twoContainers]
  obtain ⟨index, node, score, row, hnode, -, hafter, hrow, hnext⟩ := hrun 0 twoContainers hfirst
  rw [nodesBefore_zero] at hnode hafter hrow
  obtain rfl : index = 0 := by
    have := (List.getElem?_eq_some_iff.1 hnode).1
    simpa using this
  rw [hafter] at hnext
  exact ⟨hne, hfirst, hcapped, row, hrow, hnext⟩

end NodeRanking
