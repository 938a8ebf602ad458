import NodeRanking.Proofs.Placement
import NodeRanking.Proofs.TopEntry

/-!
# The choice of a node

1. The chosen candidate comes first by score, then by name, then by position
   (`order_choose?_le`). So its name and score are the top entry of what is said of the nodes
   (`isTop_choose?`), and it is the first node of its name (`index_choose?_le`).
2. A queue is a run of attempts, each on the nodes that the one before it left
   (`placeQueue_attempt`), and none of them changes a name (`map_name_nodesBefore`).
-/

namespace NodeRanking

/-! ## The chosen candidate -/

section Choose

variable {score : String → Int} {nodes : List Node} {c d : Candidate} {node : Node} {i : ℕ}

/-- The order of candidates: by score, by name, and by position. -/
def Candidate.order (c : Candidate) : (Int ×ₗ String) ×ₗ ℕ :=
  toLex (precedence (c.name, c.score), c.index)

theorem Candidate.beats_iff :
    c.beats d = true ↔ precedence (c.name, c.score) < precedence (d.name, d.score) := by
  unfold Candidate.beats
  rw [precedence_lt]
  simp

theorem candidate_mem (h : nodes[i]? = some node) :
    ⟨i, node.name, score node.name⟩ ∈ candidates score nodes :=
  List.mem_map.2 ⟨(node, i), List.mem_zipIdx_iff_getElem?.2 h, rfl⟩

/-- A later candidate beats an earlier one exactly if it comes before it in the order: beating never
looks at positions, and of level candidates the earlier one stays. -/
theorem pairwise_candidates (score : String → Int) (nodes : List Node) :
    (candidates score nodes).Pairwise fun c d => d.beats c = true ↔ d.order < c.order := by
  unfold candidates
  rw [List.pairwise_map, List.pairwise_iff_getElem]
  intro i j hi hj hij
  rw [List.getElem_zipIdx, List.getElem_zipIdx, Candidate.beats_iff]
  unfold Candidate.order
  rw [Prod.Lex.toLex_lt_toLex]
  have hindex : ¬0 + j < 0 + i := by omega
  simp only [hindex, and_false, or_false]

/-- No candidate comes before the chosen one. -/
theorem order_choose?_le (h : choose? score nodes = some c) :
    ∀ d ∈ candidates score nodes, c.order ≤ d.order :=
  key_best?_le Candidate.order (pairwise_candidates score nodes) h

/-- The chosen candidate has the highest score, and of several ones the smallest name. -/
theorem isTop_choose? (h : choose? score nodes = some c) :
    IsTop (nodes.map fun node => (node.name, score node.name)) (c.name, c.score) := by
  obtain ⟨node, hnode, hname, hscore⟩ := mem_candidates (best?_mem h)
  refine ⟨List.mem_map.2 ⟨node, List.mem_of_getElem? hnode, by rw [hname, hscore]⟩, ?_⟩
  intro e he
  obtain ⟨other, hother, rfl⟩ := List.mem_map.1 he
  obtain ⟨j, hj⟩ := List.mem_iff_getElem?.1 hother
  have hle := order_choose?_le h _ (candidate_mem hj)
  exact (Prod.Lex.toLex_le_toLex.1 hle).elim le_of_lt fun hlevel => hlevel.1.le

/-- The chosen candidate is the first node of its name. -/
theorem index_choose?_le (h : choose? score nodes = some c) (hi : nodes[i]? = some node)
    (hname : node.name = c.name) : c.index ≤ i := by
  obtain ⟨chosen, -, hchosen, hscore⟩ := mem_candidates (best?_mem h)
  have hle := order_choose?_le h ⟨i, node.name, score node.name⟩ (candidate_mem hi)
  unfold Candidate.order at hle
  rw [hname, show score c.name = c.score by rw [hscore, hchosen]] at hle
  exact (Prod.Lex.toLex_le_toLex.1 hle).elim (fun hlt => absurd hlt (lt_irrefl _)) And.right

end Choose

/-! ## Attempts -/

variable (policy : Policy) (nodes : List Node)

theorem map_name_modify_book (index : ℕ) (request : Resources) :
    (nodes.modify index (Node.book request)).map (·.name) = nodes.map (·.name) := by
  apply List.ext_getElem?
  intro j
  rw [List.getElem?_map, List.getElem?_map, map_name_getElem?_modify_book]

theorem map_name_place (attempt : ℕ) (w : Workload) :
    (place policy attempt nodes w).2.map (·.name) = nodes.map (·.name) := by
  by_cases hne : nodes = []
  · rw [hne, place_nil]
  · obtain ⟨c, -, hplace⟩ := place_eq_choice policy nodes attempt hne w
    rw [hplace]
    exact map_name_modify_book _ _ _

theorem map_name_placeFrom (attempt : ℕ) (workloads : List Workload) :
    (placeFrom policy attempt nodes workloads).2.map (·.name) = nodes.map (·.name) := by
  induction workloads generalizing attempt nodes with
  | nil => rfl
  | cons w ws ih =>
    rw [placeFrom_cons]
    dsimp only
    rw [ih, map_name_place]

/-- The nodes as attempt `i` of a queue finds them. -/
def nodesBefore (workloads : List Workload) (i : ℕ) : List Node :=
  (placeQueue policy nodes (workloads.take i)).2

theorem nodesBefore_zero (workloads : List Workload) :
    nodesBefore policy nodes workloads 0 = nodes := rfl

theorem map_name_nodesBefore (workloads : List Workload) (i : ℕ) :
    (nodesBefore policy nodes workloads i).map (·.name) = nodes.map (·.name) :=
  map_name_placeFrom policy nodes 0 (workloads.take i)

theorem length_nodesBefore (workloads : List Workload) (i : ℕ) :
    (nodesBefore policy nodes workloads i).length = nodes.length := by
  have h := congrArg List.length (map_name_nodesBefore policy nodes workloads i)
  rwa [List.length_map, List.length_map] at h

theorem placeFrom_append (attempt : ℕ) (nodes : List Node) (ws vs : List Workload) :
    placeFrom policy attempt nodes (ws ++ vs) =
      let first := placeFrom policy attempt nodes ws
      let others := placeFrom policy (attempt + ws.length) first.2 vs
      (first.1 ++ others.1, others.2) := by
  induction ws generalizing attempt nodes with
  | nil => rfl
  | cons w ws ih =>
    rw [List.cons_append, placeFrom_cons, placeFrom_cons]
    dsimp only
    rw [ih, List.length_cons, Nat.add_assoc, Nat.add_comm 1, List.cons_append]

theorem length_placeFrom (attempt : ℕ) (workloads : List Workload) :
    (placeFrom policy attempt nodes workloads).1.length = workloads.length := by
  have h := congrArg List.length (map_workload_placeFrom policy attempt nodes workloads)
  rwa [List.length_map, List.length_map] at h

/-- Attempt `i` of a queue decides on the nodes that it finds, and leaves them to the next one. -/
theorem placeQueue_attempt {workloads : List Workload} {i : ℕ} {w : Workload}
    (h : workloads[i]? = some w) :
    (placeQueue policy nodes workloads).1[i]? =
        some (place policy i (nodesBefore policy nodes workloads i) w).1 ∧
      nodesBefore policy nodes workloads (i + 1) =
        (place policy i (nodesBefore policy nodes workloads i) w).2 := by
  obtain ⟨hi, hw⟩ := List.getElem?_eq_some_iff.1 h
  have htake : (workloads.take i).length = i := List.length_take_of_le hi.le
  constructor
  · have hsplit : workloads = workloads.take i ++ w :: workloads.drop (i + 1) := by
      rw [← hw, List.cons_getElem_drop_succ, List.take_append_drop]
    have hlen := length_placeFrom policy nodes 0 (workloads.take i)
    rw [htake] at hlen
    unfold placeQueue nodesBefore
    conv_lhs => rw [hsplit]
    rw [placeFrom_append]
    dsimp only
    rw [List.getElem?_append_right hlen.le, hlen, Nat.sub_self, Nat.zero_add, htake, placeFrom_cons]
    rfl
  · unfold nodesBefore placeQueue
    rw [List.take_add_one, h, Option.toList_some, placeFrom_append]
    dsimp only
    rw [placeFrom_cons, Nat.zero_add, htake]
    rfl

end NodeRanking
