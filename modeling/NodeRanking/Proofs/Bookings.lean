import NodeRanking.Proofs.Choice

/-!
# Bookings by name

Where no two nodes have one name, a decision says which node was booked, whatever policy made it.

1. An attempt books the node that its decision names (`placeQueue_attempt_named`).
2. So before any attempt of a queue of equal requests every node was booked as often as the decisions
   so far name it (`nodesBefore_eq_map`).
-/

namespace NodeRanking

/-! ## Decisions that name a node -/

/-- How many decisions name a node. -/
def placedOn (decisions : List Decision) (name : String) : ℕ :=
  decisions.countP fun d => d.choice.map (·.1) = some name

@[simp] theorem placedOn_nil (name : String) : placedOn [] name = 0 := rfl

theorem placedOn_take_succ {decisions : List Decision} {i : ℕ} {workload chosen : String}
    {score : Int} (h : decisions[i]? = some ⟨workload, some (chosen, score)⟩) (name : String) :
    placedOn (decisions.take (i + 1)) name =
      placedOn (decisions.take i) name + if chosen = name then 1 else 0 := by
  unfold placedOn
  rw [List.take_add_one, h, Option.toList_some, List.countP_append, List.countP_singleton]
  simp

/-! ## Nodes of different names -/

/-- A change at the place of a node is a change of the node of that name. -/
theorem modify_eq_map_of_nodup {nodes : List Node} (hnames : (nodes.map (·.name)).Nodup) {i : ℕ}
    {node : Node} (h : nodes[i]? = some node) (f : Node → Node) :
    nodes.modify i f = nodes.map fun other => if other.name = node.name then f other else other := by
  apply List.ext_getElem?
  intro j
  rw [List.getElem?_modify, List.getElem?_map]
  cases hj : nodes[j]? with
  | none => rfl
  | some other =>
    have hname : other.name = node.name ↔ i = j := by
      have hat : (nodes.map (·.name))[i]? = some node.name := by
        rw [List.getElem?_map, h, Option.map_some]
      have hat' : (nodes.map (·.name))[j]? = some other.name := by
        rw [List.getElem?_map, hj, Option.map_some]
      have hlt : i < (nodes.map (·.name)).length := (List.getElem?_eq_some_iff.1 hat).1
      rw [← List.getElem?_inj hlt hnames, hat, hat', Option.some.injEq, eq_comm]
    simp only [Option.map_some, hname]
    rfl

theorem name_iterate_book (request : Resources) (n : ℕ) (node : Node) :
    ((Node.book request)^[n] node).name = node.name := by
  induction n with
  | zero => rfl
  | succ n ih => rwa [Function.iterate_succ_apply']

section Run

variable (policy : Policy) {nodes : List Node} (hnames : (nodes.map (·.name)).Nodup)
  {workloads : List Workload}

include hnames

/-- An attempt books the node that its decision names. -/
theorem placeQueue_attempt_named (hne : nodes ≠ []) {i : ℕ} {w : Workload}
    (h : workloads[i]? = some w) :
    ∃ name score, (placeQueue policy nodes workloads).1[i]? = some ⟨w.name, some (name, score)⟩ ∧
      nodesBefore policy nodes workloads (i + 1) =
        (nodesBefore policy nodes workloads i).map fun node =>
          if node.name = name then node.book w.request else node := by
  obtain ⟨hdecision, hafter⟩ := placeQueue_attempt policy nodes h
  have hbefore : nodesBefore policy nodes workloads i ≠ [] := by
    rw [← List.length_pos_iff, length_nodesBefore]
    exact List.length_pos_iff.2 hne
  obtain ⟨c, hc, hplace⟩ := place_eq_choice policy _ i hbefore w
  obtain ⟨node, hnode, hname, -⟩ := mem_candidates (best?_mem hc)
  rw [hplace] at hdecision hafter
  refine ⟨c.name, c.score, hdecision, ?_⟩
  rw [hafter, hname]
  apply modify_eq_map_of_nodup _ hnode
  rwa [map_name_nodesBefore]

variable {request : Resources} (hrequest : ∀ w ∈ workloads, w.request = request)

include hrequest

/-- Before an attempt every node was booked as often as it was named. -/
theorem nodesBefore_eq_map {i : ℕ} (hi : i ≤ workloads.length) :
    nodesBefore policy nodes workloads i = nodes.map fun node =>
      (Node.book request)^[placedOn ((placeQueue policy nodes workloads).1.take i) node.name]
        node := by
  induction i with
  | zero => simp [nodesBefore_zero]
  | succ i ih =>
    by_cases hne : nodes = []
    · have hlength := length_nodesBefore policy nodes workloads (i + 1)
      rw [hne, List.length_nil, List.length_eq_zero_iff] at hlength
      rw [hne, List.map_nil, hlength]
    have hw : workloads[i]? = some workloads[i] := List.getElem?_eq_getElem hi
    obtain ⟨name, score, hdecision, hafter⟩ := placeQueue_attempt_named policy hnames hne hw
    rw [hafter, ih (Nat.le_of_succ_le hi), List.map_map, hrequest _ (List.getElem_mem hi)]
    apply List.map_congr_left
    intro node _
    rw [Function.comp_apply, name_iterate_book, placedOn_take_succ hdecision]
    by_cases hname : node.name = name
    · rw [if_pos hname, if_pos hname.symm, Function.iterate_succ_apply']
    · rw [if_neg hname, if_neg (Ne.symm hname), Nat.add_zero]

end Run

end NodeRanking
