import Mathlib
import NodeRanking.Placement

/-!
# The books of a placement

1. One attempt on at least one node books the workload on a single one, the chosen candidate, and
   names that node (`place_eq_choice`, `place_eq_book`); without nodes nothing happens (`place_nil`).
2. Booking one workload more is what `Carries` counts (`Carries.of_book`). The requests of the
   containers of one workload and of the workloads on one node are each capped; both caps come to
   one cap of the exact sum.
3. So after any queue every node carries exactly the workloads that were assigned to it
   (`placeQueue_carries`), whatever policy made the choices.
-/

namespace NodeRanking

/-! ## Exact requests -/

/-- The exact sum of what all containers of some workloads request of a resource. -/
def exactRequest (resource : Resources → UInt64) (workloads : List Workload) : ℕ :=
  (workloads.flatMap (·.containers)).map (fun c => (resource c).toNat) |>.sum

@[simp] theorem exactRequest_nil (resource : Resources → UInt64) :
    exactRequest resource [] = 0 := rfl

theorem exactRequest_cons (resource : Resources → UInt64) (w : Workload) (ws : List Workload) :
    exactRequest resource (w :: ws) = exactRequest resource [w] + exactRequest resource ws := by
  simp [exactRequest]

/-- The sums of both resources are capped one by one. -/
theorem toNat_foldl_add (containers : List Resources) (r : Resources) :
    (containers.foldl (· + ·) r).cpu.toNat =
        min (UInt64.size - 1) (r.cpu.toNat + (containers.map (·.cpu.toNat)).sum) ∧
      (containers.foldl (· + ·) r).memory.toNat =
        min (UInt64.size - 1) (r.memory.toNat + (containers.map (·.memory.toNat)).sum) := by
  induction containers generalizing r with
  | nil =>
    have hcpu := r.cpu.toNat_lt_size
    have hmemory := r.memory.toNat_lt_size
    simp only [List.foldl_nil, List.map_nil, List.sum_nil]
    omega
  | cons c cs ih =>
    have hcpu : (r + c).cpu.toNat = min (r.cpu.toNat + c.cpu.toNat) (UInt64.size - 1) :=
      toNat_addCapped _ _
    have hmemory : (r + c).memory.toNat =
        min (r.memory.toNat + c.memory.toNat) (UInt64.size - 1) := toNat_addCapped _ _
    rw [List.foldl_cons, (ih (r + c)).1, (ih (r + c)).2, hcpu, hmemory]
    simp only [List.map_cons, List.sum_cons]
    omega

theorem toNat_request (w : Workload) :
    w.request.cpu.toNat = min (UInt64.size - 1) (exactRequest (·.cpu) [w]) ∧
      w.request.memory.toNat = min (UInt64.size - 1) (exactRequest (·.memory) [w]) := by
  have h := toNat_foldl_add w.containers Resources.none
  have h0 : Resources.none.cpu.toNat = 0 ∧ Resources.none.memory.toNat = 0 := by decide
  rw [h0.1, h0.2, Nat.zero_add, Nat.zero_add] at h
  simpa [exactRequest, Workload.request] using h

/-! ## Nodes before and after -/

/-- One node after some workloads were placed on the other: only the number of workloads and the
requested amounts differ, by exact sums that are capped once. -/
structure Carries (before after : Node) (workloads : List Workload) : Prop where
  name : after.name = before.name
  allocatable : after.allocatable = before.allocatable
  pods : after.pods.toNat = min (UInt32.size - 1) (before.pods.toNat + workloads.length)
  cpu : after.requested.cpu.toNat =
    min (UInt64.size - 1) (before.requested.cpu.toNat + exactRequest (·.cpu) workloads)
  memory : after.requested.memory.toNat =
    min (UInt64.size - 1) (before.requested.memory.toNat + exactRequest (·.memory) workloads)

theorem Carries.refl (node : Node) : Carries node node [] where
  name := rfl
  allocatable := rfl
  pods := by
    have := node.pods.toNat_lt_size
    rw [List.length_nil]
    omega
  cpu := by
    have := node.requested.cpu.toNat_lt_size
    rw [exactRequest_nil]
    omega
  memory := by
    have := node.requested.memory.toNat_lt_size
    rw [exactRequest_nil]
    omega

/-- The first of the workloads is the one that was booked first. -/
theorem Carries.of_book {before after : Node} {w : Workload} {ws : List Workload}
    (h : Carries (before.book w.request) after ws) : Carries before after (w :: ws) where
  name := h.name
  allocatable := h.allocatable
  pods := by
    have hpods : (before.book w.request).pods.toNat =
        min (before.pods.toNat + 1) (UInt32.size - 1) := toNat_succCapped _
    rw [h.pods, hpods, List.length_cons]
    omega
  cpu := by
    have hcpu : (before.book w.request).requested.cpu.toNat =
        min (before.requested.cpu.toNat + w.request.cpu.toNat) (UInt64.size - 1) :=
      toNat_addCapped _ _
    rw [h.cpu, hcpu, (toNat_request w).1, exactRequest_cons _ w ws]
    omega
  memory := by
    have hmemory : (before.book w.request).requested.memory.toNat =
        min (before.requested.memory.toNat + w.request.memory.toNat) (UInt64.size - 1) :=
      toNat_addCapped _ _
    rw [h.memory, hmemory, (toNat_request w).2, exactRequest_cons _ w ws]
    omega

/-! ## One attempt -/

variable (policy : Policy)

theorem mem_candidates {score : String → Int} {nodes : List Node} {c : Candidate}
    (h : c ∈ candidates score nodes) :
    ∃ node, nodes[c.index]? = some node ∧ c.name = node.name ∧ c.score = score node.name := by
  obtain ⟨⟨node, index⟩, hmem, rfl⟩ := List.mem_map.1 h
  exact ⟨node, List.mem_zipIdx_iff_getElem?.1 hmem, rfl, rfl⟩

theorem place_nil (attempt : ℕ) (w : Workload) :
    place policy attempt [] w = (⟨w.name, none⟩, []) := rfl

/-- On at least one node an attempt books the workload on the chosen candidate. -/
theorem place_eq_choice (nodes : List Node) (attempt : ℕ) (hne : nodes ≠ []) (w : Workload) :
    ∃ c, choose? (policy.score (policy.prepare attempt w nodes)) nodes = some c ∧
      place policy attempt nodes w =
        (⟨w.name, some (c.name, c.score)⟩, nodes.modify c.index (Node.book w.request)) := by
  cases hc : choose? (policy.score (policy.prepare attempt w nodes)) nodes with
  | none =>
    have hnil := (best?_eq_none_iff _ _).1 hc
    simp [candidates, hne] at hnil
  | some c =>
    refine ⟨c, rfl, ?_⟩
    unfold place
    dsimp only
    rw [hc]

/-- That candidate is one of the nodes. -/
theorem place_eq_book (attempt : ℕ) {nodes : List Node} (hne : nodes ≠ []) (w : Workload) :
    ∃ i node score, nodes[i]? = some node ∧
      place policy attempt nodes w =
        (⟨w.name, some (node.name, score)⟩, nodes.modify i (Node.book w.request)) := by
  obtain ⟨c, hc, hplace⟩ := place_eq_choice policy nodes attempt hne w
  obtain ⟨node, hnode, hname, -⟩ := mem_candidates (best?_mem hc)
  refine ⟨c.index, node, c.score, hnode, ?_⟩
  rw [hplace, hname]

/-! ## A queue -/

/-- The workloads of a queue that were assigned to a node. -/
def assignedTo (assigned : List ℕ) (workloads : List Workload) (i : ℕ) : List Workload :=
  ((assigned.zip workloads).filter (·.1 = i)).map (·.2)

theorem assignedTo_cons_self (i : ℕ) (assigned : List ℕ) (w : Workload) (ws : List Workload) :
    assignedTo (i :: assigned) (w :: ws) i = w :: assignedTo assigned ws i := by
  simp [assignedTo]

theorem assignedTo_cons_of_ne {i j : ℕ} (h : j ≠ i) (assigned : List ℕ) (w : Workload)
    (ws : List Workload) :
    assignedTo (j :: assigned) (w :: ws) i = assignedTo assigned ws i := by
  simp [assignedTo, h]

/-- Booking changes no name. -/
theorem map_name_getElem?_modify_book (nodes : List Node) (j : ℕ) (request : Resources) (i : ℕ) :
    (nodes.modify j (Node.book request))[i]?.map (·.name) = nodes[i]?.map (·.name) := by
  rw [List.getElem?_modify]
  cases nodes[i]? with
  | none => rfl
  | some node =>
    show some (if j = i then Node.book request node else node).name = some node.name
    split_ifs <;> rfl

theorem placeFrom_nil_nodes (attempt : ℕ) (workloads : List Workload) :
    placeFrom policy attempt [] workloads = (workloads.map fun w => ⟨w.name, none⟩, []) := by
  induction workloads generalizing attempt with
  | nil => rfl
  | cons w ws ih =>
    rw [placeFrom_cons, place_nil]
    dsimp only
    rw [ih, List.map_cons]

theorem map_workload_placeFrom (attempt : ℕ) (nodes : List Node) (workloads : List Workload) :
    (placeFrom policy attempt nodes workloads).1.map (·.workload) = workloads.map (·.name) := by
  induction workloads generalizing attempt nodes with
  | nil => rfl
  | cons w ws ih =>
    have hname : (place policy attempt nodes w).1.workload = w.name := by
      unfold place
      dsimp only
      split <;> rfl
    rw [placeFrom_cons, List.map_cons, List.map_cons, hname, ih]

/-- The workloads of a queue are assigned to nodes one by one, and every node carries those that
were assigned to it. -/
theorem placeFrom_carries (attempt : ℕ) {nodes : List Node} (hne : nodes ≠ [])
    (workloads : List Workload) :
    ∃ assigned : List ℕ, assigned.length = workloads.length ∧
      (∀ i ∈ assigned, i < nodes.length) ∧
      (placeFrom policy attempt nodes workloads).1.map (fun d => d.choice.map (·.1)) =
        assigned.map (fun i => nodes[i]?.map (·.name)) ∧
      (placeFrom policy attempt nodes workloads).2.length = nodes.length ∧
      ∀ i before, nodes[i]? = some before →
        ∃ after, (placeFrom policy attempt nodes workloads).2[i]? = some after ∧
          Carries before after (assignedTo assigned workloads i) := by
  -- the later attempts start from the nodes that the first one leaves, so the nodes vary
  induction workloads generalizing attempt nodes with
  | nil => exact ⟨[], rfl, by simp, rfl, rfl, fun i before h => ⟨before, h, .refl before⟩⟩
  | cons w ws ih =>
    obtain ⟨j, chosen, score, hj, hplace⟩ := place_eq_book policy attempt hne w
    have hne' : nodes.modify j (Node.book w.request) ≠ [] := by
      rwa [ne_eq, List.modify_eq_nil_iff]
    obtain ⟨assigned, hlen, hbound, hnames, hfinal, hcarries⟩ := ih (attempt + 1) hne'
    rw [List.length_modify] at hbound hfinal
    simp only [map_name_getElem?_modify_book] at hnames
    rw [placeFrom_cons, hplace]
    dsimp only
    refine ⟨j :: assigned, congrArg (· + 1) hlen, ?_, ?_, hfinal, ?_⟩
    · intro i hi
      rcases List.mem_cons.1 hi with rfl | hi
      · exact (List.getElem?_eq_some_iff.1 hj).1
      · exact hbound i hi
    · rw [List.map_cons, List.map_cons, hnames, hj]
      rfl
    · intro i before hi
      have hafter := hcarries i
      rw [List.getElem?_modify, hi] at hafter
      -- the node that was booked carries one workload more than the rest of the queue puts on it
      by_cases hji : j = i
      · obtain ⟨after, hafter, hbook⟩ := hafter (before.book w.request) (by simp [hji])
        subst hji
        rw [assignedTo_cons_self]
        exact ⟨after, hafter, hbook.of_book⟩
      · obtain ⟨after, hafter, hsame⟩ := hafter before (by simp [hji])
        rw [assignedTo_cons_of_ne hji]
        exact ⟨after, hafter, hsame⟩

/-- Every workload gets one decision, in the order of the queue. Without nodes no decision has a
node. Otherwise every workload is assigned to one node, which its decision names; every node keeps
its position, name and allocatable amounts, and carries exactly the workloads assigned to it. -/
theorem placeQueue_carries (nodes : List Node) (workloads : List Workload) :
    (placeQueue policy nodes workloads).1.map (·.workload) = workloads.map (·.name) ∧
    (nodes = [] → ∀ d ∈ (placeQueue policy nodes workloads).1, d.choice = none) ∧
    (nodes ≠ [] → ∃ assigned : List ℕ, assigned.length = workloads.length ∧
      (∀ i ∈ assigned, i < nodes.length) ∧
      (placeQueue policy nodes workloads).1.map (fun d => d.choice.map (·.1)) =
        assigned.map (fun i => nodes[i]?.map (·.name)) ∧
      (placeQueue policy nodes workloads).2.length = nodes.length ∧
      ∀ i before, nodes[i]? = some before →
        ∃ after, (placeQueue policy nodes workloads).2[i]? = some after ∧
          Carries before after (assignedTo assigned workloads i)) := by
  refine ⟨map_workload_placeFrom policy 0 nodes workloads, ?_, fun hne =>
    placeFrom_carries policy 0 hne workloads⟩
  rintro rfl d hd
  rw [placeQueue, placeFrom_nil_nodes] at hd
  obtain ⟨w, -, rfl⟩ := List.mem_map.1 hd
  rfl

end NodeRanking
