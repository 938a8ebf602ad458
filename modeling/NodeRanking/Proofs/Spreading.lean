import NodeRanking.Proofs.Attempt
import NodeRanking.Proofs.Bookings
import NodeRanking.Proofs.ExtremeRatings
import NodeRanking.Proofs.Measuring

/-!
# Equal workloads are spread over equal nodes

Nodes that differ only in their names get equal workloads in turn, in the order of their names.

1. Where every criterion is a cost and the curve saturates, a lighter node dominates a heavier one
   (`dominates_of_lighter`). So nodes that were booked equally often are level, and where some were
   booked once more than the others, the others have the full score and they have none
   (`entries_of_even`, `entries_of_uneven`).
2. `turns` counts how often a node was due, and an attempt chooses the node that is due next
   (`isTop_of_turns`). By induction over the queue the decisions name every node as often as it was
   due (`placedOn_eq_turns`), which makes them go round (`placeQueue_roundRobin`).
-/

namespace NodeRanking

open Binary64

/-! ## Equal nodes -/

/-- Nodes that can give the same and carry the same. -/
def Alike (nodes : List Node) : Prop :=
  ∀ a ∈ nodes, ∀ b ∈ nodes,
    a.allocatable = b.allocatable ∧ a.requested = b.requested ∧ a.pods = b.pods

theorem Alike.lighter {nodes : List Node} (h : Alike nodes) {a b : Node} (ha : a ∈ nodes)
    (hb : b ∈ nodes) : a.Lighter b := by
  obtain ⟨hallocatable, hrequested, hpods⟩ := h a ha b hb
  exact ⟨hallocatable, by rw [hrequested], by rw [hrequested], by rw [hpods]⟩

/-- What is assumed of the exponential and the settings: on arguments up to zero the exponential is
between 0 and 1 and does not fall, every criterion is a cost, and the curve saturates. -/
structure Spreads (exp : Binary64 → Binary64) (settings : Settings) : Prop where
  unit : UnitBelowZero exp
  mono : MonoBelowZero exp
  cost : ∀ c, settings.repaired.polarities.get c = .cost
  saturating : settings.curve.shape = .saturating

section Loads

variable {exp : Binary64 → Binary64} {settings : Settings} (h : Spreads exp settings)

include h in
/-- Carrying less is better by every criterion. -/
theorem dominates_of_lighter {a b : Node} (hab : a.Lighter b) :
    Dominates settings.polarities (a.metrics exp settings.repaired.curve)
      (b.metrics exp settings.repaired.curve) := by
  intro c
  rw [← settings.polarities_repaired, h.cost c]
  exact hab.metrics_le settings.usable_curve_repaired
    (settings.shape_repaired.trans h.saturating) h.unit h.mono c

variable {nodes : List Node} (halike : Alike nodes) (load : String → ℕ) (request : Resources)
  {workload : Workload} {r : Ranking}

/-- A standing for each node, the better the less was booked on it. -/
structure Graded (settings : Settings) (nodes : List Node) (load : String → ℕ) (r : Ranking)
    (f : Node → Standing) : Prop where
  entries : r.entries = nodes.map fun node => (node.name, (f node).rating.score)
  mem : ∀ node ∈ nodes, f node ∈ r.standings
  best : ∀ node ∈ nodes, (∀ other ∈ nodes, load node.name ≤ load other.name) →
    ∀ b ∈ r.standings, Dominates settings.polarities (f node).metrics b.metrics
  worst : ∀ node ∈ nodes, (∀ other ∈ nodes, load other.name ≤ load node.name) →
    ∀ b ∈ r.standings, Dominates settings.polarities b.metrics (f node).metrics

variable (hr : rank exp settings workload (nodes.map fun node =>
    (Node.book request)^[load node.name] node) = some r)

include h halike hr

/-- Booking less often leaves a lighter node, and so a better standing. -/
theorem exists_graded : ∃ f, Graded settings nodes load r f := by
  obtain ⟨g, hg, hspec⟩ := exists_standings_eq_map hr
  let f (node : Node) : Standing := g ((Node.book request)^[load node.name] node)
  have hf : r.standings = nodes.map f := by
    rw [hg, List.map_map]
    rfl
  have hdominates : ∀ a ∈ nodes, ∀ b ∈ nodes, load a.name ≤ load b.name →
      Dominates settings.polarities (f a).metrics (f b).metrics := by
    intro a ha b hb hload
    rw [(hspec _).2, (hspec _).2]
    apply dominates_of_lighter h
    exact ((halike.lighter ha hb).iterate_book request hload).view workload.request _
  refine ⟨f, { entries := ?_, mem := ?_, best := ?_, worst := ?_ }⟩
  · rw [entries_eq_map_standings hr, hf, List.map_map]
    apply List.map_congr_left
    intro node _
    rw [Function.comp_apply, (hspec _).1, name_iterate_book]
  · intro node hnode
    rw [hf]
    exact List.mem_map_of_mem hnode
  · intro node hnode hload b hb
    rw [hf] at hb
    obtain ⟨other, hother, rfl⟩ := List.mem_map.1 hb
    exact hdominates node hnode other hother (hload other hother)
  · intro node hnode hload b hb
    rw [hf] at hb
    obtain ⟨other, hother, rfl⟩ := List.mem_map.1 hb
    exact hdominates other hother node hnode (hload other hother)

/-- Nodes that were booked equally often are level. -/
theorem entries_of_even (heven : ∀ a ∈ nodes, ∀ b ∈ nodes, load a.name = load b.name) :
    r.entries = nodes.map fun node => (node.name, 50) := by
  obtain ⟨f, hf⟩ := exists_graded h halike load request hr
  rw [hf.entries]
  apply List.map_congr_left
  intro node hnode
  have hbest := hf.best node hnode fun other hother => (heven node hnode other hother).le
  have hworst := hf.worst node hnode fun other hother => (heven other hother node hnode).le
  rw [(rating_of_level hr (hf.mem node hnode) hbest hworst).2]

/-- Where some nodes were booked once more than the others, the others have the full score, and they
have none. -/
theorem entries_of_uneven {m : ℕ}
    (huneven : ∀ node ∈ nodes, load node.name = m ∨ load node.name = m + 1)
    (hfin : r.span.isFinite = true) (hapart : ¬r.span < negligible) :
    r.entries = nodes.map fun node => (node.name, if load node.name = m then 100 else 0) := by
  obtain ⟨f, hf⟩ := exists_graded h halike load request hr
  rw [hf.entries]
  apply List.map_congr_left
  intro node hnode
  by_cases hm : load node.name = m
  · have hbest := hf.best node hnode fun other hother => by
      have := huneven other hother
      omega
    rw [if_pos hm, (rating_of_best hr (hf.mem node hnode) hfin hapart hbest).2]
    rfl
  · have hworst := hf.worst node hnode fun other hother => by
      have := huneven other hother
      have := huneven node hnode
      omega
    rw [if_neg hm, (rating_of_worst hr (hf.mem node hnode) hfin hapart hworst).2]

end Loads

/-! ## Taking turns -/

/-- How many of the first `i` attempts are due to member `j` of `k` that take turns. -/
def turns (k j i : ℕ) : ℕ := i.count (· ≡ j [MOD k])

section Turns

variable {k j : ℕ} (hj : j < k) (i : ℕ)

include hj

theorem turns_eq : turns k j i = i / k + if j < i % k then 1 else 0 := by
  unfold turns
  rw [Nat.count_modEq_card i (Nat.zero_lt_of_lt hj), Nat.mod_eq_of_lt hj]

theorem turns_succ : turns k j (i + 1) = turns k j i + if i % k = j then 1 else 0 := by
  have hdue : i ≡ j [MOD k] ↔ i % k = j := by
    unfold Nat.ModEq
    rw [Nat.mod_eq_of_lt hj]
  unfold turns
  rw [Nat.count_succ]
  simp only [hdue]

theorem turns_le_add_one {j' : ℕ} (hj' : j' < k) : turns k j i ≤ turns k j' i + 1 := by
  rw [turns_eq hj, turns_eq hj']
  split_ifs <;> omega

end Turns

/-- The names of nodes in ascending order. -/
def namesAscending (nodes : List Node) : List String :=
  sortBy (fun a b => decide (a ≤ b)) (nodes.map (·.name))

section Names

variable {nodes : List Node} {i j : ℕ} {m n : String}

theorem namesAscending_perm (nodes : List Node) :
    (namesAscending nodes).Perm (nodes.map (·.name)) := sortBy_perm _ _

theorem length_namesAscending (nodes : List Node) :
    (namesAscending nodes).length = nodes.length := by
  rw [(namesAscending_perm nodes).length_eq, List.length_map]

theorem lt_length_of_getElem?_names (h : (namesAscending nodes)[i]? = some n) :
    i < nodes.length := by
  rw [← length_namesAscending nodes]
  exact (List.getElem?_eq_some_iff.1 h).1

theorem exists_getElem?_names {node : Node} (h : node ∈ nodes) :
    ∃ j : ℕ, (namesAscending nodes)[j]? = some node.name := by
  apply List.mem_iff_getElem?.1
  rw [(namesAscending_perm nodes).mem_iff]
  exact List.mem_map_of_mem h

theorem exists_getElem?_names_mod (hne : nodes ≠ []) (i : ℕ) :
    ∃ name, (namesAscending nodes)[i % nodes.length]? = some name := by
  have hlt : i % nodes.length < (namesAscending nodes).length := by
    rw [length_namesAscending]
    exact Nat.mod_lt i (List.length_pos_iff.2 hne)
  exact ⟨_, List.getElem?_eq_getElem hlt⟩

theorem exists_node_of_getElem?_names (h : (namesAscending nodes)[i]? = some n) :
    ∃ node ∈ nodes, node.name = n := by
  have hmem := List.mem_of_getElem? h
  rw [(namesAscending_perm nodes).mem_iff] at hmem
  exact List.mem_map.1 hmem

theorem le_of_getElem?_names (hij : i ≤ j) (hi : (namesAscending nodes)[i]? = some m)
    (hj : (namesAscending nodes)[j]? = some n) : m ≤ n := by
  have hpairwise : (namesAscending nodes).Pairwise fun a b => a ≤ b :=
    pairwise_sortBy id (fun _ _ => decide_eq_true_iff) _
  obtain ⟨hilt, rfl⟩ := List.getElem?_eq_some_iff.1 hi
  obtain ⟨hjlt, rfl⟩ := List.getElem?_eq_some_iff.1 hj
  rcases hij.lt_or_eq with hlt | rfl
  · exact List.pairwise_iff_getElem.1 hpairwise i j hilt hjlt hlt
  · exact le_rfl

end Names

/-! ## One attempt of a round -/

section Attempt

variable {exp : Binary64 → Binary64} {settings : Settings} (h : Spreads exp settings)
  {nodes : List Node} (halike : Alike nodes) {load : String → ℕ} (request : Resources)
  {workload : Workload} {r : Ranking}
  (hr : rank exp settings workload (nodes.map fun node =>
    (Node.book request)^[load node.name] node) = some r)
  {i : ℕ} (hturns : ∀ (j : ℕ) n, (namesAscending nodes)[j]? = some n →
    load n = turns nodes.length j i)
  {due : Node} (hdue : due ∈ nodes)
  (hname : (namesAscending nodes)[i % nodes.length]? = some due.name)

include hturns

/-- Every node was booked once for each full round, and once more if it was already due. -/
theorem exists_load_eq {node : Node} (hnode : node ∈ nodes) :
    ∃ j : ℕ, (namesAscending nodes)[j]? = some node.name ∧
      load node.name = i / nodes.length + if j < i % nodes.length then 1 else 0 := by
  obtain ⟨j, hj⟩ := exists_getElem?_names hnode
  exact ⟨j, hj, (hturns j _ hj).trans (turns_eq (lt_length_of_getElem?_names hj) i)⟩

include hname

theorem load_due : load due.name = i / nodes.length := by
  rw [hturns _ _ hname, turns_eq (lt_length_of_getElem?_names hname), if_neg (lt_irrefl _)]
  rfl

include hdue

/-- Within a round the first node was booked once more than the one that is due. -/
theorem exists_uneven (hround : i % nodes.length ≠ 0) :
    ∃ a ∈ nodes, ∃ b ∈ nodes, load a.name ≠ load b.name := by
  obtain ⟨n, hn⟩ := exists_getElem?_names_mod (List.ne_nil_of_mem hdue) 0
  rw [Nat.zero_mod] at hn
  obtain ⟨first, hfirst, rfl⟩ := exists_node_of_getElem?_names hn
  refine ⟨first, hfirst, due, hdue, ?_⟩
  rw [load_due hturns hname, hturns 0 _ hn, turns_eq (List.length_pos_of_mem hdue),
    if_pos (Nat.pos_of_ne_zero hround)]
  omega

include h halike hr

/-- In a new round all nodes are level, and the first one is due. -/
theorem isTop_of_new_round (hround : i % nodes.length = 0) : IsTop r.entries (due.name, 50) := by
  rw [hround] at hname
  have hall : ∀ node ∈ nodes, load node.name = i / nodes.length := by
    intro node hnode
    obtain ⟨j, -, hj⟩ := exists_load_eq hturns hnode
    rwa [hround, if_neg (Nat.not_lt_zero j), Nat.add_zero] at hj
  rw [entries_of_even h halike load request hr fun a ha b hb => by rw [hall a ha, hall b hb]]
  refine ⟨List.mem_map.2 ⟨due, hdue, rfl⟩, ?_⟩
  intro e he
  obtain ⟨node, hnode, rfl⟩ := List.mem_map.1 he
  obtain ⟨j, hj⟩ := exists_getElem?_names hnode
  exact precedence_le.2 (.inr ⟨rfl, le_of_getElem?_names (Nat.zero_le j) hname hj⟩)

/-- Within a round the nodes that were not due yet have the full score. -/
theorem isTop_within_round (hfin : r.span.isFinite = true) (hapart : ¬r.span < negligible) :
    IsTop r.entries (due.name, 100) := by
  have huneven : ∀ node ∈ nodes, load node.name = i / nodes.length ∨
      load node.name = i / nodes.length + 1 := by
    intro node hnode
    obtain ⟨j, -, hj⟩ := exists_load_eq hturns hnode
    rw [hj]
    split_ifs <;> simp
  rw [entries_of_uneven h halike load request hr huneven hfin hapart]
  refine ⟨List.mem_map.2 ⟨due, hdue, by rw [if_pos (load_due hturns hname)]⟩, ?_⟩
  intro e he
  obtain ⟨node, hnode, rfl⟩ := List.mem_map.1 he
  obtain ⟨j, hj, hload⟩ := exists_load_eq hturns hnode
  apply precedence_le.2
  by_cases hlt : j < i % nodes.length
  · rw [if_pos hlt] at hload
    rw [if_neg (by omega)]
    exact .inl (show (0 : Int) < 100 by decide)
  · rw [if_neg hlt, Nat.add_zero] at hload
    rw [if_pos hload]
    exact .inr ⟨rfl, le_of_getElem?_names (not_lt.1 hlt) hname hj⟩

/-- Where the nodes took turns so far, the one that is due next is the top entry. -/
theorem isTop_of_turns
    (hspan : (∃ a ∈ nodes, ∃ b ∈ nodes, load a.name ≠ load b.name) →
      r.span.isFinite = true ∧ negligible ≤ r.span) :
    IsTop r.entries (due.name, if i % nodes.length = 0 then 50 else 100) := by
  by_cases hround : i % nodes.length = 0
  · rw [if_pos hround]
    exact isTop_of_new_round h halike request hr hturns hdue hname hround
  · rw [if_neg hround]
    obtain ⟨hfin, hapart⟩ := hspan (exists_uneven hturns hdue hname hround)
    exact isTop_within_round h halike request hr hturns hdue hname hfin (not_lt_of_le hapart)

end Attempt

/-! ## Going round -/

/-- In every attempt of a queue that finds two nodes named differently often, the two extremes are a
finite distance apart that does not count as zero. -/
def ApartWhileUneven (exp : Binary64 → Binary64) (settings : Settings) (nodes : List Node)
    (workloads : List Workload) : Prop :=
  let policy := Policy.powerAware exp settings
  let decisions := (placeQueue policy nodes workloads).1
  ∀ (i : ℕ) (hi : i < workloads.length),
    (∃ a ∈ nodes, ∃ b ∈ nodes,
      placedOn (decisions.take i) a.name ≠ placedOn (decisions.take i) b.name) →
    ∀ r ∈ rank exp settings workloads[i] (nodesBefore policy nodes workloads i),
      r.span.isFinite = true ∧ negligible ≤ r.span

instance (exp : Binary64 → Binary64) (settings : Settings) (nodes : List Node)
    (workloads : List Workload) : Decidable (ApartWhileUneven exp settings nodes workloads) := by
  unfold ApartWhileUneven
  infer_instance

section Rounds

variable {exp : Binary64 → Binary64} {settings : Settings} (h : Spreads exp settings)
  {nodes : List Node} (hne : nodes ≠ []) (hnames : (nodes.map (·.name)).Nodup)
  (halike : Alike nodes) {request : Resources} {workloads : List Workload}
  (hrequest : ∀ w ∈ workloads, w.request = request)
  (hapart : ApartWhileUneven exp settings nodes workloads)

include h hne hnames halike hrequest hapart

/-- Where the nodes took turns so far, the decision is on the one that is due next. -/
theorem decision_of_turns {i : ℕ} (hi : i < workloads.length)
    (hturns : ∀ (j : ℕ) n, (namesAscending nodes)[j]? = some n →
      placedOn ((placeQueue (.powerAware exp settings) nodes workloads).1.take i) n =
        turns nodes.length j i)
    {name : String} (hname : (namesAscending nodes)[i % nodes.length]? = some name) :
    (placeQueue (.powerAware exp settings) nodes workloads).1[i]? =
      some ⟨workloads[i].name, some (name, if i % nodes.length = 0 then 50 else 100)⟩ := by
  obtain ⟨due, hdue, rfl⟩ := exists_node_of_getElem?_names hname
  have hbefore := nodesBefore_eq_map (.powerAware exp settings) hnames hrequest hi.le
  have hbeforene : nodesBefore (.powerAware exp settings) nodes workloads i ≠ [] := by
    rw [hbefore]
    simpa using hne
  obtain ⟨r, hr⟩ := exists_rank exp settings workloads[i] hbeforene
  apply decision_eq_of_isTop (List.getElem?_eq_getElem hi) hr
  have hspan := fun huneven => hapart i hi huneven r hr
  rw [hbefore] at hr
  exact isTop_of_turns h halike request hr hturns hdue hname hspan

/-- The decisions name every node as often as it was due. -/
theorem placedOn_eq_turns {i : ℕ} (hi : i ≤ workloads.length) :
    ∀ (j : ℕ) n, (namesAscending nodes)[j]? = some n →
      placedOn ((placeQueue (.powerAware exp settings) nodes workloads).1.take i) n =
        turns nodes.length j i := by
  induction i with
  | zero =>
    intro j n _
    rw [List.take_zero, placedOn_nil]
    rfl
  | succ i ih =>
    have hturns := ih (Nat.le_of_succ_le hi)
    obtain ⟨name, hname⟩ := exists_getElem?_names_mod hne i
    have hdecision := decision_of_turns h hne hnames halike hrequest hapart hi hturns hname
    intro j n hj
    have hnodup : (namesAscending nodes).Nodup := (namesAscending_perm nodes).nodup_iff.2 hnames
    have hdue : name = n ↔ i % nodes.length = j := by
      rw [← Option.some.injEq, ← hname, ← hj]
      exact List.getElem?_inj (List.getElem?_eq_some_iff.1 hname).1 hnodup
    rw [placedOn_take_succ hdecision, turns_succ (lt_length_of_getElem?_names hj), hturns j n hj]
    simp only [hdue]

end Rounds

/-- Nodes that differ only in their names get equal workloads in turn, in the order of their names:
each attempt decides on the node that is due, with half of the score in a new round and the full one
within a round, and books the workload on it. So after any number of attempts two nodes differ by at
most one workload. -/
theorem placeQueue_roundRobin {exp : Binary64 → Binary64} {settings : Settings}
    (h : Spreads exp settings) {nodes : List Node} (hne : nodes ≠ [])
    (hnames : (nodes.map (·.name)).Nodup) (halike : Alike nodes) {request : Resources}
    {workloads : List Workload} (hrequest : ∀ w ∈ workloads, w.request = request)
    (hapart : ApartWhileUneven exp settings nodes workloads) :
    let policy := Policy.powerAware exp settings
    let decisions := (placeQueue policy nodes workloads).1
    (∀ i w, workloads[i]? = some w → ∃ name,
      (namesAscending nodes)[i % nodes.length]? = some name ∧
      decisions[i]? = some ⟨w.name, some (name, if i % nodes.length = 0 then 50 else 100)⟩ ∧
      nodesBefore policy nodes workloads (i + 1) =
        (nodesBefore policy nodes workloads i).map fun node =>
          if node.name = name then node.book w.request else node) ∧
    ∀ i, ∀ a ∈ nodes, ∀ b ∈ nodes,
      placedOn (decisions.take i) a.name ≤ placedOn (decisions.take i) b.name + 1 := by
  intro policy decisions
  constructor
  · intro i w hw
    obtain ⟨hi, rfl⟩ := List.getElem?_eq_some_iff.1 hw
    obtain ⟨name, hname⟩ := exists_getElem?_names_mod hne i
    have hturns := placedOn_eq_turns h hne hnames halike hrequest hapart hi.le
    have hdecision := decision_of_turns h hne hnames halike hrequest hapart hi hturns hname
    obtain ⟨named, score, hnamed, hafter⟩ := placeQueue_attempt_named policy hnames hne hw
    have heq := hdecision.symm.trans hnamed
    simp only [Option.some.injEq, Decision.mk.injEq, Prod.mk.injEq, true_and] at heq
    exact ⟨name, hname, hdecision, heq.1 ▸ hafter⟩
  · intro i a ha b hb
    -- a longer prefix than the queue is the whole queue
    have htake : decisions.take i = decisions.take (min i workloads.length) := by
      have hlength : decisions.length = workloads.length := length_placeFrom policy nodes 0 workloads
      rw [← hlength, List.take_eq_take_min]
    obtain ⟨j, hj⟩ := exists_getElem?_names ha
    obtain ⟨k, hk⟩ := exists_getElem?_names hb
    have hturns := placedOn_eq_turns h hne hnames halike hrequest hapart
      (Nat.min_le_right i workloads.length)
    rw [htake, hturns j _ hj, hturns k _ hk]
    exact turns_le_add_one (lt_length_of_getElem?_names hj) _ (lt_length_of_getElem?_names hk)

/-- Two nodes that differ only in their names, the larger name in front. -/
def equalPair : List Node :=
  [⟨"node-b", ⟨4000, 17179869184⟩, ⟨0, 0⟩, 0⟩, ⟨"node-a", ⟨4000, 17179869184⟩, ⟨0, 0⟩, 0⟩]

/-- Three workloads with the same request, which the second one splits over two containers. -/
def equalThree : List Workload :=
  [⟨"first", [⟨0, 1073741824⟩]⟩, ⟨"second", [⟨0, 536870912⟩, ⟨0, 536870912⟩]⟩,
    ⟨"third", [⟨0, 1073741824⟩]⟩]

/-- Under the standard settings the workloads go to either node in turn. -/
theorem roundRobin_equalPair :
    Spreads (fun _ => 1) .standard ∧ equalPair ≠ [] ∧ (equalPair.map (·.name)).Nodup ∧
      Alike equalPair ∧ (∀ w ∈ equalThree, w.request = ⟨0, 1073741824⟩) ∧
      ApartWhileUneven (fun _ => 1) .standard equalPair equalThree ∧
      (placeQueue (.powerAware (fun _ => 1) .standard) equalPair equalThree).1[1]? =
        some ⟨"second", some ("node-b", 100)⟩ ∧
      (placeQueue (.powerAware (fun _ => 1) .standard) equalPair equalThree).1[2]? =
        some ⟨"third", some ("node-a", 50)⟩ := by
  have hspreads : Spreads (fun _ => 1) .standard := by
    refine ⟨fun _ _ => ⟨?_, ?_⟩, fun _ _ _ _ => ?_, fun c => ?_, rfl⟩
    · decide +kernel
    · decide +kernel
    · decide +kernel
    · cases c <;> decide +kernel
  have hne : equalPair ≠ [] := by decide
  have hnames : (equalPair.map (·.name)).Nodup := by decide
  have halike : Alike equalPair := by
    unfold Alike
    decide
  have hrequest : ∀ w ∈ equalThree, w.request = ⟨0, 1073741824⟩ := by decide
  have hapart : ApartWhileUneven (fun _ => 1) .standard equalPair equalThree := by decide +kernel
  obtain ⟨hround, -⟩ := placeQueue_roundRobin hspreads hne hnames halike hrequest hapart
  have hsorted : namesAscending equalPair = ["node-a", "node-b"] := by decide +kernel
  obtain ⟨second, hsecond, hdecision, -⟩ := hround 1 _ rfl
  obtain ⟨third, hthird, hdecision', -⟩ := hround 2 _ rfl
  rw [hsorted] at hsecond hthird
  obtain rfl : "node-b" = second := Option.some.inj hsecond
  obtain rfl : "node-a" = third := Option.some.inj hthird
  exact ⟨hspreads, hne, hnames, halike, hrequest, hapart, hdecision, hdecision'⟩

end NodeRanking
