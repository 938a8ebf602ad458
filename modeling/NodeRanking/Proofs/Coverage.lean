import NodeRanking.Proofs.Attempt

/-!
# What a ranking covers

There is a ranking exactly where there are nodes, and it covers them (`rank_covers`): every stage has
one row for each node in its place, every score is in range, and the board has each name once, with
the highest of its scores. Several nodes may have one name, so the rows are tied to the nodes and not
only to their names.
-/

namespace NodeRanking

/-- A ranking covers some nodes: it has rows of each node, and its board has the best score of each
name. -/
structure Ranking.Covers (r : Ranking) (nodes : List Node) : Prop where
  /-- Each stage has one row for each node, in their order and under the name of the node. -/
  rows : ∃ (measured weighted : Node → Row) (rating : Node → Rating),
    (∀ node, (measured node).name = node.name ∧ (weighted node).name = node.name ∧
      (rating node).name = node.name) ∧
    r.measured = nodes.map measured ∧ r.weighted = nodes.map weighted ∧
      r.ratings = nodes.map rating
  score_mem : ∀ rating ∈ r.ratings, 0 ≤ rating.score ∧ rating.score ≤ topScore
  names_nodup : (r.board.entries.map (·.1)).Nodup
  mem_names : ∀ name, name ∈ r.board.entries.map (·.1) ↔ ∃ node ∈ nodes, node.name = name
  highest : ∀ name score, (name, score) ∈ r.board.entries ↔
    IsGreatest {s | ∃ rating ∈ r.ratings, rating.name = name ∧ rating.score = s} score

section Covers

variable {exp : Binary64 → Binary64} {settings : Settings} {workload : Workload}
  {nodes : List Node} {r : Ranking}

theorem Ranking.mem_entries {name : String} {score : Int} :
    (name, score) ∈ r.entries ↔ ∃ rating ∈ r.ratings, rating.name = name ∧ rating.score = score := by
  unfold Ranking.entries
  simp only [List.mem_map, Prod.mk.injEq]

/-- The highest score of a name in a ranking is that of its best rating. -/
theorem Ranking.highest_iff_isGreatest {name : String} {score : Int} :
    Scoreboard.Highest r.entries name score ↔
      IsGreatest {s | ∃ rating ∈ r.ratings, rating.name = name ∧ rating.score = s} score := by
  unfold Scoreboard.Highest IsGreatest upperBounds
  simp only [Ranking.mem_entries, Set.mem_ofPred_eq]

/-- Each stage takes the rows of the one before it over, one by one. -/
theorem exists_rows (h : rank exp settings workload nodes = some r) :
    ∃ (measured weighted : Node → Row) (rating : Node → Rating),
      (∀ node, (measured node).name = node.name ∧ (weighted node).name = node.name ∧
        (rating node).name = node.name) ∧
      r.measured = nodes.map measured ∧ r.weighted = nodes.map weighted ∧
        r.ratings = nodes.map rating := by
  obtain ⟨rating, hrating, hratings⟩ := exists_ratings_eq_map h
  obtain ⟨e, -, rfl⟩ := exists_isExtreme h
  exact ⟨_, weightedRow exp settings workload nodes, rating, fun node => ⟨rfl, rfl, hrating node⟩,
    rfl, weightedRows_eq_map exp settings workload nodes, hratings⟩

theorem score_mem_of_rank (h : rank exp settings workload nodes = some r) :
    ∀ rating ∈ r.ratings, 0 ≤ rating.score ∧ rating.score ≤ topScore := by
  intro rating hrating
  rw [← map_rating_standings h] at hrating
  obtain ⟨x, hx, rfl⟩ := List.mem_map.1 hrating
  rw [(standing_spec h hx).2.2.2]
  exact scoreOf_mem _

theorem mem_board_iff_isGreatest (h : rank exp settings workload nodes = some r) {name : String}
    {score : Int} : (name, score) ∈ r.board.entries ↔
      IsGreatest {s | ∃ rating ∈ r.ratings, rating.name = name ∧ rating.score = s} score := by
  rw [board_eq_ofList h, Scoreboard.mem_ofList, Ranking.highest_iff_isGreatest]

/-- The board has the names of the nodes. -/
theorem mem_board_names_iff (h : rank exp settings workload nodes = some r) {name : String} :
    name ∈ r.board.entries.map (·.1) ↔ ∃ node ∈ nodes, node.name = name := by
  have hentries : name ∈ r.entries.map (·.1) ↔ ∃ score, (name, score) ∈ r.entries := by
    simp only [List.mem_map, Prod.exists, exists_and_right, exists_eq_right]
  rw [board_eq_ofList h, Scoreboard.mem_names_ofList, hentries, ← mem_names_iff h]
  exact List.mem_map

theorem Ranking.covers_of_rank (h : rank exp settings workload nodes = some r) :
    r.Covers nodes where
  rows := exists_rows h
  score_mem := score_mem_of_rank h
  names_nodup := (board_eq_ofList h ▸ Scoreboard.ascending_ofList r.entries).names_nodup
  mem_names := fun _ => mem_board_names_iff h
  highest := fun _ _ => mem_board_iff_isGreatest h

end Covers

/-- There is no ranking exactly where there are no nodes, and a ranking covers its nodes. The policy
answers with the scores of the board, and with zero for the name of no node. -/
theorem rank_covers (exp : Binary64 → Binary64) (settings : Settings) (workload : Workload)
    (nodes : List Node) :
    nodes = [] ∧ rank exp settings workload nodes = none ∨
      nodes ≠ [] ∧ ∃ r, rank exp settings workload nodes = some r ∧ r.Covers nodes ∧
        (∀ e ∈ r.board.entries,
          (Policy.powerAware exp settings).score (some r.board) e.1 = e.2) ∧
        ∀ name, (∀ node ∈ nodes, node.name ≠ name) →
          (Policy.powerAware exp settings).score (some r.board) name = 0 := by
  by_cases hne : nodes = []
  · exact .inl ⟨hne, (rank_eq_none_iff exp settings workload nodes).2 hne⟩
  · obtain ⟨r, hr⟩ := exists_rank exp settings workload hne
    have hcovers := Ranking.covers_of_rank hr
    have hasc : Scoreboard.Ascending r.board.entries :=
      board_eq_ofList hr ▸ Scoreboard.ascending_ofList r.entries
    refine .inr ⟨hne, r, hr, hcovers, fun e he => hasc.score_of_mem he, ?_⟩
    intro name hname
    refine Scoreboard.score_of_not_mem fun hmem => ?_
    obtain ⟨node, hnode, heq⟩ := (hcovers.mem_names name).1 hmem
    exact hname node hnode heq

/-- Two nodes of one name have two ratings and one entry, and a name that no node has is worth
nothing. -/
example :
    (rank (fun _ => 1) (costs 1 0) emptyWorkload
        [⟨"x", ⟨1, 1⟩, ⟨0, 0⟩, 1⟩, ⟨"a", ⟨1, 1⟩, ⟨0, 0⟩, 1⟩, ⟨"x", ⟨1, 1⟩, ⟨0, 0⟩, 0⟩]).map (fun r =>
      (r.ratings.map fun x => (x.name, x.score), r.board.entries, r.board.score "y")) =
    some ([("x", 0), ("a", 0), ("x", 100)], [("a", 0), ("x", 100)], 0) := by
  decide +kernel

end NodeRanking
