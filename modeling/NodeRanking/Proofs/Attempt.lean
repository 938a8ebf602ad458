import NodeRanking.Proofs.Choice
import NodeRanking.Proofs.Ranking
import NodeRanking.Report.Ranking

/-!
# One attempt, read in several ways

What a ranking says of its candidates are names with scores (`Ranking.entries`), and everything that
is read off an attempt is their top entry.

1. The decision of a placement, the best entry of the board, the first line of the report and the
   highest answer of the policy agree (`placeQueue_agrees`). The board merges candidates of one name
   and the report does not, which changes no top entry.
2. A board is asked by name, so of several nodes of one name the first is booked, whichever of them
   earned the score: its own row is the highest exactly where no other row of its name is higher
   (`booked_first_of_top_name`, `exists_booked_below_top`).
-/

namespace NodeRanking

/-! ## The entries of a ranking -/

section Entries

variable {exp : Binary64 → Binary64} {settings : Settings} {workload : Workload}
  {nodes : List Node} {r : Ranking}

/-- What a ranking says of the candidates, by name. -/
def Ranking.entries (r : Ranking) : List (String × Int) := r.ratings.map fun x => (x.name, x.score)

theorem board_eq_ofList (h : rank exp settings workload nodes = some r) :
    r.board = .ofList r.entries := board_eq h

theorem entries_eq_map_standings (h : rank exp settings workload nodes = some r) :
    r.entries = r.standings.map fun x => (x.rating.name, x.rating.score) := by
  unfold Ranking.entries
  rw [← map_rating_standings h, List.map_map]
  rfl

theorem exists_ratings_eq_map (h : rank exp settings workload nodes = some r) :
    ∃ f : Node → Rating, (∀ node, (f node).name = node.name) ∧ r.ratings = nodes.map f := by
  obtain ⟨f, hf, hspec⟩ := exists_standings_eq_map h
  refine ⟨fun node => (f node).rating, fun node => (hspec node).1, ?_⟩
  rw [← map_rating_standings h, hf, List.map_map]
  rfl

theorem ne_nil_of_rank (h : rank exp settings workload nodes = some r) : nodes ≠ [] := by
  intro hnil
  rw [(rank_eq_none_iff exp settings workload nodes).2 hnil] at h
  exact absurd h (by simp)

/-- The names with a score are those of the nodes. -/
theorem mem_names_iff (h : rank exp settings workload nodes = some r) (n : String) :
    n ∈ nodes.map (·.name) ↔ ∃ s, (n, s) ∈ r.entries := by
  obtain ⟨f, hname, hratings⟩ := exists_ratings_eq_map h
  have hentries : r.entries = nodes.map fun node => (node.name, (f node).score) := by
    unfold Ranking.entries
    rw [hratings, List.map_map]
    exact List.map_congr_left fun node _ => congrArg (·, _) (hname node)
  rw [hentries]
  simp

/-- The lines of a report say the same of the candidates. -/
theorem map_linesOf (h : rank exp settings workload nodes = some r) :
    (RankingReport.linesOf r).map (fun line => (line.name, line.score)) = r.entries := by
  obtain ⟨e, -, rfl⟩ := exists_isExtreme h
  unfold RankingReport.linesOf Ranking.entries rankingOf rate
  dsimp only
  rw [weightedRows_eq, List.map_map, List.map_map, List.map_map, List.map_zip_eq_zipWith,
    List.zipWith_map_right, List.zipWith_self]
  rfl

end Entries

/-! ## Readings of the top entry -/

section Readings

variable {exp : Binary64 → Binary64} {settings : Settings} {workload : Workload}
  {nodes : List Node} {r : Ranking} {e : String × Int}

/-- The answers of the board for the names of the nodes have the top entry of the ranking. -/
theorem isTop_answers (h : rank exp settings workload nodes = some r) :
    IsTop (nodes.map fun node => (node.name, r.board.score node.name)) e ↔ IsTop r.entries e := by
  rw [board_eq_ofList h]
  refine (IsTop.congr fun f => ?_).trans Scoreboard.isTop_ofList
  rw [← Scoreboard.mem_map_score (mem_names_iff h), List.map_map]
  rfl

/-- An attempt decides on the top entry of its ranking, and books the first node of that name. -/
theorem place_powerAware (attempt : ℕ) (h : rank exp settings workload nodes = some r) :
    ∃ index node score, nodes[index]? = some node ∧ IsTop r.entries (node.name, score) ∧
      (∀ j other, nodes[j]? = some other → other.name = node.name → index ≤ j) ∧
      place (.powerAware exp settings) attempt nodes workload =
        (⟨workload.name, some (node.name, score)⟩,
          nodes.modify index (Node.book workload.request)) := by
  obtain ⟨c, hc, hplace⟩ :=
    place_eq_choice (.powerAware exp settings) nodes attempt (ne_nil_of_rank h) workload
  have hboard : (Policy.powerAware exp settings).prepare attempt workload nodes = some r.board := by
    show (rank exp settings workload nodes).map (·.board) = _
    rw [h, Option.map_some]
  rw [hboard] at hc
  obtain ⟨node, hnode, hname, -⟩ := mem_candidates (best?_mem hc)
  refine ⟨c.index, node, c.score, hnode, ?_, ?_, ?_⟩
  · rw [← hname, ← isTop_answers h]
    exact isTop_choose? hc
  · intro j other hj hother
    exact index_choose?_le hc hj (hother.trans hname.symm)
  · rw [hplace, hname]

/-- The decision of an attempt of a queue is the top entry of its ranking. -/
theorem decision_eq_of_isTop {workloads : List Workload} {i : ℕ} {w : Workload}
    (hw : workloads[i]? = some w)
    (h : rank exp settings w (nodesBefore (.powerAware exp settings) nodes workloads i) = some r)
    (he : IsTop r.entries e) :
    (placeQueue (.powerAware exp settings) nodes workloads).1[i]? = some ⟨w.name, some e⟩ := by
  obtain ⟨index, node, score, -, htop, -, hplace⟩ := place_powerAware i h
  rw [(placeQueue_attempt (.powerAware exp settings) nodes hw).1, hplace, htop.eq he]

/-- The best entry of a board of a ranking. -/
theorem best?_board (h : rank exp settings workload nodes = some r) (he : IsTop r.entries e) :
    r.board.best? = some e := by
  rw [board_eq_ofList h]
  cases hbest : (Scoreboard.ofList r.entries).best? with
  | none =>
    have hnil := (best?_eq_none_iff _ _).1 hbest
    have hmem := (Scoreboard.isTop_ofList.2 he).1
    rw [hnil] at hmem
    exact absurd hmem List.not_mem_nil
  | some f =>
    have hf := Scoreboard.isTop_of_best? (Scoreboard.ascending_ofList _) hbest
    rw [(Scoreboard.isTop_ofList.1 hf).eq he]

theorem NodeLine.mayPrecede_iff (a b : NodeLine) : a.mayPrecede b = true ↔
    precedence (a.name, a.score) ≤ precedence (b.name, b.score) := by
  unfold NodeLine.mayPrecede
  rw [precedence_le, le_iff_lt_or_eq, @eq_comm _ b.score]
  simp

/-- The first line of a report. -/
theorem head?_lines (label : String) (h : rank exp settings workload nodes = some r)
    (he : IsTop r.entries e) :
    (RankingReport.ofRanking label workload (some r)).lines.head?.map
      (fun line => (line.name, line.score)) = some e := by
  show (sortBy NodeLine.mayPrecede (RankingReport.linesOf r)).head?.map _ = _
  cases hhead : (sortBy NodeLine.mayPrecede (RankingReport.linesOf r)).head? with
  | none =>
    have hnil := (sortBy_perm NodeLine.mayPrecede (RankingReport.linesOf r)).symm
    rw [List.head?_eq_none_iff.1 hhead] at hnil
    have hmem := he.1
    rw [← map_linesOf h, hnil.eq_nil] at hmem
    exact absurd hmem List.not_mem_nil
  | some line =>
    obtain ⟨hmem, hle⟩ :=
      key_head?_sortBy_le (fun line => precedence (line.name, line.score)) NodeLine.mayPrecede_iff
        hhead
    have htop : IsTop r.entries (line.name, line.score) := by
      rw [← map_linesOf h]
      refine ⟨List.mem_map.2 ⟨line, hmem, rfl⟩, fun f hf => ?_⟩
      obtain ⟨other, hother, rfl⟩ := List.mem_map.1 hf
      exact hle other hother
    rw [Option.map_some, htop.eq he]

end Readings

/-- The decision on a workload, the best entry of the board that is prepared for it, the first line
of the report and the highest answer of the policy, with the smallest name that has it, are one name
with one score. -/
theorem placeQueue_agrees (exp : Binary64 → Binary64) (settings : Settings) (workload : Workload)
    (rest : List Workload) {nodes : List Node} (hne : nodes ≠ []) (attempt : ℕ) (label : String) :
    ∃ board name score,
      (Policy.powerAware exp settings).prepare attempt workload nodes = some board ∧
      (placeQueue (.powerAware exp settings) nodes (workload :: rest)).1.head? =
        some ⟨workload.name, some (name, score)⟩ ∧
      board.best? = some (name, score) ∧
      (RankingReport.ofRanking label workload (rank exp settings workload nodes)).lines.head?.map
        (fun line => (line.name, line.score)) = some (name, score) ∧
      (∃ node ∈ nodes, node.name = name ∧
        (Policy.powerAware exp settings).score (some board) node.name = score) ∧
      ∀ node ∈ nodes, (Policy.powerAware exp settings).score (some board) node.name < score ∨
        (Policy.powerAware exp settings).score (some board) node.name = score ∧
          name ≤ node.name := by
  obtain ⟨r, hr⟩ := exists_rank exp settings workload hne
  obtain ⟨index, node, score, -, htop, -, hplace⟩ := place_powerAware 0 hr
  obtain ⟨hmem, hle⟩ := (isTop_answers hr).2 htop
  refine ⟨r.board, node.name, score, ?_, ?_, best?_board hr htop, ?_, ?_, ?_⟩
  · show (rank exp settings workload nodes).map (·.board) = _
    rw [hr, Option.map_some]
  · unfold placeQueue
    rw [placeFrom_cons, hplace]
    rfl
  · rw [hr]
    exact head?_lines label hr htop
  · obtain ⟨top, htopmem, heq⟩ := List.mem_map.1 hmem
    obtain ⟨hname, hscore⟩ := Prod.mk.injEq .. ▸ heq
    exact ⟨top, htopmem, hname, hscore⟩
  · intro other hother
    exact precedence_le.1 (hle _ (List.mem_map.2 ⟨other, hother, rfl⟩))

/-- Two nodes of one name and one of another, which has a workload less than the first. -/
def pairAndOther : List Node :=
  [⟨"x", ⟨1, 1⟩, ⟨0, 0⟩, 1⟩, ⟨"x", ⟨1, 1⟩, ⟨0, 0⟩, 0⟩, ⟨"a", ⟨1, 1⟩, ⟨0, 0⟩, 0⟩]

/-- The readings agree on the smaller name where the board merges two nodes and two scores tie. -/
theorem agrees_pairAndOther :
    pairAndOther ≠ [] ∧ ∃ board name score,
      (Policy.powerAware (fun _ => 1) (costs 1 0)).prepare 0 emptyWorkload pairAndOther =
        some board ∧ board.entries = [("a", 100), ("x", 100)] ∧
      (placeQueue (.powerAware (fun _ => 1) (costs 1 0)) pairAndOther [emptyWorkload]).1.head? =
        some ⟨"empty", some (name, score)⟩ ∧ name = "a" ∧ score = 100 := by
  have hne : pairAndOther ≠ [] := by decide
  obtain ⟨board, name, score, hboard, hdecision, hbest, -⟩ :=
    placeQueue_agrees (fun _ => 1) (costs 1 0) emptyWorkload [] hne 0 ""
  have hentries : ((Policy.powerAware (fun _ => 1) (costs 1 0)).prepare 0 emptyWorkload
      pairAndOther).map (·.entries) = some [("a", 100), ("x", 100)] := by decide +kernel
  rw [hboard, Option.map_some, Option.some.injEq] at hentries
  have htop : board.best? = some ("a", 100) := by
    unfold Scoreboard.best?
    rw [hentries]
    decide
  obtain ⟨rfl, rfl⟩ := Prod.mk.injEq .. ▸ Option.some.inj (hbest.symm.trans htop)
  exact ⟨hne, board, "a", 100, hboard, hentries, hdecision, rfl, rfl⟩

/-! ## Rows of one name -/

/-- The workload of an attempt is booked on the first node of a name that some row with the highest
score has. The row of that node itself has the highest score exactly where no other row of its name
has a higher one. -/
theorem booked_first_of_top_name (exp : Binary64 → Binary64) (settings : Settings)
    {nodes : List Node} (hne : nodes ≠ []) {workloads : List Workload} {i : ℕ} {w : Workload}
    (hw : workloads[i]? = some w) :
    let policy := Policy.powerAware exp settings
    ∃ r index node own,
      rank exp settings w (nodesBefore policy nodes workloads i) = some r ∧
      (nodesBefore policy nodes workloads i)[index]? = some node ∧ r.ratings[index]? = some own ∧
      nodesBefore policy nodes workloads (i + 1) =
        (nodesBefore policy nodes workloads i).modify index (Node.book w.request) ∧
      (∃ score, (placeQueue policy nodes workloads).1[i]? =
        some ⟨w.name, some (node.name, score)⟩) ∧
      (∀ j other, (nodesBefore policy nodes workloads i)[j]? = some other →
        other.name = node.name → index ≤ j) ∧
      (∃ top ∈ r.ratings, top.name = node.name ∧ ∀ x ∈ r.ratings, x.score ≤ top.score) ∧
      ((∀ x ∈ r.ratings, x.score ≤ own.score) ↔
        ∀ x ∈ r.ratings, x.name = node.name → x.score ≤ own.score) := by
  intro policy
  have hbefore : nodesBefore policy nodes workloads i ≠ [] := by
    rw [← List.length_pos_iff, length_nodesBefore]
    exact List.length_pos_iff.2 hne
  obtain ⟨r, hr⟩ := exists_rank exp settings w hbefore
  obtain ⟨index, node, score, hnode, htop, hfirst, hplace⟩ := place_powerAware i hr
  obtain ⟨hdecision, hafter⟩ := placeQueue_attempt policy nodes hw
  rw [hplace] at hdecision hafter
  obtain ⟨f, -, hratings⟩ := exists_ratings_eq_map hr
  obtain ⟨top, htopmem, heq⟩ := List.mem_map.1 htop.1
  obtain ⟨hname, hscore⟩ := Prod.mk.injEq .. ▸ heq
  have hhighest : ∀ x ∈ r.ratings, x.score ≤ top.score := fun x hx =>
    hscore ▸ htop.score_le (List.mem_map.2 ⟨x, hx, rfl⟩)
  refine ⟨r, index, node, f node, hr, hnode, ?_, hafter, ⟨score, hdecision⟩, hfirst,
    ⟨top, htopmem, hname, hhighest⟩, fun hall x hx _ => hall x hx, fun hall x hx => ?_⟩
  · rw [hratings, List.getElem?_map, hnode, Option.map_some]
  · exact (hhighest x hx).trans (hall top htopmem hname)

/-- Two nodes of one name, of which the second carries less. -/
def twoOfOneName : List Node := [⟨"x", ⟨1, 1⟩, ⟨0, 0⟩, 1⟩, ⟨"x", ⟨1, 1⟩, ⟨0, 0⟩, 0⟩]

/-- The first node of a name is booked although only the second one has the highest score. -/
theorem exists_booked_below_top :
    ∃ r, rank (fun _ => 1) (costs 1 0) emptyWorkload twoOfOneName = some r ∧
      r.ratings = [⟨"x", 0, 0⟩, ⟨"x", 1, 100⟩] ∧
      ¬∃ index own, r.ratings[index]? = some own ∧ (∀ x ∈ r.ratings, x.score ≤ own.score) ∧
        (placeQueue (.powerAware (fun _ => 1) (costs 1 0)) twoOfOneName [emptyWorkload]).2 =
          twoOfOneName.modify index (Node.book emptyWorkload.request) := by
  obtain ⟨r, hr, heq⟩ : ∃ r, rank (fun _ => 1) (costs 1 0) emptyWorkload twoOfOneName = some r ∧
      r.ratings = [⟨"x", 0, 0⟩, ⟨"x", 1, 100⟩] := exists_of_any (by decide +kernel)
  refine ⟨r, hr, heq, ?_⟩
  rintro ⟨index, own, hown, hhighest, hfinal⟩
  rw [heq] at hown hhighest
  have hlt : index < 2 := (List.getElem?_eq_some_iff.1 hown).1
  rcases Nat.le_one_iff_eq_zero_or_eq_one.1 (Nat.le_of_lt_succ hlt) with rfl | rfl
  · -- the row of the first node has the score 0
    have hle := hhighest ⟨"x", 1, 100⟩ (by simp)
    rw [← Option.some.inj hown] at hle
    exact absurd hle (by decide)
  · -- the second node is not the one that is booked
    exact absurd hfinal (by decide +kernel)

/-- The workload is booked on the first node of the only name. -/
theorem booked_twoOfOneName :
    twoOfOneName ≠ [] ∧ [emptyWorkload][0]? = some emptyWorkload ∧
      ∃ index node, twoOfOneName[index]? = some node ∧ node.name = "x" ∧ index = 0 ∧
        (placeQueue (.powerAware (fun _ => 1) (costs 1 0)) twoOfOneName [emptyWorkload]).2 =
          twoOfOneName.modify index (Node.book emptyWorkload.request) := by
  have hne : twoOfOneName ≠ [] := by decide
  have hw : [emptyWorkload][0]? = some emptyWorkload := rfl
  obtain ⟨r, index, node, own, -, hnode, -, hafter, -, hfirst, -⟩ :=
    booked_first_of_top_name (fun _ => 1) (costs 1 0) hne hw
  have hname : node.name = "x" := by
    have hall : ∀ node ∈ twoOfOneName, node.name = "x" := by decide
    exact hall node (List.mem_of_getElem? hnode)
  have hzero : index = 0 := Nat.le_zero.1 (hfirst 0 _ rfl hname.symm)
  exact ⟨hne, hw, index, node, hnode, hname, hzero, hafter⟩

end NodeRanking
