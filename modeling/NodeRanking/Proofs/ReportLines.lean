import NodeRanking.Proofs.Attempt
import NodeRanking.Proofs.FirstCandidate

/-!
# The lines of a report

A report is put together from two lists of a ranking, which are both in the order of the candidates,
so each line is about one of them (`isAbout_lineOf`).

1. The lines come in the order of candidates: by a higher score, then by the bytes of the name, then
   by position. No two positions are level, so there is one such order of all of them
   (`report_lists_candidates`).
2. Where no two nodes have one name, nodes in another order have the same report
   (`exists_ofRanking_of_perm`).
-/

namespace NodeRanking

attribute [local irreducible] Binary64.one Binary64.limit

/-- A line is about the candidate at a position: under the name of the node there it has what the
ranking measured of it, and the closeness and score of just these metrics, weighted. -/
structure NodeLine.IsAbout (line : NodeLine) (exp : Binary64 → Binary64) (settings : Settings)
    (workload : Workload) (nodes : List Node) (r : Ranking) (j : Fin nodes.length) : Prop where
  name : line.name = nodes[j].name
  metrics : line.metrics =
    (settings.repaired.mode.view workload.request nodes[j]).metrics exp settings.repaired.curve
  measured : r.measured[j]? = some ⟨line.name, line.metrics⟩
  weighted : r.weighted[j]? =
    some ⟨line.name, weighted settings.repaired.weights r.measured line.metrics⟩
  rating : r.ratings[j]? = some ⟨line.name, line.closeness, line.score⟩
  closeness : line.closeness = NodeRanking.closeness r.extremes
    (NodeRanking.weighted settings.repaired.weights r.measured line.metrics)
  score : line.score = scoreOf line.closeness

/-- The line as a candidate at a position. -/
def NodeLine.candidate (line : NodeLine) (index : ℕ) : Candidate := ⟨index, line.name, line.score⟩

/-- Lines about the candidates, arranged so that each precedes the later ones. -/
def NodeLine.InOrder {n : ℕ} (line : Fin n → NodeLine) (σ : Equiv.Perm (Fin n)) : Prop :=
  ∀ i j, i < j → ((line (σ i)).candidate (σ i)).Precedes ((line (σ j)).candidate (σ j))

section Lines

variable (exp : Binary64 → Binary64) (settings : Settings) (workload : Workload)

/-- The line of a node that is rated in some way. -/
def lineOf (rating : Node → Rating) (node : Node) : NodeLine where
  name := node.name
  metrics := (settings.repaired.mode.view workload.request node).metrics exp settings.repaired.curve
  closeness := (rating node).closeness
  score := (rating node).score

variable {exp settings workload} {nodes : List Node} {r : Ranking}

theorem getElem?_fin_map {α β : Type} (xs : List α) (f : α → β) (j : Fin xs.length) :
    (xs.map f)[j]? = some (f xs[j]) := by simp

theorem linesOf_eq_map (h : rank exp settings workload nodes = some r) {rating : Node → Rating}
    (hrating : r.ratings = nodes.map rating) :
    RankingReport.linesOf r = nodes.map (lineOf exp settings workload rating) := by
  have hmeasured : r.measured = measuredRows exp settings workload nodes := by
    obtain ⟨e, -, rfl⟩ := exists_isExtreme h
    rfl
  unfold RankingReport.linesOf
  rw [hmeasured, hrating]
  unfold measuredRows measure
  rw [List.map_zip_eq_zipWith, List.zipWith_map, List.zipWith_self]
  rfl

/-- The line of a node that is rated by its own row. -/
theorem isAbout_lineOf (e : Extremes) (j : Fin nodes.length) :
    (lineOf exp settings workload
      (fun node => .ofRow e (weightedRow exp settings workload nodes node)) nodes[j]).IsAbout
      exp settings workload nodes (rankingOf exp settings workload nodes e) j where
  name := rfl
  metrics := rfl
  measured := by
    show (measuredRows exp settings workload nodes)[j]? = _
    unfold measuredRows measure
    rw [getElem?_fin_map]
    rfl
  weighted := by
    show (weightedRows exp settings workload nodes)[j]? = _
    rw [weightedRows_eq_map, getElem?_fin_map]
    rfl
  rating := by
    show (rate e (weightedRows exp settings workload nodes))[j]? = _
    unfold rate
    rw [weightedRows_eq_map, List.map_map, getElem?_fin_map]
    rfl
  closeness := rfl
  score := rfl

/-! ## The order of the lines -/

theorem ofRanking_eq_ofFn {line : Fin nodes.length → NodeLine}
    (hlines : RankingReport.linesOf r = List.ofFn line) (label : String) (reported : Workload) :
    RankingReport.ofRanking label reported (some r) =
      ⟨reported.name, some label, List.ofFn (line ∘ Tuple.sort (positionOrder fun j =>
        precedence ((line j).name, (line j).score)))⟩ := by
  show RankingReport.mk _ _ (sortBy NodeLine.mayPrecede (RankingReport.linesOf r)) = _
  rw [hlines, sortBy_ofFn (fun line => precedence (line.name, line.score)) NodeLine.mayPrecede_iff]
  rfl

/-- There is one arrangement in order. -/
theorem inOrder_iff_eq_sort {n : ℕ} {line : Fin n → NodeLine} {σ : Equiv.Perm (Fin n)} :
    NodeLine.InOrder line σ ↔
      σ = Tuple.sort (positionOrder fun j => precedence ((line j).name, (line j).score)) := by
  rw [← strictMono_comp_iff_eq_sort]
  unfold NodeLine.InOrder
  simp only [Candidate.precedes_iff]
  rfl

/-- Lines of nodes with distinct names are told apart by their place in the order. -/
theorem eq_of_precedence_eq (hnames : (nodes.map (·.name)).Nodup) {rating : Node → Rating} :
    ∀ a ∈ nodes.map (lineOf exp settings workload rating),
      ∀ b ∈ nodes.map (lineOf exp settings workload rating),
        precedence (a.name, a.score) = precedence (b.name, b.score) → a = b := by
  intro a ha b hb h
  obtain ⟨node, hnode, rfl⟩ := List.mem_map.1 ha
  obtain ⟨other, hother, rfl⟩ := List.mem_map.1 hb
  have hname : node.name = other.name := congrArg Prod.fst (precedence_injective h)
  rw [List.inj_on_of_nodup_map hnames hnode hother hname]

/-- Nodes with distinct names have one report in every order, but for the attempt. -/
theorem exists_ofRanking_of_perm (h : rank exp settings workload nodes = some r)
    (hnames : (nodes.map (·.name)).Nodup) {nodes' : List Node} (hperm : nodes.Perm nodes')
    (label : String) (reported : Workload) :
    ∃ r', rank exp settings workload nodes' = some r' ∧ ∀ label',
      RankingReport.ofRanking label' reported (some r') =
        { RankingReport.ofRanking label reported (some r) with attempt := some label' } := by
  obtain ⟨r₁, r', hr, hr', rating, -, hratings, hratings'⟩ :=
    exists_rating_of_perm exp settings workload hperm (ne_nil_of_rank h)
  obtain rfl : r₁ = r := Option.some.inj (hr.symm.trans h)
  have hsort : sortBy NodeLine.mayPrecede (RankingReport.linesOf r') =
      sortBy NodeLine.mayPrecede (RankingReport.linesOf r₁) := by
    rw [linesOf_eq_map hr hratings, linesOf_eq_map hr' hratings']
    exact (sortBy_eq_of_perm _ NodeLine.mayPrecede_iff (eq_of_precedence_eq hnames)
      (hperm.map _)).symm
  refine ⟨r', hr', fun label' => ?_⟩
  show RankingReport.mk _ _ (sortBy NodeLine.mayPrecede (RankingReport.linesOf r')) = _
  rw [hsort]
  rfl

end Lines

/-- The report of a ranking has one line about each candidate and no other, and the lines stand in
the only arrangement in which each precedes the later ones. Where no two nodes have one name, the
order of the nodes does not change the report, but for the attempt. -/
theorem report_lists_candidates (exp : Binary64 → Binary64) (settings : Settings)
    {workload : Workload} {nodes : List Node} {r : Ranking}
    (h : rank exp settings workload nodes = some r) (label : String) (reported : Workload) :
    let report := RankingReport.ofRanking label reported (some r)
    report.workload = reported.name ∧ report.attempt = some label ∧
    (∃ (line : Fin nodes.length → NodeLine) (σ : Equiv.Perm (Fin nodes.length)),
      (∀ j, (line j).IsAbout exp settings workload nodes r j) ∧
      report.lines = List.ofFn (line ∘ σ) ∧ NodeLine.InOrder line σ ∧
      ∀ τ, NodeLine.InOrder line τ → τ = σ) ∧
    ((nodes.map (·.name)).Nodup → ∀ nodes', nodes.Perm nodes' → ∃ r',
      rank exp settings workload nodes' = some r' ∧ ∀ label',
        RankingReport.ofRanking label' reported (some r') =
          { report with attempt := some label' }) := by
  intro report
  refine ⟨rfl, rfl, ?_, fun hnames _ hperm =>
    exists_ofRanking_of_perm h hnames hperm label reported⟩
  obtain ⟨e, -, rfl⟩ := exists_isExtreme h
  have hratings : (rankingOf exp settings workload nodes e).ratings =
      nodes.map fun node => .ofRow e (weightedRow exp settings workload nodes node) := by
    unfold rankingOf rate
    rw [weightedRows_eq_map, List.map_map]
    rfl
  have hlines := (linesOf_eq_map h hratings).trans (List.ofFn_getElem_eq_map nodes _).symm
  exact ⟨_, _, fun j => isAbout_lineOf e j,
    congrArg RankingReport.lines (ofRanking_eq_ofFn hlines label reported),
    inOrder_iff_eq_sort.2 rfl, fun τ => inOrder_iff_eq_sort.1⟩

/-- Three nodes, of which the first and the last carry less than the one between. -/
def busyBetween : List Node :=
  [⟨"c", ⟨1, 1⟩, ⟨0, 0⟩, 0⟩, ⟨"b", ⟨1, 1⟩, ⟨0, 0⟩, 1⟩, ⟨"a", ⟨1, 1⟩, ⟨0, 0⟩, 0⟩]

/-- The two best nodes are listed by name, and the report of the nodes from the last one on is the
same. -/
theorem report_lists_busyBetween :
    ∃ r r', rank (fun _ => 1) (costs 1 0) emptyWorkload busyBetween = some r ∧
      (busyBetween.map (·.name)).Nodup ∧ busyBetween.Perm busyBetween.reverse ∧
      rank (fun _ => 1) (costs 1 0) emptyWorkload busyBetween.reverse = some r' ∧
      (RankingReport.ofRanking "1" emptyWorkload (some r)).lines.map
        (fun line => (line.name, line.score)) = [("a", 100), ("c", 100), ("b", 0)] ∧
      RankingReport.ofRanking "2" emptyWorkload (some r') =
        { RankingReport.ofRanking "1" emptyWorkload (some r) with attempt := some "2" } := by
  obtain ⟨r, hr, hlines⟩ : ∃ r,
      rank (fun _ => 1) (costs 1 0) emptyWorkload busyBetween = some r ∧
      (RankingReport.ofRanking "1" emptyWorkload (some r)).lines.map
        (fun line => (line.name, line.score)) = [("a", 100), ("c", 100), ("b", 0)] :=
    exists_of_any (by decide +kernel)
  have hnames : (busyBetween.map (·.name)).Nodup := by decide
  have hperm : busyBetween.Perm busyBetween.reverse := busyBetween.reverse_perm.symm
  obtain ⟨-, -, -, horder⟩ :=
    report_lists_candidates (fun _ => 1) (costs 1 0) hr "1" emptyWorkload
  obtain ⟨r', hr', hsame⟩ := horder hnames busyBetween.reverse hperm
  exact ⟨r, r', hr, hnames, hperm, hr', hlines, hsame "2"⟩

/-- Nodes of one name have a line each, of equal scores the earlier node first. -/
example : (rank (fun _ => 1) (costs 1 0) emptyWorkload
    [⟨"x", ⟨1, 4⟩, ⟨0, 2⟩, 1⟩, ⟨"x", ⟨1, 4⟩, ⟨0, 3⟩, 0⟩, ⟨"x", ⟨1, 4⟩, ⟨0, 1⟩, 0⟩]).map (fun r =>
      (RankingReport.ofRanking "" emptyWorkload (some r)).lines.map
        fun line => (line.metrics.memory, line.score)) =
    some [(0.75, 100), (0.25, 100), (0.5, 0)] := by
  decide +kernel

end NodeRanking
