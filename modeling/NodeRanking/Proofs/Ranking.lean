import NodeRanking.Placement
import NodeRanking.Proofs.Closeness
import NodeRanking.Proofs.Scoreboard
import NodeRanking.Proofs.Settings

/-!
# Laws of rankings

1. A ranking rates finite weighted rows against their extremes (`exists_isExtreme`), and
   `Ranking.standings` gathers what it says of each candidate (`standing_spec`).
2. The order of the candidates does not matter: every candidate keeps its rating, and the board
   stays the same (`rank_permute`). Nothing is assumed of the exponential or the settings, and
   several candidates may have one name.
-/

namespace NodeRanking

open Binary64

attribute [local irreducible] Binary64.one Binary64.limit

/-! ## The rows of a ranking -/

section Rows

variable (exp : Binary64 → Binary64) (settings : Settings) (workload : Workload)
  (nodes : List Node)

/-- The rows that are ranked, as they are measured. -/
def measuredRows : List Row :=
  measure exp settings.repaired.mode settings.repaired.curve workload.request nodes

/-- The rows that are rated. -/
def weightedRows : List Row :=
  weigh settings.repaired.weights (normalize (measuredRows exp settings workload nodes))

/-- The ranking of rated rows. -/
def rankingOf (e : Extremes) : Ranking where
  measured := measuredRows exp settings workload nodes
  weighted := weightedRows exp settings workload nodes
  extremes := e
  ratings := rate e (weightedRows exp settings workload nodes)
  board := .ofRatings (rate e (weightedRows exp settings workload nodes))

/-- The metrics of a row, normalized and weighted as in the ranking. -/
def weightedMetrics (metrics : Metrics) : Metrics :=
  weighted settings.repaired.weights (measuredRows exp settings workload nodes) metrics

theorem weightedRows_eq :
    weightedRows exp settings workload nodes =
      (measuredRows exp settings workload nodes).map fun row =>
        ⟨row.name, weightedMetrics exp settings workload nodes row.metrics⟩ :=
  weigh_normalize _ _

theorem finite_weightedMetrics {row : Row} (h : row ∈ measuredRows exp settings workload nodes) :
    (weightedMetrics exp settings workload nodes row.metrics).Finite :=
  fun c => (isFinite_weighted settings.nonnegative_weight_repaired h c).1

/-- The weight of a criterion bounds its weighted values. -/
theorem height_weightedMetrics_le {row : Row}
    (h : row ∈ measuredRows exp settings workload nodes) (c : Criterion) :
    ((weightedMetrics exp settings workload nodes row.metrics).get c).height ≤
      (settings.repaired.weights.get c).height :=
  (isFinite_weighted settings.nonnegative_weight_repaired h c).2

theorem finite_weightedRows :
    ∀ row ∈ weightedRows exp settings workload nodes, row.metrics.Finite :=
  finite_weigh_normalize settings.nonnegative_weight_repaired

/-- A weighted value of a criterion is that of some measured row. -/
theorem mem_column_weightedRows {c : Criterion} {x : Binary64} :
    x ∈ column (weightedRows exp settings workload nodes) c ↔
      ∃ row ∈ measuredRows exp settings workload nodes,
        (weightedMetrics exp settings workload nodes row.metrics).get c = x :=
  mem_column_weigh_normalize

theorem rank_eq : rank exp settings workload nodes =
    (Extremes.ofRows? settings.polarities (weightedRows exp settings workload nodes)).map
      (rankingOf exp settings workload nodes) := by
  rw [← settings.polarities_repaired]
  rfl

end Rows

variable {exp : Binary64 → Binary64} {settings : Settings} {workload : Workload}
  {nodes nodes' : List Node} {r : Ranking}

/-- A ranking rates the rows against their extremes. -/
theorem exists_isExtreme (h : rank exp settings workload nodes = some r) :
    ∃ e, e.IsExtreme settings.polarities (weightedRows exp settings workload nodes) ∧
      r = rankingOf exp settings workload nodes e := by
  rw [rank_eq] at h
  obtain ⟨e, he, rfl⟩ := Option.map_eq_some_iff.1 h
  exact ⟨e, Extremes.isExtreme_ofRows?
    (fun row hrow => (finite_weightedRows exp settings workload nodes row hrow).numeric) he, rfl⟩

theorem exists_rank (exp : Binary64 → Binary64) (settings : Settings) (workload : Workload)
    (h : nodes ≠ []) : ∃ r, rank exp settings workload nodes = some r := by
  by_contra hnone
  exact h ((rank_eq_none_iff exp settings workload nodes).1 (Option.eq_none_iff_forall_ne_some.2
    fun r hr => hnone ⟨r, hr⟩))

/-! ## Standings -/

/-- What a ranking says of one candidate. -/
structure Standing where
  metrics : Metrics
  toIdeal : Binary64
  toAntiIdeal : Binary64
  rating : Rating

/-- What a ranking says of every candidate, in their order. -/
def Ranking.standings (r : Ranking) : List Standing :=
  (r.measured.zip (r.weighted.zip r.ratings)).map fun (measured, weighted, rating) =>
    { metrics := measured.metrics
      toIdeal := distance weighted.metrics r.extremes.ideal
      toAntiIdeal := distance weighted.metrics r.extremes.antiIdeal
      rating }

/-- The standing of a row with these weighted metrics. -/
def Standing.ofRow (e : Extremes) (row : Row) (weighted : Metrics) : Standing where
  metrics := row.metrics
  toIdeal := distance weighted e.ideal
  toAntiIdeal := distance weighted e.antiIdeal
  rating := .ofRow e ⟨row.name, weighted⟩

theorem zip_map_map {α β γ : Type} (xs : List α) (f : α → β) (g : α → γ) :
    xs.zip ((xs.map f).zip (xs.map g)) = xs.map fun x => (x, f x, g x) := by
  induction xs with
  | nil => rfl
  | cons x xs ih => simp [ih]

theorem standings_rankingOf (e : Extremes) :
    (rankingOf exp settings workload nodes e).standings =
      (measuredRows exp settings workload nodes).map fun row =>
        .ofRow e row (weightedMetrics exp settings workload nodes row.metrics) := by
  unfold Ranking.standings rankingOf rate
  rw [weightedRows_eq, List.map_map, zip_map_map, List.map_map]
  rfl

theorem map_rating_standings (h : rank exp settings workload nodes = some r) :
    r.standings.map (·.rating) = r.ratings := by
  obtain ⟨e, -, rfl⟩ := exists_isExtreme h
  rw [standings_rankingOf, List.map_map]
  unfold rankingOf rate
  rw [weightedRows_eq, List.map_map]
  rfl

/-- A standing for each node, made of its metrics in the state that it is judged in. -/
theorem exists_standings_eq_map (h : rank exp settings workload nodes = some r) :
    ∃ f : Node → Standing, r.standings = nodes.map f ∧ ∀ node,
      (f node).rating.name = node.name ∧ (f node).metrics =
        (settings.repaired.mode.view workload.request node).metrics exp settings.repaired.curve := by
  obtain ⟨e, -, rfl⟩ := exists_isExtreme h
  rw [standings_rankingOf]
  unfold measuredRows measure
  rw [List.map_map]
  exact ⟨_, rfl, fun node => ⟨rfl, rfl⟩⟩

theorem mem_standings_rankingOf {e : Extremes} {x : Standing}
    (hx : x ∈ (rankingOf exp settings workload nodes e).standings) :
    ∃ row ∈ measuredRows exp settings workload nodes,
      x = .ofRow e row (weightedMetrics exp settings workload nodes row.metrics) := by
  rw [standings_rankingOf] at hx
  obtain ⟨row, hrow, rfl⟩ := List.mem_map.1 hx
  exact ⟨row, hrow, rfl⟩

/-- The rating of a candidate is made of its two distances. -/
theorem standing_spec (h : rank exp settings workload nodes = some r) {x : Standing}
    (hx : x ∈ r.standings) : x.toIdeal.Unsigned ∧ x.toAntiIdeal.Unsigned ∧
      x.rating.closeness = share x.toIdeal x.toAntiIdeal ∧
      x.rating.score = scoreOf x.rating.closeness := by
  obtain ⟨e, he, rfl⟩ := exists_isExtreme h
  obtain ⟨row, hrow, rfl⟩ := mem_standings_rankingOf hx
  have hfin := finite_weightedMetrics exp settings workload nodes hrow
  have hext := he.finite (finite_weightedRows exp settings workload nodes)
  exact ⟨unsigned_distance hfin hext.1, unsigned_distance hfin hext.2, rfl, rfl⟩

theorem length_ratings (h : rank exp settings workload nodes = some r) :
    r.ratings.length = nodes.length := by
  obtain ⟨e, -, rfl⟩ := exists_isExtreme h
  unfold rankingOf rate
  rw [weightedRows_eq]
  simp [measuredRows, measure]

/-! ## The order of the candidates -/

/-- Rows in another order are rated the same. -/
theorem ofRow_congr {rows rows' : List Row} {p : ByCriterion Polarity} {e e' : Extremes}
    (hfin : ∀ row ∈ rows, row.metrics.Finite) (he : e.IsExtreme p rows)
    (he' : e'.IsExtreme p rows') (hperm : rows.Perm rows') {row : Row} (hrow : row ∈ rows) :
    Rating.ofRow e row = Rating.ofRow e' row := by
  have hfin' : ∀ row ∈ rows', row.metrics.Finite :=
    fun row hrow => hfin row (hperm.mem_iff.2 hrow)
  have hideal : distance row.metrics e.ideal = distance row.metrics e'.ideal :=
    distance_congr (hfin row hrow) (he.finite hfin).1 (hfin row hrow) (he'.finite hfin').1
      (fun _ => rfl) fun c => (he.place_perm he' hperm c).1
  have hanti : distance row.metrics e.antiIdeal = distance row.metrics e'.antiIdeal :=
    distance_congr (hfin row hrow) (he.finite hfin).2 (hfin row hrow) (he'.finite hfin').2
      (fun _ => rfl) fun c => (he.place_perm he' hperm c).2
  unfold Rating.ofRow closeness
  rw [hideal, hanti]

/-- The row of a node, weighted as in the ranking of some nodes. -/
def weightedRow (exp : Binary64 → Binary64) (settings : Settings) (workload : Workload)
    (nodes : List Node) (node : Node) : Row :=
  ⟨node.name, weightedMetrics exp settings workload nodes
    ((settings.repaired.mode.view workload.request node).metrics exp settings.repaired.curve)⟩

theorem weightedRows_eq_map (exp : Binary64 → Binary64) (settings : Settings) (workload : Workload)
    (nodes : List Node) : weightedRows exp settings workload nodes =
      nodes.map (weightedRow exp settings workload nodes) := by
  rw [weightedRows_eq]
  unfold measuredRows measure
  rw [List.map_map]
  rfl

/-- One rating for each node serves both orders of the candidates. -/
theorem exists_rating_of_perm (exp : Binary64 → Binary64) (settings : Settings)
    (workload : Workload) (h : nodes.Perm nodes') (hne : nodes ≠ []) :
    ∃ r r', rank exp settings workload nodes = some r ∧
      rank exp settings workload nodes' = some r' ∧ ∃ f : Node → Rating,
        (∀ node, (f node).name = node.name) ∧ r.ratings = nodes.map f ∧
          r'.ratings = nodes'.map f := by
  have hne' : nodes' ≠ [] := fun h' => hne (List.perm_nil.1 (h' ▸ h))
  obtain ⟨r, hr⟩ := exists_rank exp settings workload hne
  obtain ⟨r', hr'⟩ := exists_rank exp settings workload hne'
  obtain ⟨e, he, rfl⟩ := exists_isExtreme hr
  obtain ⟨e', he', rfl⟩ := exists_isExtreme hr'
  -- the norms are the same, so a node has one weighted row in both orders
  have hmeasured : (measuredRows exp settings workload nodes').Perm
      (measuredRows exp settings workload nodes) := h.symm.map _
  have hweight : weightedRow exp settings workload nodes' =
      weightedRow exp settings workload nodes := by
    unfold weightedRow weightedMetrics
    rw [weighted_perm hmeasured]
  have hrows : (weightedRows exp settings workload nodes).Perm
      (weightedRows exp settings workload nodes') := by
    rw [weightedRows_eq_map, weightedRows_eq_map, hweight]
    exact h.map _
  refine ⟨_, _, hr, hr', fun node => .ofRow e (weightedRow exp settings workload nodes node),
    fun _ => rfl, ?_, ?_⟩
  · unfold rankingOf rate
    rw [weightedRows_eq_map, List.map_map]
    rfl
  · unfold rankingOf rate
    rw [weightedRows_eq_map, hweight, List.map_map]
    refine List.map_congr_left fun node hnode => ?_
    have hmem : weightedRow exp settings workload nodes node ∈
        weightedRows exp settings workload nodes := by
      rw [weightedRows_eq_map]
      exact List.mem_map_of_mem (h.mem_iff.2 hnode)
    exact (ofRow_congr (finite_weightedRows exp settings workload nodes) he he' hrows hmem).symm

theorem board_eq (h : rank exp settings workload nodes = some r) :
    r.board = .ofRatings r.ratings := by
  obtain ⟨e, -, rfl⟩ := exists_isExtreme h
  rfl

/-- The board does not depend on the order of the candidates. -/
theorem board_perm (exp : Binary64 → Binary64) (settings : Settings) (workload : Workload)
    (h : nodes.Perm nodes') : (rank exp settings workload nodes).map (·.board) =
      (rank exp settings workload nodes').map (·.board) := by
  by_cases hne : nodes = []
  · subst hne
    rw [List.nil_perm.1 h]
  obtain ⟨r, r', hr, hr', f, -, hratings, hratings'⟩ :=
    exists_rating_of_perm exp settings workload h hne
  rw [hr, hr', Option.map_some, Option.map_some, board_eq hr, board_eq hr', hratings, hratings']
  unfold Scoreboard.ofRatings
  rw [Scoreboard.ofList_congr fun e => ((h.map f).map _).mem_iff]

/-- The list with the member at `σ i` moved to `i`. -/
def permuted {α : Type} (xs : List α) (σ : Equiv.Perm (Fin xs.length)) : List α :=
  List.ofFn fun i => xs[σ i]

theorem permuted_perm {α : Type} (xs : List α) (σ : Equiv.Perm (Fin xs.length)) :
    xs.Perm (permuted xs σ) := by
  have h := σ.ofFn_comp_perm fun i => xs[i]
  simp only [Fin.getElem_fin, List.ofFn_getElem] at h
  exact h.symm

/-- The ranking does not depend on the order of the candidates: the boards are equal, and every
candidate has one rating in both orders. -/
theorem rank_permute (exp : Binary64 → Binary64) (settings : Settings) (workload : Workload)
    (nodes : List Node) (σ : Equiv.Perm (Fin nodes.length)) :
    (∀ attempt attempt', (Policy.powerAware exp settings).prepare attempt workload nodes =
      (Policy.powerAware exp settings).prepare attempt' workload (permuted nodes σ)) ∧
    ∀ i, ∃ rating : Rating, rating.name = nodes[σ i].name ∧
      (rank exp settings workload nodes).bind (·.ratings[σ i]?) = some rating ∧
      (rank exp settings workload (permuted nodes σ)).bind (·.ratings[i]?) = some rating := by
  by_cases hne : nodes = []
  · subst hne
    exact ⟨fun _ _ => rfl, fun i => i.elim0⟩
  obtain ⟨r, r', hr, hr', f, hname, hratings, hratings'⟩ :=
    exists_rating_of_perm exp settings workload (permuted_perm nodes σ) hne
  constructor
  · exact fun _ _ => board_perm exp settings workload (permuted_perm nodes σ)
  · intro i
    refine ⟨f nodes[σ i], hname _, ?_, ?_⟩
    · rw [hr, Option.bind_some, hratings]
      simp
    · rw [hr', Option.bind_some, hratings']
      simp [permuted]

/-! ## Small inputs -/

/-- Settings under which only pods and memory count, both as costs, and no power is drawn. -/
def costs (pods memory : Binary64) : Settings where
  criteria := ⟨⟨pods, .cost⟩, ⟨0, .cost⟩, ⟨memory, .cost⟩, ⟨0, .cost⟩⟩
  curve := ⟨0, 0, 0, .saturating⟩
  mode := .current

/-- A workload that requests nothing. -/
def emptyWorkload : Workload := ⟨"empty", []⟩

theorem exists_of_any {P : Ranking → Prop} [DecidablePred P] {ranked : Option Ranking}
    (h : ranked.any (fun r => decide (P r)) = true) : ∃ r, ranked = some r ∧ P r := by
  simpa using (Option.any_eq_true _ _).1 h

end NodeRanking
