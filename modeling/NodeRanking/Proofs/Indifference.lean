import NodeRanking.Placement
import NodeRanking.Proofs.Binary64.Same
import NodeRanking.Proofs.Ranking
import NodeRanking.Proofs.TopEntry

/-!
# Criteria that tell no candidates apart

A criterion is `Indifferent` in a matrix if its weight is zero or the values of its column are all
equal. Its weighted column then lies at one place, and both extremes lie there too, so it adds
nothing to any distance (`place_of_indifferent`).

1. If that holds of every criterion because the candidates have equal metrics, all of them are
   undecided, which is half of the score (`rank_equal_metrics`).
2. The polarity of such a criterion and its values do not matter: two matrices that agree by the
   other criteria are rated the same (`ratings_of_agreeing`). Without a weight for power the board
   does not depend on the curve.
-/

namespace NodeRanking

open Binary64

attribute [local irreducible] Binary64.one Binary64.limit

/-! ## Quotients of equal numbers -/

theorem place_divideOrZero_zero (s : Bool) (y : Binary64) : (divideOrZero (zero s) y).place = 0 := by
  have hquotient : (zero s / y).place = 0 := by
    rw [zero_div]
    split_ifs
    · rfl
    · exact place_zero _
  unfold divideOrZero
  dsimp only
  split_ifs
  · exact place_ofNat_zero
  · exact hquotient
  · exact place_ofNat_zero

theorem Binary64.Same.place_divideOrZero_eq {x y : Binary64} (h : x.Same y) (norm : Binary64) :
    (divideOrZero x norm).place = (divideOrZero y norm).place := by
  rcases h with rfl | ⟨hx, hy⟩
  · rfl
  · obtain ⟨s, rfl⟩ := exists_eq_zero hx
    obtain ⟨t, rfl⟩ := exists_eq_zero hy
    rw [place_divideOrZero_zero, place_divideOrZero_zero]

/-! ## Agreeing columns -/

theorem map_eq_of_forall₂ {α β γ : Type} {R : α → β → Prop} {f : α → γ} {g : β → γ} {xs : List α}
    {ys : List β} (h : List.Forall₂ R xs ys) (hfg : ∀ x y, R x y → f x = g y) :
    xs.map f = ys.map g := by
  rw [← List.forall₂_eq_eq_eq, List.forall₂_map_left_iff, List.forall₂_map_right_iff]
  exact h.imp fun x y => hfg x y

/-- Columns of equal numbers have one norm. -/
theorem euclideanNorm_congr {xs ys : List Binary64} (h : List.Forall₂ Same xs ys) :
    euclideanNorm xs = euclideanNorm ys := by
  have habs : xs.map abs = ys.map abs := map_eq_of_forall₂ h fun _ _ hxy => hxy.abs_eq
  have hscale : largestMagnitude xs = largestMagnitude ys := by
    unfold largestMagnitude
    rw [← List.foldl_map, habs, List.foldl_map]
  have hsquares : (xs.map fun x => (x / largestMagnitude xs).square) =
      ys.map fun y => (y / largestMagnitude ys).square :=
    map_eq_of_forall₂ h fun _ _ hxy => hscale ▸ hxy.square_div_eq _
  unfold euclideanNorm
  dsimp only
  rw [hsquares, hscale]

/-! ## Indifferent criteria -/

/-- All values of a list are equal as numbers. -/
def Uniform (xs : List Binary64) : Prop := ∀ x ∈ xs, ∀ y ∈ xs, x.Same y

instance (xs : List Binary64) : Decidable (Uniform xs) :=
  inferInstanceAs (Decidable (∀ x ∈ xs, ∀ y ∈ xs, x.Same y))

/-- A criterion that has no weight, or by which all rows of a matrix are equal. -/
def Indifferent (weights : ByCriterion Binary64) (rows : List Row) (c : Criterion) : Prop :=
  (weights.get c).isZero = true ∨ Uniform (column rows c)

section Weighted

variable {weights : ByCriterion Binary64} (hweights : ∀ c, Nonnegative (weights.get c))
  {rows rows' : List Row} {c : Criterion}

include hweights

/-- Equal values of columns with one norm are weighted to one place. -/
theorem place_weighted_congr {metrics metrics' : Metrics}
    (hnorm : euclideanNorm (column rows c) = euclideanNorm (column rows' c))
    (h : (metrics.get c).Same (metrics'.get c)) :
    ((weighted weights rows metrics).get c).place =
      ((weighted weights rows' metrics').get c).place := by
  rw [get_weighted, get_weighted, hnorm, place_mul (isFinite_divideOrZero _ _) (hweights c).1,
    place_mul (isFinite_divideOrZero _ _) (hweights c).1, h.place_divideOrZero_eq]

/-- By an indifferent criterion all rows are weighted to one place. -/
theorem place_weighted_of_indifferent (hc : Indifferent weights rows c) {row row' : Row}
    (hrow : row ∈ rows) (hrow' : row' ∈ rows) :
    ((weighted weights rows row.metrics).get c).place =
      ((weighted weights rows row'.metrics).get c).place := by
  rcases hc with hzero | huniform
  · rw [get_weighted, get_weighted, place_mul (isFinite_divideOrZero _ _) (hweights c).1,
      place_mul (isFinite_divideOrZero _ _) (hweights c).1, place_of_isZero hzero, mul_zero, mul_zero]
  · have hsame := huniform _ (mem_column hrow c) _ (mem_column hrow' c)
    exact place_weighted_congr hweights rfl hsame

end Weighted

/-! ## Ratings of a matrix -/

/-- The ratings of the rows of a matrix, if it has any: normalized, weighted, and rated against the
extremes of the result. -/
def ratingsOf? (weights : ByCriterion Binary64) (polarities : ByCriterion Polarity)
    (rows : List Row) : Option (List Rating) :=
  let weighted := weigh weights (normalize rows)
  (Extremes.ofRows? polarities weighted).map fun e => rate e weighted

theorem ratingsOf?_eq_none_iff (weights : ByCriterion Binary64) (polarities : ByCriterion Polarity)
    (rows : List Row) : ratingsOf? weights polarities rows = none ↔ rows = [] := by
  simp [ratingsOf?, Extremes.ofRows?_eq_none_iff, weigh, normalize, mapRows]

/-- The rating of a row of a matrix against some extremes. -/
def ratingIn (weights : ByCriterion Binary64) (rows : List Row) (e : Extremes) (row : Row) :
    Rating :=
  .ofRow e ⟨row.name, weighted weights rows row.metrics⟩

section Ratings

variable {weights : ByCriterion Binary64} (hweights : ∀ c, Nonnegative (weights.get c))
  {polarities polarities' : ByCriterion Polarity} {rows rows' : List Row} {c : Criterion}
  {e e' : Extremes}

include hweights

theorem exists_ratingsOf? (polarities : ByCriterion Polarity) (hne : rows ≠ []) :
    ∃ e : Extremes, e.IsExtreme polarities (weigh weights (normalize rows)) ∧
      ratingsOf? weights polarities rows = some (rows.map (ratingIn weights rows e)) := by
  obtain ⟨ratings, hratings⟩ := Option.ne_none_iff_exists'.1
    (mt (ratingsOf?_eq_none_iff weights polarities rows).1 hne)
  obtain ⟨e, he, rfl⟩ := Option.map_eq_some_iff.1 hratings
  refine ⟨e, Extremes.isExtreme_ofRows?
    (fun row hrow => (finite_weigh_normalize hweights row hrow).numeric) he, ?_⟩
  rw [hratings]
  unfold rate
  rw [weigh_normalize, List.map_map]
  rfl

variable (he : e.IsExtreme polarities (weigh weights (normalize rows)))

include he

/-- By an indifferent criterion every row lies at both extremes. -/
theorem place_of_indifferent (hc : Indifferent weights rows c) {row : Row} (hrow : row ∈ rows) :
    ((weighted weights rows row.metrics).get c).place = (e.ideal.get c).place ∧
      ((weighted weights rows row.metrics).get c).place = (e.antiIdeal.get c).place := by
  obtain ⟨best, hbest, hideal⟩ := mem_column_weigh_normalize.1 (he.ideal_mem c)
  obtain ⟨worst, hworst, hanti⟩ := mem_column_weigh_normalize.1 (he.antiIdeal_mem c)
  rw [← hideal, ← hanti]
  exact ⟨place_weighted_of_indifferent hweights hc hrow hbest,
    place_weighted_of_indifferent hweights hc hrow hworst⟩

/-- Where no criterion tells the rows apart, all of them are undecided. -/
theorem ratingIn_of_indifferent (h : ∀ c, Indifferent weights rows c) {row : Row}
    (hrow : row ∈ rows) : ratingIn weights rows e row = ⟨row.name, undecided, 50⟩ := by
  have hfin : (weighted weights rows row.metrics).Finite := fun c =>
    (isFinite_weighted hweights hrow c).1
  obtain ⟨hideal, hanti⟩ := he.finite (finite_weigh_normalize hweights)
  have htoIdeal : distance (weighted weights rows row.metrics) e.ideal = 0 :=
    (distance_congr hfin hideal hideal hideal
      (fun c => (place_of_indifferent hweights he (h c) hrow).1) fun _ => rfl).trans
      (distance_self hideal)
  have htoAntiIdeal : distance (weighted weights rows row.metrics) e.antiIdeal = 0 :=
    (distance_congr hfin hanti hanti hanti
      (fun c => (place_of_indifferent hweights he (h c) hrow).2) fun _ => rfl).trans
      (distance_self hanti)
  unfold ratingIn Rating.ofRow closeness
  dsimp only
  rw [htoIdeal, htoAntiIdeal, share_zero_zero, scoreOf_undecided]

end Ratings

/-! ## Candidates with equal metrics -/

theorem rank_ratings (exp : Binary64 → Binary64) (settings : Settings) (workload : Workload)
    (nodes : List Node) : (rank exp settings workload nodes).map (·.ratings) =
      ratingsOf? settings.repaired.weights settings.repaired.polarities
        (measuredRows exp settings workload nodes) := by
  unfold rank ratingsOf?
  dsimp only
  rw [Option.map_map]
  rfl

/-- A board of equal scores. -/
theorem get?_ofRatings_const {ratings : List Rating} {s : Int} (h : ∀ x ∈ ratings, x.score = s)
    {x : Rating} (hx : x ∈ ratings) : (Scoreboard.ofRatings ratings).get? x.name = some s := by
  refine Scoreboard.get?_ofList_eq_some_iff.2 ⟨List.mem_map.2 ⟨x, hx, by rw [h x hx]⟩, ?_⟩
  intro t ht
  obtain ⟨y, hy, heq⟩ := List.mem_map.1 ht
  rw [← (Prod.mk.inj heq).2, h y hy]

/-- Candidates with equal metrics are all rated one half, and so says the board of each of their
names. -/
theorem rank_equal_metrics (exp : Binary64 → Binary64) (settings : Settings) (workload : Workload)
    {nodes : List Node} (hne : nodes ≠ [])
    (hequal : ∀ c, Uniform (column (measuredRows exp settings workload nodes) c)) :
    ∃ r, rank exp settings workload nodes = some r ∧
      r.measured = measuredRows exp settings workload nodes ∧
      r.ratings = nodes.map (fun node => ⟨node.name, 0.5, 50⟩) ∧
      ∀ node ∈ nodes, r.board.get? node.name = some 50 ∧
        (Policy.powerAware exp settings).score (some r.board) node.name = 50 := by
  have hrows : measuredRows exp settings workload nodes ≠ [] := by
    simpa [measuredRows, measure] using hne
  obtain ⟨r, hr⟩ := exists_rank exp settings workload hne
  obtain ⟨e, he, hmatrix⟩ :=
    exists_ratingsOf? settings.nonnegative_weight_repaired settings.repaired.polarities hrows
  have hratings : r.ratings = nodes.map fun node => ⟨node.name, 0.5, 50⟩ := by
    have hrank := rank_ratings exp settings workload nodes
    rw [hr, hmatrix, Option.map_some, Option.some.injEq] at hrank
    have hrating : ∀ row ∈ measuredRows exp settings workload nodes,
        ratingIn settings.repaired.weights (measuredRows exp settings workload nodes) e row =
          ⟨row.name, 0.5, 50⟩ := fun row hrow =>
      ratingIn_of_indifferent settings.nonnegative_weight_repaired he (fun c => .inr (hequal c)) hrow
    rw [hrank, List.map_congr_left hrating]
    unfold measuredRows measure
    rw [List.map_map]
    rfl
  have hboard : ∀ node ∈ nodes, r.board.get? node.name = some 50 := by
    intro node hnode
    rw [board_eq hr]
    have hmem : (⟨node.name, 0.5, 50⟩ : Rating) ∈ r.ratings := by
      rw [hratings]
      exact List.mem_map.2 ⟨node, hnode, rfl⟩
    refine get?_ofRatings_const (fun x hx => ?_) hmem
    rw [hratings] at hx
    obtain ⟨other, -, rfl⟩ := List.mem_map.1 hx
    rfl
  refine ⟨r, hr, ?_, hratings, fun node hnode => ⟨hboard node hnode, ?_⟩⟩
  · obtain ⟨e, -, rfl⟩ := exists_isExtreme hr
    rfl
  · show (r.board.get? node.name).getD Scoreboard.unlisted = 50
    rw [hboard node hnode, Option.getD_some]

/-- Settings with the largest finite weight for the processor and memory. -/
def largestWeights : Settings where
  criteria := ⟨⟨1, .cost⟩, ⟨1.7976931348623157e308, .benefit⟩, ⟨1.7976931348623157e308, .cost⟩,
    ⟨1, .benefit⟩⟩
  curve := .standard
  mode := .projected

/-- Three nodes that carry as much of what they can give, two of them with one name. -/
def evenlyLoaded : List Node :=
  [⟨"x", ⟨2, 4⟩, ⟨1, 3⟩, 7⟩, ⟨"y", ⟨4, 8⟩, ⟨2, 6⟩, 7⟩, ⟨"x", ⟨6, 12⟩, ⟨3, 9⟩, 7⟩]

theorem rank_evenlyLoaded :
    evenlyLoaded ≠ [] ∧
    (∀ c, Uniform (column (measuredRows (fun _ => 1) largestWeights emptyWorkload evenlyLoaded) c)) ∧
    ∃ r, rank (fun _ => 1) largestWeights emptyWorkload evenlyLoaded = some r ∧
      r.ratings = [⟨"x", 0.5, 50⟩, ⟨"y", 0.5, 50⟩, ⟨"x", 0.5, 50⟩] ∧
      r.board.get? "x" = some 50 ∧ r.board.get? "y" = some 50 := by
  have hne : evenlyLoaded ≠ [] := by decide
  have hequal : ∀ c, Uniform
      (column (measuredRows (fun _ => 1) largestWeights emptyWorkload evenlyLoaded) c) := by
    intro c
    cases c <;> decide +kernel
  obtain ⟨r, hr, -, hratings, hboard⟩ :=
    rank_equal_metrics (fun _ => 1) largestWeights emptyWorkload hne hequal
  refine ⟨hne, hequal, r, hr, hratings, ?_, ?_⟩
  · exact (hboard ⟨"x", ⟨2, 4⟩, ⟨1, 3⟩, 7⟩ (by simp [evenlyLoaded])).1
  · exact (hboard ⟨"y", ⟨4, 8⟩, ⟨2, 6⟩, 7⟩ (by simp [evenlyLoaded])).1

/-! ## Matrices that agree by all criteria but one -/

/-- Row by row two matrices have the same names and, by all criteria but one, equal values. -/
def AgreeBut (c : Criterion) (rows rows' : List Row) : Prop :=
  List.Forall₂ (fun row row' => row.name = row'.name ∧
    ∀ d, d ≠ c → (row.metrics.get d).Same (row'.metrics.get d)) rows rows'

theorem AgreeBut.eq_nil_iff {c : Criterion} {rows rows' : List Row} (h : AgreeBut c rows rows') :
    rows = [] ↔ rows' = [] := by
  rw [← List.length_eq_zero_iff, ← List.length_eq_zero_iff, h.length_eq]

section Agreeing

variable {weights : ByCriterion Binary64} (hweights : ∀ c, Nonnegative (weights.get c))
  {polarities polarities' : ByCriterion Polarity} {rows rows' : List Row} {c d : Criterion}
  {e e' : Extremes}

theorem AgreeBut.norm_eq (h : AgreeBut c rows rows') (hd : d ≠ c) :
    euclideanNorm (column rows d) = euclideanNorm (column rows' d) := by
  apply euclideanNorm_congr
  unfold column
  rw [List.forall₂_map_left_iff, List.forall₂_map_right_iff]
  exact h.imp fun _ _ hrow => hrow.2 d hd

include hweights

theorem AgreeBut.map_place_eq (h : AgreeBut c rows rows') (hd : d ≠ c) :
    (column (weigh weights (normalize rows)) d).map Binary64.place =
      (column (weigh weights (normalize rows')) d).map Binary64.place := by
  unfold column
  rw [weigh_normalize, weigh_normalize, List.map_map, List.map_map, List.map_map, List.map_map]
  exact map_eq_of_forall₂ h fun _ _ hrow =>
    place_weighted_congr hweights (h.norm_eq hd) (hrow.2 d hd)

variable (he : e.IsExtreme polarities (weigh weights (normalize rows)))
  (he' : e'.IsExtreme polarities' (weigh weights (normalize rows')))

include he he'

/-- Rows that agree by all criteria but an indifferent one are rated the same: by that one they lie
at the extremes of their matrices, and by the others the extremes lie at the same places. -/
theorem AgreeBut.ratingIn_eq (h : AgreeBut c rows rows')
    (hpolarities : ∀ d, d ≠ c → polarities.get d = polarities'.get d)
    (hc : Indifferent weights rows c) (hc' : Indifferent weights rows' c) {row row' : Row}
    (hrow : row ∈ rows) (hrow' : row' ∈ rows') (hname : row.name = row'.name)
    (hmetrics : ∀ d, d ≠ c → (row.metrics.get d).Same (row'.metrics.get d)) :
    ratingIn weights rows e row = ratingIn weights rows' e' row' := by
  have hfin : (weighted weights rows row.metrics).Finite := fun d =>
    (isFinite_weighted hweights hrow d).1
  have hfin' : (weighted weights rows' row'.metrics).Finite := fun d =>
    (isFinite_weighted hweights hrow' d).1
  obtain ⟨hideal, hanti⟩ := he.finite (finite_weigh_normalize hweights)
  obtain ⟨hideal', hanti'⟩ := he'.finite (finite_weigh_normalize hweights)
  obtain ⟨hatIdeal, hatAnti⟩ := place_of_indifferent hweights he hc hrow
  obtain ⟨hatIdeal', hatAnti'⟩ := place_of_indifferent hweights he' hc' hrow'
  have hplace : ∀ d, d ≠ c → ((weighted weights rows row.metrics).get d).place =
      ((weighted weights rows' row'.metrics).get d).place := fun d hd =>
    place_weighted_congr hweights (h.norm_eq hd) (hmetrics d hd)
  have hextreme : ∀ d, d ≠ c → (e.ideal.get d).place = (e'.ideal.get d).place ∧
      (e.antiIdeal.get d).place = (e'.antiIdeal.get d).place := fun d hd =>
    he.place_congr he' (hpolarities d hd) fun _ => by rw [h.map_place_eq hweights hd]
  have htoIdeal : distance (weighted weights rows row.metrics) e.ideal =
      distance (weighted weights rows' row'.metrics) e'.ideal := by
    apply distance_eq_of_gap hfin hideal hfin' hideal'
    intro d
    by_cases hd : d = c
    · rw [hd, hatIdeal, hatIdeal', sub_self, sub_self]
    · rw [hplace d hd, (hextreme d hd).1]
  have htoAntiIdeal : distance (weighted weights rows row.metrics) e.antiIdeal =
      distance (weighted weights rows' row'.metrics) e'.antiIdeal := by
    apply distance_eq_of_gap hfin hanti hfin' hanti'
    intro d
    by_cases hd : d = c
    · rw [hd, hatAnti, hatAnti', sub_self, sub_self]
    · rw [hplace d hd, (hextreme d hd).2]
  unfold ratingIn Rating.ofRow closeness
  dsimp only
  rw [htoIdeal, htoAntiIdeal, hname]

end Agreeing

theorem AgreeBut.ratingsOf?_eq {weights : ByCriterion Binary64}
    (hweights : ∀ c, Nonnegative (weights.get c)) {polarities polarities' : ByCriterion Polarity}
    {rows rows' : List Row} {c : Criterion} (h : AgreeBut c rows rows')
    (hpolarities : ∀ d, d ≠ c → polarities.get d = polarities'.get d)
    (hc : Indifferent weights rows c) (hc' : Indifferent weights rows' c) :
    ratingsOf? weights polarities rows = ratingsOf? weights polarities' rows' := by
  by_cases hne : rows = []
  · rw [(ratingsOf?_eq_none_iff _ _ _).2 hne, (ratingsOf?_eq_none_iff _ _ _).2 (h.eq_nil_iff.1 hne)]
  obtain ⟨e, he, heq⟩ := exists_ratingsOf? hweights polarities hne
  obtain ⟨e', he', heq'⟩ := exists_ratingsOf? hweights polarities' (mt h.eq_nil_iff.2 hne)
  rw [heq, heq', Option.some.injEq]
  obtain ⟨hlength, hzip⟩ := List.forall₂_iff_zip.1 h
  apply map_eq_of_forall₂ (R := fun row row' => ratingIn weights rows e row =
    ratingIn weights rows' e' row') _ fun _ _ heq => heq
  refine List.forall₂_iff_zip.2 ⟨hlength, fun {row row'} hmem => ?_⟩
  obtain ⟨hrow, hrow'⟩ := List.of_mem_zip hmem
  obtain ⟨hname, hmetrics⟩ := hzip hmem
  exact h.ratingIn_eq hweights he he' hpolarities hc hc' hrow hrow' hname hmetrics

/-! ## Power without a weight -/

/-- The curve of power matters to nothing but power. -/
theorem agreeBut_power (exp exp' : Binary64 → Binary64) (settings : Settings) (curve : PowerCurve)
    (workload : Workload) (nodes : List Node) :
    AgreeBut .power (measuredRows exp settings workload nodes)
      (measuredRows exp' { settings with curve } workload nodes) := by
  unfold AgreeBut measuredRows measure
  rw [List.forall₂_map_left_iff, List.forall₂_map_right_iff]
  refine List.forall₂_same.2 fun node _ => ⟨rfl, fun d hd => ?_⟩
  cases d with
  | pods => exact .refl _
  | cpu => exact .refl _
  | memory => exact .refl _
  | power => exact absurd rfl hd

theorem isZero_weights_repaired {settings : Settings} {c : Criterion}
    (h : (settings.weights.get c).isZero = true) :
    (settings.repaired.weights.get c).isZero = true := by
  obtain ⟨s, hs⟩ := exists_eq_zero h
  have hweight : Nonnegative (settings.weights.get c) := by
    rw [hs]
    exact nonnegative_of_place rfl (place_zero s).ge
  rw [settings.get_weights] at hweight h
  rw [settings.repaired.get_weights, Settings.criterion_repaired hweight, h]

theorem prepare_eq (exp : Binary64 → Binary64) (settings : Settings) (attempt : ℕ)
    (workload : Workload) (nodes : List Node) :
    (Policy.powerAware exp settings).prepare attempt workload nodes =
      (ratingsOf? settings.repaired.weights settings.repaired.polarities
        (measuredRows exp settings workload nodes)).map .ofRatings := by
  show (rank exp settings workload nodes).map (·.board) = _
  rw [← rank_ratings, Option.map_map]
  cases hr : rank exp settings workload nodes with
  | none => rfl
  | some r => exact congrArg some (board_eq hr)

/-- A criterion without a weight, or with equal values in each of two matrices, interferes with no
rating: whatever its values and its polarity, all names have the same closeness and score. So
without a weight for power the board depends neither on the curve nor on the exponential. -/
theorem ratings_of_agreeing :
    (∀ (c : Criterion) (weights : ByCriterion Binary64)
      (polarities polarities' : ByCriterion Polarity) (rows rows' : List Row),
      (∀ d, Nonnegative (weights.get d)) → AgreeBut c rows rows' →
      (∀ d, d ≠ c → polarities.get d = polarities'.get d) →
      ((weights.get c).isZero = true ∨ Uniform (column rows c) ∧ Uniform (column rows' c)) →
      ratingsOf? weights polarities rows = ratingsOf? weights polarities' rows') ∧
    ∀ (exp exp' : Binary64 → Binary64) (settings : Settings) (curve : PowerCurve),
      (settings.weights.get .power).isZero = true →
      ∀ (attempt : ℕ) (workload : Workload) (nodes : List Node),
      (Policy.powerAware exp settings).prepare attempt workload nodes =
        (Policy.powerAware exp' { settings with curve }).prepare attempt workload nodes := by
  constructor
  · intro c weights polarities polarities' rows rows' hweights hagree hpolarities hc
    apply hagree.ratingsOf?_eq hweights hpolarities
    · exact hc.imp_right And.left
    · exact hc.imp_right And.right
  · intro exp exp' settings curve hzero attempt workload nodes
    have hc := isZero_weights_repaired hzero
    rw [prepare_eq, prepare_eq]
    congr 1
    exact (agreeBut_power exp exp' settings curve workload nodes).ratingsOf?_eq
      settings.nonnegative_weight_repaired (fun _ _ => rfl) (.inl hc) (.inl hc)

/-- Two rows with as much memory each, and different amounts of all else. -/
def withMemory (memory : Binary64) : List Row :=
  [⟨"a", ⟨1, 0.5, memory, 150⟩⟩, ⟨"b", ⟨4, 0.25, memory, 1e-12⟩⟩]

/-- How much memory both rows use does not matter under a heavy weight for it, nor which end of the
scale is the good one; and the standard curve is no other than none. -/
theorem ratings_withMemory :
    AgreeBut .memory (withMemory 0) (withMemory 1e300) ∧
    Uniform (column (withMemory 0) .memory) ∧ Uniform (column (withMemory 1e300) .memory) ∧
    ratingsOf? ⟨1, 1, 1e308, 1⟩ ⟨.cost, .benefit, .cost, .cost⟩ (withMemory 0) =
      ratingsOf? ⟨1, 1, 1e308, 1⟩ ⟨.cost, .benefit, .benefit, .cost⟩ (withMemory 1e300) ∧
    ((costs 1 1).weights.get .power).isZero = true ∧
    (Policy.powerAware (fun _ => 1) (costs 1 1)).prepare 0 emptyWorkload evenlyLoaded =
      (Policy.powerAware (fun _ => 0) { costs 1 1 with curve := .standard }).prepare 0
        emptyWorkload evenlyLoaded := by
  have hagree : AgreeBut .memory (withMemory 0) (withMemory 1e300) := by
    have hrow : ∀ (pods cpu power : Binary64) (d : Criterion), d ≠ .memory →
        ((⟨pods, cpu, 0, power⟩ : Metrics).get d).Same
          ((⟨pods, cpu, 1e300, power⟩ : Metrics).get d) := by
      intro pods cpu power d hd
      cases d with
      | memory => exact absurd rfl hd
      | pods => exact .refl _
      | cpu => exact .refl _
      | power => exact .refl _
    exact .cons ⟨rfl, hrow _ _ _⟩ (.cons ⟨rfl, hrow _ _ _⟩ .nil)
  have husable : ∀ d, Nonnegative ((⟨1, 1, 1e308, 1⟩ : ByCriterion Binary64).get d) := by
    intro d
    unfold Nonnegative
    cases d <;> decide +kernel
  have hpolarities : ∀ d, d ≠ .memory →
      (⟨.cost, .benefit, .cost, .cost⟩ : ByCriterion Polarity).get d =
        (⟨.cost, .benefit, .benefit, .cost⟩ : ByCriterion Polarity).get d := by
    intro d hd
    cases d <;> first | rfl | exact absurd rfl hd
  have huniform : Uniform (column (withMemory 0) .memory) := by decide +kernel
  have huniform' : Uniform (column (withMemory 1e300) .memory) := by decide +kernel
  have hzero : ((costs 1 1).weights.get .power).isZero = true := by decide +kernel
  exact ⟨hagree, huniform, huniform',
    ratings_of_agreeing.1 .memory _ _ _ _ _ husable hagree hpolarities (.inr ⟨huniform, huniform'⟩),
    hzero, ratings_of_agreeing.2 (fun _ => 1) (fun _ => 0) (costs 1 1) .standard hzero 0
      emptyWorkload evenlyLoaded⟩

end NodeRanking
