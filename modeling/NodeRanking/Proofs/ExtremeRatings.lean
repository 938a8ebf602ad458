import NodeRanking.Proofs.Dominance

/-!
# The ratings of the best and the worst candidate

1. A candidate that is at least as good as every other one by every criterion lies at the ideal, and
   one that is at most as good at the anti-ideal (`toIdeal_of_best`, `toAntiIdeal_of_worst`).
2. So their ratings are exact where the two points are far enough apart: the full score and none
   (`rating_of_best`, `rating_of_worst`). A candidate that is both is undecided, which is half of the
   score (`rating_of_level`).
3. A candidate needs to be compared with the other ones only: alone it would be both extremes, and
   these would not be apart (`span_of_alike`, `rank_rates_ends`).
-/

namespace NodeRanking

open Binary64

attribute [local irreducible] Binary64.one Binary64.limit

variable {exp : Binary64 → Binary64} {settings : Settings} {workload : Workload}
  {nodes : List Node} {r : Ranking} {a : Standing}

/-! ## Places -/

section Places

variable {e : Extremes}
  (he : e.IsExtreme settings.polarities (weightedRows exp settings workload nodes))
  {row : Row} (hrow : row ∈ measuredRows exp settings workload nodes)

include he hrow

/-- Every criterion has a best row, which is dominated too. -/
theorem place_weighted_of_best
    (h : ∀ other ∈ measuredRows exp settings workload nodes,
      Dominates settings.polarities row.metrics other.metrics) (c : Criterion) :
    ((weightedMetrics exp settings workload nodes row.metrics).get c).place =
      (e.ideal.get c).place := by
  obtain ⟨other, hother, heq⟩ :=
    (mem_column_weightedRows exp settings workload nodes).1 (he.ideal_mem c)
  have hle := (h other hother).merit_weighted settings.nonnegative_weight_repaired hrow hother c
  have hge := he.merit_le_ideal c _
    ((mem_column_weightedRows exp settings workload nodes).2 ⟨row, hrow, rfl⟩)
  rw [← heq] at hge ⊢
  exact (settings.polarities.get c).place_eq_of_merit_eq (le_antisymm hge hle)

theorem place_weighted_of_worst
    (h : ∀ other ∈ measuredRows exp settings workload nodes,
      Dominates settings.polarities other.metrics row.metrics) (c : Criterion) :
    ((weightedMetrics exp settings workload nodes row.metrics).get c).place =
      (e.antiIdeal.get c).place := by
  obtain ⟨other, hother, heq⟩ :=
    (mem_column_weightedRows exp settings workload nodes).1 (he.antiIdeal_mem c)
  have hle := (h other hother).merit_weighted settings.nonnegative_weight_repaired hother hrow c
  have hge := he.antiIdeal_le_merit c _
    ((mem_column_weightedRows exp settings workload nodes).2 ⟨row, hrow, rfl⟩)
  rw [← heq] at hge ⊢
  exact (settings.polarities.get c).place_eq_of_merit_eq (le_antisymm hle hge)

end Places

/-! ## Distances -/

/-- The distance between the two extremes of a ranking. -/
def Ranking.span (r : Ranking) : Binary64 := distance r.extremes.ideal r.extremes.antiIdeal

theorem mem_standings_of_row {e : Extremes} {row : Row}
    (hrow : row ∈ measuredRows exp settings workload nodes) :
    .ofRow e row (weightedMetrics exp settings workload nodes row.metrics) ∈
      (rankingOf exp settings workload nodes e).standings := by
  rw [standings_rankingOf]
  exact List.mem_map.2 ⟨row, hrow, rfl⟩

section Distances

variable (hr : rank exp settings workload nodes = some r) 

include hr

theorem unsigned_span : r.span.Unsigned := by
  obtain ⟨e, he, rfl⟩ := exists_isExtreme hr
  have hext := he.finite (finite_weightedRows exp settings workload nodes)
  exact unsigned_distance hext.1 hext.2

variable (ha : a ∈ r.standings)

include ha

/-- The best candidate lies at the ideal. -/
theorem toIdeal_of_best
    (h : ∀ b ∈ r.standings, Dominates settings.polarities a.metrics b.metrics) :
    a.toIdeal = 0 ∧ a.toAntiIdeal = r.span := by
  obtain ⟨e, he, rfl⟩ := exists_isExtreme hr
  obtain ⟨row, hrow, rfl⟩ := mem_standings_rankingOf ha
  have hfin := finite_weightedMetrics exp settings workload nodes hrow
  have hext := he.finite (finite_weightedRows exp settings workload nodes)
  have hplace := place_weighted_of_best he hrow fun other hother =>
    h _ (mem_standings_of_row hother)
  constructor
  · exact (distance_congr hfin hext.1 hext.1 hext.1 hplace fun _ => rfl).trans
      (distance_self hext.1)
  · exact distance_congr hfin hext.2 hext.1 hext.2 hplace fun _ => rfl

/-- The worst candidate lies at the anti-ideal. -/
theorem toAntiIdeal_of_worst
    (h : ∀ b ∈ r.standings, Dominates settings.polarities b.metrics a.metrics) :
    a.toAntiIdeal = 0 ∧ a.toIdeal = r.span := by
  obtain ⟨e, he, rfl⟩ := exists_isExtreme hr
  obtain ⟨row, hrow, rfl⟩ := mem_standings_rankingOf ha
  have hfin := finite_weightedMetrics exp settings workload nodes hrow
  have hext := he.finite (finite_weightedRows exp settings workload nodes)
  have hplace := place_weighted_of_worst he hrow fun other hother =>
    h _ (mem_standings_of_row hother)
  constructor
  · exact (distance_congr hfin hext.2 hext.2 hext.2 hplace fun _ => rfl).trans
      (distance_self hext.2)
  · exact (distance_congr hfin hext.1 hext.2 hext.1 hplace fun _ => rfl).trans
      (distance_comm hext.2 hext.1)

/-! ## Ratings -/

/-- A candidate that is both best and worst lies at both extremes. -/
theorem rating_of_level
    (hbest : ∀ b ∈ r.standings, Dominates settings.polarities a.metrics b.metrics)
    (hworst : ∀ b ∈ r.standings, Dominates settings.polarities b.metrics a.metrics) :
    a.rating.closeness = undecided ∧ a.rating.score = 50 := by
  obtain ⟨-, -, hcloseness, hscore⟩ := standing_spec hr ha
  rw [(toIdeal_of_best hr ha hbest).1, (toAntiIdeal_of_worst hr ha hworst).1,
    share_zero_zero] at hcloseness
  rw [hscore, hcloseness]
  exact ⟨rfl, scoreOf_undecided⟩

variable (hfin : r.span.isFinite = true) (hapart : ¬r.span < negligible)

include hfin hapart

theorem rating_of_best
    (h : ∀ b ∈ r.standings, Dominates settings.polarities a.metrics b.metrics) :
    a.rating.closeness = 1 ∧ a.rating.score = topScore := by
  obtain ⟨-, -, hcloseness, hscore⟩ := standing_spec hr ha
  obtain ⟨hideal, hanti⟩ := toIdeal_of_best hr ha h
  rw [hideal, hanti, share_zero_left (unsigned_span hr) hfin hapart] at hcloseness
  rw [hscore, hcloseness]
  exact ⟨rfl, scoreOf_one⟩

theorem rating_of_worst
    (h : ∀ b ∈ r.standings, Dominates settings.polarities b.metrics a.metrics) :
    a.rating.closeness = 0 ∧ a.rating.score = 0 := by
  obtain ⟨-, -, hcloseness, hscore⟩ := standing_spec hr ha
  obtain ⟨hanti, hideal⟩ := toAntiIdeal_of_worst hr ha h
  rw [hideal, hanti, share_zero_right (unsigned_span hr) hfin hapart] at hcloseness
  rw [hscore, hcloseness]
  exact ⟨rfl, scoreOf_zero⟩

end Distances

/-! ## Among the others -/

/-- What is at least as good as something is a number, and as good as itself. -/
theorem Polarity.AtLeast.self {p : Polarity} {x y : Binary64} (h : p.AtLeast x y) :
    p.AtLeast x x ∧ p.AtLeast y y := by
  cases p with
  | benefit =>
    obtain ⟨hy, hx, -⟩ := le_iff.1 h
    exact ⟨le_iff.2 ⟨hx, hx, le_rfl⟩, le_iff.2 ⟨hy, hy, le_rfl⟩⟩
  | cost =>
    obtain ⟨hx, hy, -⟩ := le_iff.1 h
    exact ⟨le_iff.2 ⟨hx, hx, le_rfl⟩, le_iff.2 ⟨hy, hy, le_rfl⟩⟩

section Others

variable (hr : rank exp settings workload nodes = some r)

include hr

/-- The extremes of candidates that measure the same lie together. -/
theorem span_of_alike {metrics : Metrics} (h : ∀ b ∈ r.standings, b.metrics = metrics) :
    r.span = 0 := by
  obtain ⟨e, he, rfl⟩ := exists_isExtreme hr
  have hext := he.finite (finite_weightedRows exp settings workload nodes)
  have hcolumn : ∀ c, ∀ x ∈ column (weightedRows exp settings workload nodes) c,
      x = (weightedMetrics exp settings workload nodes metrics).get c := by
    intro c x hx
    obtain ⟨row, hrow, rfl⟩ := (mem_column_weightedRows exp settings workload nodes).1 hx
    have hmetrics : row.metrics = metrics := h _ (mem_standings_of_row hrow)
    rw [hmetrics]
  have hplace : ∀ c, (e.antiIdeal.get c).place = (e.ideal.get c).place := by
    intro c
    rw [hcolumn c _ (he.antiIdeal_mem c), hcolumn c _ (he.ideal_mem c)]
  exact (distance_congr hext.1 hext.2 hext.1 hext.1 (fun _ => rfl) hplace).trans
    (distance_self hext.1)

variable (hapart : negligible ≤ r.span) {i : ℕ} (hi : r.standings[i]? = some a)

include hapart hi

/-- Extremes that are apart take more than one candidate. -/
theorem exists_other : ∃ j b, j ≠ i ∧ r.standings[j]? = some b := by
  by_contra! halone
  have halike : ∀ b ∈ r.standings, b.metrics = a.metrics := by
    intro b hb
    obtain ⟨j, hj⟩ := List.mem_iff_getElem?.1 hb
    have hji : j = i := by
      by_contra hne
      exact halone j b hne hj
    rw [hji, hi] at hj
    rw [Option.some.inj hj]
  rw [span_of_alike hr halike] at hapart
  exact absurd hapart (by decide +kernel)

/-- What holds of the others, and of a candidate itself as soon as there is another one, holds of
all. -/
theorem forall_of_others {P : Standing → Prop}
    (hself : ∀ b, P b → P a) (h : ∀ j b, j ≠ i → r.standings[j]? = some b → P b) :
    ∀ b ∈ r.standings, P b := by
  intro b hb
  obtain ⟨j, hj⟩ := List.mem_iff_getElem?.1 hb
  by_cases hji : j = i
  · obtain ⟨k, other, hki, hk⟩ := exists_other hr hapart hi
    rw [hji, hi] at hj
    rw [← Option.some.inj hj]
    exact hself other (h k other hki hk)
  · exact h j b hji hj

/-- Where the extremes are a finite distance apart that does not count as zero, a candidate that is
at least as good by every criterion as all the others has the full closeness and the full score, and
one that all the others are at least as good as has none. -/
theorem rank_rates_ends (hfin : r.span.isFinite = true) :
    ((∀ j b, j ≠ i → r.standings[j]? = some b →
        Dominates settings.repaired.polarities a.metrics b.metrics) →
      a.rating.closeness = 1 ∧ a.rating.score = 100) ∧
    ((∀ j b, j ≠ i → r.standings[j]? = some b →
        Dominates settings.repaired.polarities b.metrics a.metrics) →
      a.rating.closeness = 0 ∧ a.rating.score = 0) := by
  rw [settings.polarities_repaired]
  have ha := List.mem_of_getElem? hi
  have hapart' := not_lt_of_le hapart
  constructor
  · intro h
    have hbest := forall_of_others hr hapart hi (fun b hb c => (hb c).self.1) h
    exact rating_of_best hr ha hfin hapart' hbest
  · intro h
    have hworst := forall_of_others hr hapart hi (fun b hb c => (hb c).self.2) h
    exact rating_of_worst hr ha hfin hapart' hworst

end Others

/-- The bare node has the full score beside one with a pod and one that is full, which has none. -/
theorem rank_rates_bareToFull :
    ∃ r, rank (fun _ => 1) (costs 1 1) emptyWorkload bareToFull = some r ∧
      ∃ bare full, r.standings[0]? = some bare ∧ r.standings[2]? = some full ∧
        bare.rating.closeness = 1 ∧ bare.rating.score = 100 ∧
        full.rating.closeness = 0 ∧ full.rating.score = 0 := by
  obtain ⟨r, hr, hfin, hapart, hlen, hbest, hworst⟩ :
      ∃ r, rank (fun _ => 1) (costs 1 1) emptyWorkload bareToFull = some r ∧
        r.span.isFinite = true ∧ negligible ≤ r.span ∧ ∃ _ : r.standings.length = 3,
          (∀ b ∈ r.standings,
            Dominates (costs 1 1).repaired.polarities r.standings[0].metrics b.metrics) ∧
          ∀ b ∈ r.standings,
            Dominates (costs 1 1).repaired.polarities b.metrics r.standings[2].metrics :=
    exists_of_any (by decide +kernel)
  have hbare : r.standings[0]? = some r.standings[0] := List.getElem?_eq_getElem _
  have hfull : r.standings[2]? = some r.standings[2] := List.getElem?_eq_getElem _
  obtain ⟨hcloseness, hscore⟩ := (rank_rates_ends hr hapart hbare hfin).1 fun j b _ hj =>
    hbest b (List.mem_of_getElem? hj)
  obtain ⟨hcloseness', hscore'⟩ := (rank_rates_ends hr hapart hfull hfin).2 fun j b _ hj =>
    hworst b (List.mem_of_getElem? hj)
  exact ⟨r, hr, _, _, hbare, hfull, hcloseness, hscore, hcloseness', hscore'⟩

end NodeRanking
