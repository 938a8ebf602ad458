import NodeRanking.Proofs.Ranking

/-!
# The range of closeness

1. A closeness is a number from 0 to 1 exactly where the distance to the anti-ideal is finite, and
   a NaN where it is not (`closeness_inUnit_iff`). Columns are scaled before they are squared, but
   the gaps between weighted values are not, so a large weight makes a distance overflow.
2. Weights up to `2 ^ 509` keep every distance finite (`isFinite_distance`).
-/

namespace NodeRanking

open Binary64

attribute [local irreducible] Binary64.one Binary64.limit

/-! ## Safe weights -/

/-- The largest weight that keeps every distance finite, `2 ^ 509`, in units. -/
def safeWeight : ℕ := Nat.pow 2 1583

/-- The largest square of a gap under safe weights, `2 ^ 1020`, in units. -/
def safeSquare : ℕ := Nat.pow 2 2094

theorem safeWeight_eq_pow : ∃ k, safeWeight = Nat.pow 2 k := by
  unfold safeWeight
  exact ⟨_, rfl⟩

theorem safeSquare_eq_pow : ∃ k, safeSquare = Nat.pow 2 k := by
  unfold safeSquare
  exact ⟨_, rfl⟩

theorem onGrid_two_mul_safeWeight : OnGrid (2 * safeWeight) :=
  onGrid_mul_pow (by norm_num) safeWeight_eq_pow

theorem two_mul_safeWeight_lt : 2 * safeWeight < limit := by decide +kernel

theorem safeWeight_mul_self : 2 * safeWeight * (2 * safeWeight) = safeSquare * one := by
  decide +kernel

theorem four_mul_safeSquare_lt : 4 * safeSquare < limit := by decide +kernel

attribute [local irreducible] safeWeight safeSquare

/-- The square of the gap of two values up to a safe weight. -/
theorem height_square_sub_le {x y : Binary64} (hx : x.isFinite = true) (hy : y.isFinite = true)
    (hxle : x.height ≤ safeWeight) (hyle : y.height ≤ safeWeight) :
    (x - y).square.height ≤ safeSquare := by
  have hgap : (x - y).height ≤ 2 * safeWeight := by
    rw [height_sub hx hy]
    refine (min_le_left _ _).trans (nearest_le Nat.one_pos onGrid_two_mul_safeWeight ?_)
    unfold height at hxle hyle
    omega
  have hfin : (x - y).isFinite = true :=
    isFinite_iff.2 ⟨sub_ne_nan hx hy, hgap.trans_lt two_mul_safeWeight_lt⟩
  rw [height_square hfin]
  refine (min_le_left _ _).trans (nearest_le Binary64.one_pos (onGrid_pow safeSquare_eq_pow) ?_)
  rw [← safeWeight_mul_self]
  exact Nat.mul_le_mul hgap hgap

theorem isFinite_distance {a b : Metrics} (ha : a.Finite) (hb : b.Finite)
    (hale : ∀ c, (a.get c).height ≤ safeWeight) (hble : ∀ c, (b.get c).height ≤ safeWeight) :
    (distance a b).isFinite = true := by
  rw [distance_eq, isFinite_sqrt_iff (unsigned_squares ha hb),
    (unsigned_squares ha hb).isFinite_iff]
  have hsquares : ∀ x ∈ Criterion.all.map fun c => (a.get c - b.get c).square,
      x.Unsigned ∧ x.height ≤ safeSquare := by
    intro x hx
    obtain ⟨c, -, rfl⟩ := List.mem_map.1 hx
    exact ⟨unsigned_square_sub ha hb c, height_square_sub_le (ha c) (hb c) (hale c) (hble c)⟩
  have hsum : (squares a b).height ≤ 4 * safeSquare := by
    refine height_sum_le hsquares fun k hk => onGrid_mul_pow ?_ safeSquare_eq_pow
    exact hk.trans (show 4 ≤ 2 ^ 53 by norm_num)
  exact hsum.trans_lt four_mul_safeSquare_lt

/-! ## The closeness of a candidate -/

variable {exp : Binary64 → Binary64} {settings : Settings} {workload : Workload}
  {nodes : List Node} {r : Ranking}

theorem share_nan_or_inUnit {p m : Binary64} (hp : p.Unsigned) (hm : m.Unsigned) :
    (InUnit (share p m) ↔ m.isFinite = true) ∧ (m.isFinite = false → share p m = .nan) := by
  cases hfin : m.isFinite with
  | true =>
    obtain ⟨hu, hsfin, hle⟩ := share_mem hp hm hfin
    simp [inUnit_of_height_le hu hsfin hle]
  | false =>
    have hnan : share p m = .nan := by rw [hm.eq_infinity hfin, share_infinity hp]
    simp [hnan, not_inUnit_nan]

/-- Safe weights keep all weighted values, and so the extremes, up to the safe weight. -/
theorem isFinite_toAntiIdeal (h : rank exp settings workload nodes = some r)
    (hsafe : ∀ c, (settings.repaired.weights.get c).height ≤ safeWeight) {x : Standing}
    (hx : x ∈ r.standings) : x.toAntiIdeal.isFinite = true := by
  obtain ⟨e, he, rfl⟩ := exists_isExtreme h
  have hrows := finite_weightedRows exp settings workload nodes
  obtain ⟨row, hrow, rfl⟩ := mem_standings_rankingOf hx
  apply isFinite_distance (finite_weightedMetrics exp settings workload nodes hrow)
    (he.finite hrows).2
  · intro c
    exact (height_weightedMetrics_le exp settings workload nodes hrow c).trans (hsafe c)
  · intro c
    obtain ⟨row', hrow', heq⟩ :=
      (mem_column_weightedRows exp settings workload nodes).1 (he.antiIdeal_mem c)
    rw [← heq]
    exact (height_weightedMetrics_le exp settings workload nodes hrow' c).trans (hsafe c)

/-- Every candidate has a closeness; it is a number from 0 to 1 exactly where the distance to the
anti-ideal is finite, and a NaN elsewhere. With safe weights it always is such a number. -/
theorem closeness_inUnit_iff (exp : Binary64 → Binary64) (settings : Settings)
    (workload : Workload) (nodes : List Node) (h : nodes ≠ []) :
    ∃ r, rank exp settings workload nodes = some r ∧ r.ratings.length = nodes.length ∧
      r.standings.map (·.rating) = r.ratings ∧
      (∀ x ∈ r.standings, (InUnit x.rating.closeness ↔ x.toAntiIdeal.isFinite = true) ∧
        (x.toAntiIdeal.isFinite = false → x.rating.closeness = .nan)) ∧
      ((∀ c, (settings.repaired.weights.get c).height ≤ safeWeight) →
        ∀ rating ∈ r.ratings, InUnit rating.closeness) := by
  obtain ⟨r, hr⟩ := exists_rank exp settings workload h
  have hrange : ∀ x ∈ r.standings, (InUnit x.rating.closeness ↔ x.toAntiIdeal.isFinite = true) ∧
      (x.toAntiIdeal.isFinite = false → x.rating.closeness = .nan) := by
    intro x hx
    obtain ⟨hp, hm, hcloseness, -⟩ := standing_spec hr hx
    rw [hcloseness]
    exact share_nan_or_inUnit hp hm
  refine ⟨r, hr, length_ratings hr, map_rating_standings hr, hrange, ?_⟩
  intro hsafe rating hrating
  rw [← map_rating_standings hr] at hrating
  obtain ⟨x, hx, rfl⟩ := List.mem_map.1 hrating
  exact (hrange x hx).1.2 (isFinite_toAntiIdeal hr hsafe hx)

/-! ## Two nodes under a large weight -/

/-- A node with free memory and one without. -/
def freeAndFull : List Node :=
  [⟨"free", ⟨1, 1⟩, ⟨0, 0⟩, 0⟩, ⟨"full", ⟨1, 1⟩, ⟨0, 1⟩, 0⟩]

/-- Under a finite weight whose square is not finite the free node is the ideal, but its closeness
is infinity over infinity. -/
theorem closeness_heavy_memory :
    ∃ r, rank (fun _ => 1) (costs 0 1e200) emptyWorkload freeAndFull = some r ∧
      r.ratings = [⟨"free", .nan, 0⟩, ⟨"full", 0, 0⟩] ∧
      ¬∀ rating ∈ r.ratings, InUnit rating.closeness := by
  obtain ⟨r, hr, heq⟩ : ∃ r, rank (fun _ => 1) (costs 0 1e200) emptyWorkload freeAndFull = some r ∧
      r.ratings = [⟨"free", .nan, 0⟩, ⟨"full", 0, 0⟩] := exists_of_any (by decide +kernel)
  refine ⟨r, hr, heq, fun hall => not_inUnit_nan (hall ⟨"free", .nan, 0⟩ ?_)⟩
  rw [heq]
  exact List.mem_cons_self

/-- The standard weights are safe. -/
theorem closeness_inUnit_standard :
    freeAndFull ≠ [] ∧ ∃ r, rank (fun _ => 1) .standard emptyWorkload freeAndFull = some r ∧
      ∀ rating ∈ r.ratings, InUnit rating.closeness := by
  have hne : freeAndFull ≠ [] := by decide
  obtain ⟨r, hr, -, -, -, hsafe⟩ :=
    closeness_inUnit_iff (fun _ => 1) .standard emptyWorkload freeAndFull hne
  refine ⟨hne, r, hr, hsafe fun c => ?_⟩
  cases c <;> decide +kernel

end NodeRanking
