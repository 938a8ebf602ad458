import NodeRanking.Proofs.Measuring
import NodeRanking.Proofs.Ranking

/-!
# The range of the matrices

Every stage of a ranking stays in bounds that the next stage relies on, whatever the settings.

1. What is measured is finite and not below zero, and the power lies between the base and the peak
   of the curve (`measures_of_node`).
2. Normalized values are numbers from 0 to 1 (`inUnit_divideOrZero`), so weighted ones lie between 0
   and the weight (`within_mul_weight`), and with them both extremes (`rank_within`).
-/

namespace NodeRanking

open Binary64

attribute [local irreducible] Binary64.one Binary64.limit

/-- A finite number from `low` to `high`. -/
def Within (low high x : Binary64) : Prop := x.isFinite = true ∧ low ≤ x ∧ x ≤ high

theorem within_iff {low high x : Binary64} (hlow : low.isFinite = true)
    (hhigh : high.isFinite = true) :
    Within low high x ↔ x ≠ .nan ∧ low.place ≤ x.place ∧ x.place ≤ high.place := by
  have hlow' := ne_nan_of_isFinite hlow
  have hhigh' := ne_nan_of_isFinite hhigh
  unfold Within
  rw [le_iff, le_iff]
  constructor
  · rintro ⟨-, ⟨-, hnan, hle⟩, -, -, hle'⟩
    exact ⟨hnan, hle, hle'⟩
  · rintro ⟨hnan, hle, hle'⟩
    exact ⟨isFinite_of_place_mem hnan hlow hhigh hle hle', ⟨hlow', hnan, hle⟩, hnan, hhigh', hle'⟩

/-! ## What is measured -/

theorem nonnegative_usage (requested allocatable : UInt64) :
    Nonnegative (usage requested allocatable) :=
  nonnegative_of_unsigned (isFinite_usage _ _) (unsigned_usage _ _)

theorem nonnegative_pods (pods : UInt32) : Nonnegative (Binary64.ofNat pods.toNat) := by
  have hle : pods.toNat ≤ UInt64.size := by
    have := pods.toNat_lt_size
    have : UInt32.size ≤ UInt64.size := by decide
    omega
  exact nonnegative_of_unsigned (isFinite_ofNat hle) (unsigned_ofNat _)

/-- What holds of the four values holds of every value. -/
theorem ByCriterion.forall_get {α : Type} {P : α → Prop} {v : ByCriterion α} (hpods : P v.pods)
    (hcpu : P v.cpu) (hmemory : P v.memory) (hpower : P v.power) : ∀ c, P (v.get c) := by
  intro c
  cases c with
  | pods => exact hpods
  | cpu => exact hcpu
  | memory => exact hmemory
  | power => exact hpower

section Measures

variable {exp : Binary64 → Binary64} (hexp : UnitBelowZero exp) {curve : PowerCurve}
  (hcurve : curve.Usable)

include hexp hcurve

/-- The power of a usable curve lies between its base and its peak. -/
theorem within_powerAt {u : Binary64} (hu : Nonnegative u) :
    Within curve.base (curve.base + curve.scale) (curve.powerAt exp u) := by
  obtain ⟨hfin, hlow, hhigh⟩ := hcurve.powerAt_mem hexp hu.1 hu.place_nonneg
  rw [within_iff hcurve.base.1 hcurve.peak_finite]
  exact ⟨ne_nan_of_isFinite hfin, hlow, hhigh⟩

/-- What is measured of a node. -/
theorem measures_of_node (node : Node) :
    (∀ c, Nonnegative ((node.metrics exp curve).get c)) ∧
      Within curve.base (curve.base + curve.scale) (node.metrics exp curve).power := by
  have hcpu := nonnegative_usage node.requested.cpu node.allocatable.cpu
  have hmemory := nonnegative_usage node.requested.memory node.allocatable.memory
  have hpower := within_powerAt hexp hcurve hcpu
  have hbase := (le_iff.1 hpower.2.1).2.2
  have hpower0 := nonnegative_of_place hpower.1 (hcurve.base.place_nonneg.trans hbase)
  unfold Node.metrics
  exact ⟨ByCriterion.forall_get (nonnegative_pods node.pods) hcpu hmemory hpower0, hpower⟩

end Measures

/-! ## What is normalized and weighted -/

/-- A value of a column that is not below zero is normalized to a number from 0 to 1. -/
theorem inUnit_divideOrZero {xs : List Binary64} {x : Binary64} (hx : x ∈ xs)
    (hnonneg : 0 ≤ x.place) : InUnit (divideOrZero x (euclideanNorm xs)) := by
  have hfin := isFinite_divideOrZero x (euclideanNorm xs)
  have hle := height_divideOrZero_le hx
  have hlow : 0 ≤ (divideOrZero x (euclideanNorm xs)).place := by
    rcases divideOrZero_cases xs with h0 | ⟨hpos, hq⟩
    · rw [h0 x hx]
    · rw [(hq x hx).2, ← place_ofNat_zero]
      apply le_roundPlace hpos
      rw [place_ofNat_zero, zero_mul]
      exact mul_nonneg hnonneg (Int.natCast_nonneg _)
  refine inUnit_iff.2 ⟨ne_nan_of_isFinite hfin, hlow, ?_⟩
  unfold height at hle
  omega

/-- A number from 0 to 1 times a usable weight lies between 0 and the weight. -/
theorem within_mul_weight {x w : Binary64} (hx : InUnit x) (hw : Nonnegative w) :
    Within 0 w (x * w) := by
  obtain ⟨hlow, hhigh⟩ := hx.roundPlace_mul_mem hw.place_nonneg
  rw [within_iff isFinite_zero hw.1, place_mul hx.1 hw.1, place_ofNat_zero]
  exact ⟨mul_ne_nan hx.1 hw.1, hlow, hhigh⟩

/-! ## The stages of a ranking -/

section Stages

variable {rows : List Row} (hrows : ∀ row ∈ rows, ∀ c, Nonnegative (row.metrics.get c))

include hrows

theorem inUnit_normalize : ∀ row ∈ normalize rows, ∀ c, InUnit (row.metrics.get c) := by
  intro row hrow c
  unfold normalize mapRows at hrow
  obtain ⟨raw, hraw, rfl⟩ := List.mem_map.1 hrow
  simp only [ByCriterion.get_map, norms, ByCriterion.get_ofFn]
  exact inUnit_divideOrZero (mem_column hraw c) (hrows raw hraw c).place_nonneg

theorem within_weigh {weights : ByCriterion Binary64}
    (hweights : ∀ c, Nonnegative (weights.get c)) :
    ∀ row ∈ weigh weights (normalize rows), ∀ c, Within 0 (weights.get c) (row.metrics.get c) := by
  intro row hrow c
  unfold weigh mapRows at hrow
  obtain ⟨normalized, hnormalized, rfl⟩ := List.mem_map.1 hrow
  simp only [ByCriterion.get_map]
  exact within_mul_weight (inUnit_normalize hrows normalized hnormalized c) (hweights c)

end Stages

/-- Whatever the settings, a ranking exists as soon as there is a node, and all its stages stay in
bounds: what is measured is finite and not below zero, with the power between the base and the peak
of the curve that is used; normalized values are numbers from 0 to 1; and weighted values, as the
extremes among them, lie between 0 and the weight that is used. -/
theorem rank_within {exp : Binary64 → Binary64} (hexp : UnitBelowZero exp) (settings : Settings)
    (workload : Workload) (nodes : List Node) :
    nodes = [] ∧ rank exp settings workload nodes = none ∨
    ∃ r, rank exp settings workload nodes = some r ∧
      (∀ row ∈ r.measured, (∀ c, Nonnegative (row.metrics.get c)) ∧
        Within settings.repaired.curve.base
          (settings.repaired.curve.base + settings.repaired.curve.scale) row.metrics.power) ∧
      (∀ row ∈ normalize r.measured, ∀ c, InUnit (row.metrics.get c)) ∧
      r.weighted = weigh settings.repaired.weights (normalize r.measured) ∧
      (∀ row ∈ r.weighted, ∀ c,
        Within 0 (settings.repaired.weights.get c) (row.metrics.get c)) ∧
      ∀ c, Within 0 (settings.repaired.weights.get c) (r.extremes.ideal.get c) ∧
        Within 0 (settings.repaired.weights.get c) (r.extremes.antiIdeal.get c) := by
  by_cases hne : nodes = []
  · exact .inl ⟨hne, (rank_eq_none_iff exp settings workload nodes).2 hne⟩
  obtain ⟨r, hr⟩ := exists_rank exp settings workload hne
  obtain ⟨e, he, rfl⟩ := exists_isExtreme hr
  have hmeasured : ∀ row ∈ measuredRows exp settings workload nodes,
      (∀ c, Nonnegative (row.metrics.get c)) ∧
        Within settings.repaired.curve.base
          (settings.repaired.curve.base + settings.repaired.curve.scale) row.metrics.power := by
    intro row hrow
    obtain ⟨node, -, rfl⟩ := List.mem_map.1 hrow
    exact measures_of_node hexp settings.usable_curve_repaired _
  have hnonneg := fun row hrow => (hmeasured row hrow).1
  have hweighted := within_weigh hnonneg settings.nonnegative_weight_repaired
  -- either extreme takes its values from the columns of the weighted matrix
  have hcolumn : ∀ c, ∀ x ∈ column (weightedRows exp settings workload nodes) c,
      Within 0 (settings.repaired.weights.get c) x := by
    intro c x hx
    obtain ⟨row, hrow, rfl⟩ := List.mem_map.1 hx
    exact hweighted row hrow c
  exact .inr ⟨_, hr, hmeasured, inUnit_normalize hnonneg, rfl, hweighted, fun c =>
    ⟨hcolumn c _ (he.ideal_mem c), hcolumn c _ (he.antiIdeal_mem c)⟩⟩

/-! ## Wild settings -/

/-- Settings with a NaN, a negative and an infinite weight, and constants near the largest number. -/
def wildSettings : Settings where
  criteria := ⟨⟨.nan, .benefit⟩, ⟨-1, .cost⟩, ⟨1e308, .benefit⟩, ⟨.infinity false, .cost⟩⟩
  curve := ⟨7e307, 1e308, 1e308, .saturating⟩
  mode := .current

/-- The exponential at zero and at minus infinity, where alone `wildSettings` ask for it of these
nodes. -/
def endsOfExp (x : Binary64) : Binary64 := if x = .infinity true then 0 else 1

theorem unitBelowZero_endsOfExp : UnitBelowZero endsOfExp := by
  intro x _
  unfold endsOfExp
  split_ifs
  · exact ⟨le_self unsigned_zero.1, ofNat_zero_le_one⟩
  · exact ⟨ofNat_zero_le_one, le_self unsigned_one.1⟩

/-- A node with nothing on it, and one with more on it than it can give by far. -/
def idleAndCrowded : List Node :=
  [⟨"idle", ⟨1, 1⟩, ⟨0, 0⟩, 0⟩,
    ⟨"crowded", ⟨1, 1⟩, ⟨18446744073709551615, 18446744073709551615⟩, 4294967295⟩]

/-- The wild weights are repaired and the constants are not, and every stage stays in bounds. -/
theorem rank_within_wildSettings :
    UnitBelowZero endsOfExp ∧
    wildSettings.repaired.weights = ⟨0.2, 0.2, 1e308, 0.4⟩ ∧
    wildSettings.repaired.curve = wildSettings.curve ∧
    ∃ r, rank endsOfExp wildSettings emptyWorkload idleAndCrowded = some r ∧
      (∀ row ∈ r.measured, Within 7e307 (7e307 + 1e308) row.metrics.power) ∧
      ∀ row ∈ r.weighted, Within 0 1e308 row.metrics.memory := by
  have hexp := unitBelowZero_endsOfExp
  have hweights : wildSettings.repaired.weights = ⟨0.2, 0.2, 1e308, 0.4⟩ := by decide +kernel
  have hcurve : wildSettings.repaired.curve = wildSettings.curve := by decide +kernel
  refine ⟨hexp, hweights, hcurve, ?_⟩
  rcases rank_within hexp wildSettings emptyWorkload idleAndCrowded with
    ⟨hnil, -⟩ | ⟨r, hr, hmeasured, -, -, hweighted, -⟩
  · simp [idleAndCrowded] at hnil
  rw [hcurve] at hmeasured
  rw [hweights] at hweighted
  exact ⟨r, hr, fun row hrow => (hmeasured row hrow).2, fun row hrow => hweighted row hrow .memory⟩

end NodeRanking
