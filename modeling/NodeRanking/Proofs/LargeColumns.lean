import NodeRanking.Proofs.MatrixRange
import NodeRanking.Proofs.Normalizing

/-!
# Norms of large columns

The values of a column are scaled down before they are squared, and the root of the sum is scaled
back at the end. So a norm overflows only in this last product.

1. A column of values up to `top` has at most the norm of as many values `top`, which is `top` times
   the root of their count (`height_euclideanNorm_le`, `height_euclideanNorm_of_level`).
2. A norm is never so large against the largest value that this would be normalized to zero
   (`height_euclideanNorm_le_mul`), but an infinite one takes all values to zero
   (`exists_nonzero_iff`).
3. In a ranking only the power can be that large (`rank_keeps_large_columns`), and constants of the
   curve that are kept as usable can make it so (`power_lost`).
-/

namespace NodeRanking

open Binary64

attribute [local irreducible] Binary64.one Binary64.limit

/-! ## The root of a count -/

/-- The norm of so many ones. -/
def rootOfCount (n : ℕ) : Binary64 := (Binary64.ofNat (min n (2 ^ 53))).sqrt

section RootOfCount

variable (n : ℕ)

theorem isFinite_count : (Binary64.ofNat (min n (2 ^ 53))).isFinite = true :=
  isFinite_ofNat ((Nat.min_le_right _ _).trans (by decide))

theorem isFinite_rootOfCount : (rootOfCount n).isFinite = true :=
  (isFinite_sqrt_iff (unsigned_ofNat _)).2 (isFinite_count n)

theorem height_rootOfCount_le : (rootOfCount n).height ≤ 2 ^ 27 * one := by
  apply height_sqrt_le_of_le (unsigned_ofNat _) (isFinite_count n) (onGrid_mul_one (by norm_num))
  rw [height_ofNat_of_le (Nat.min_le_right _ _)]
  calc min n (2 ^ 53) * one * one ≤ 2 ^ 54 * one * one :=
        Nat.mul_le_mul_right _ (Nat.mul_le_mul_right _
          ((Nat.min_le_right _ _).trans (Nat.pow_le_pow_right (by decide) (by decide))))
    _ = 2 ^ 27 * one * (2 ^ 27 * one) := by ring

end RootOfCount

/-- A product with a number up to the largest root of a count. -/
theorem nearest_mul_le {m r top : ℕ} (htop : OnGrid top) (hm : m ≤ top) (hr : r ≤ 2 ^ 27 * one) :
    nearest (m * r) one ≤ top * 2 ^ 27 := by
  apply nearest_le Binary64.one_pos (htop.mul_pow ⟨27, rfl⟩)
  rw [Nat.mul_assoc]
  exact Nat.mul_le_mul hm hr

/-! ## The norm -/

namespace Scalable

variable {xs : List Binary64} (h : Scalable xs)

include h

theorem height_root_le : (sumAscending (scaledSquares (largestMagnitude xs) xs)).sqrt.height ≤
    (rootOfCount xs.length).height := by
  obtain ⟨hu, -, hle⟩ := h.height_sumAscending
  apply sqrt_mono hu (unsigned_ofNat _)
  rwa [height_ofNat_of_le (Nat.min_le_right _ _)]

theorem isFinite_root : (sumAscending (scaledSquares (largestMagnitude xs) xs)).sqrt.isFinite =
    true := by
  obtain ⟨hu, -⟩ := h.height_sumAscending
  exact (isFinite_sqrt_iff hu).2 h.isFinite_sumAscending

theorem height_euclideanNorm_eq : (euclideanNorm xs).height =
    min (nearest ((largestMagnitude xs).height *
      (sumAscending (scaledSquares (largestMagnitude xs) xs)).sqrt.height) one) limit := by
  rw [h.euclideanNorm_eq, height_mul h.finite h.isFinite_root]

/-- In a level column every scaled square is a one. -/
theorem sumAscending_of_level (hlevel : ∀ x ∈ xs, x.height = (largestMagnitude xs).height) :
    sumAscending (scaledSquares (largestMagnitude xs) xs) =
      Binary64.ofNat (min xs.length (2 ^ 53)) := by
  have hones : sortBy totalLe (scaledSquares (largestMagnitude xs) xs) =
      List.replicate xs.length 1 := by
    rw [List.eq_replicate_iff]
    constructor
    · rw [(sortBy_perm _ _).length_eq, scaledSquares, List.length_map]
    · intro y hy
      obtain ⟨x, hx, rfl⟩ := List.mem_map.1 (mem_sortBy_totalLe.1 hy)
      obtain ⟨hu, -, hone⟩ := h.height_square_quotient hx
      exact hu.ext unsigned_one ((hone (hlevel x hx)).trans height_ofNat_one.symm)
  rw [sumAscending, hones, sum_replicate_one]

end Scalable

section Column

variable {xs : List Binary64} (hfin : ∀ x ∈ xs, x.isFinite = true)

include hfin

theorem unsigned_euclideanNorm : (euclideanNorm xs).Unsigned := by
  rcases scalable_or_zero hfin with h | ⟨-, heq⟩
  · exact h.height_le_euclideanNorm.1
  · rw [heq]
    exact unsigned_largestMagnitude xs

/-- The largest value is not small against the norm, however many values there are. -/
theorem height_euclideanNorm_le_mul :
    (euclideanNorm xs).height ≤ (largestMagnitude xs).height * 2 ^ 27 := by
  rcases scalable_or_zero hfin with h | ⟨hzero, heq⟩
  · have hroot := h.height_root_le.trans (height_rootOfCount_le xs.length)
    rw [h.height_euclideanNorm_eq]
    exact (min_le_left _ _).trans (nearest_mul_le (onGrid_height _) le_rfl hroot)
  · rw [heq, hzero]
    exact Nat.zero_le _

section Top

variable {top : Binary64} (htop : top.isFinite = true)

include htop

/-- As many values `top` have the largest norm. -/
theorem height_euclideanNorm_le (hle : ∀ x ∈ xs, x.height ≤ top.height) :
    (euclideanNorm xs).height ≤ (top * rootOfCount xs.length).height := by
  rcases scalable_or_zero hfin with h | ⟨hzero, heq⟩
  · rw [h.height_euclideanNorm_eq, height_mul htop (isFinite_rootOfCount _)]
    apply min_le_min_right
    exact nearest_mono_left Binary64.one_pos
      (Nat.mul_le_mul (height_largestMagnitude_le hle) h.height_root_le)
  · rw [heq, hzero]
    exact Nat.zero_le _

theorem height_euclideanNorm_of_level (hne : xs ≠ []) (hlevel : ∀ x ∈ xs, x.height = top.height) :
    (euclideanNorm xs).height = (top * rootOfCount xs.length).height := by
  have hscale : (largestMagnitude xs).height = top.height := by
    obtain ⟨x, hx⟩ := List.exists_mem_of_ne_nil xs hne
    apply le_antisymm (height_largestMagnitude_le fun y hy => (hlevel y hy).le)
    exact (hlevel x hx).symm.trans_le (height_le_largestMagnitude hx)
  rw [height_mul htop (isFinite_rootOfCount _)]
  rcases scalable_or_zero hfin with h | ⟨hzero, heq⟩
  · rw [h.height_euclideanNorm_eq,
      h.sumAscending_of_level fun x hx => (hlevel x hx).trans hscale.symm, hscale]
    rfl
  · rw [heq, hzero, ← hscale, hzero, Nat.zero_mul, nearest_zero, Nat.zero_min]

theorem isFinite_euclideanNorm_of_le (hle : ∀ x ∈ xs, x.height ≤ top.height)
    (h : (top * rootOfCount xs.length).isFinite = true) : (euclideanNorm xs).isFinite = true :=
  (unsigned_euclideanNorm hfin).isFinite_iff.2
    ((height_euclideanNorm_le hfin htop hle).trans_lt (isFinite_iff.1 h).2)

theorem isFinite_euclideanNorm_iff_of_level (hne : xs ≠ [])
    (hlevel : ∀ x ∈ xs, x.height = top.height) : (euclideanNorm xs).isFinite = true ↔
      (top * rootOfCount xs.length).isFinite = true := by
  have hproduct := mul_ne_nan htop (isFinite_rootOfCount xs.length)
  rw [(unsigned_euclideanNorm hfin).isFinite_iff,
    height_euclideanNorm_of_level hfin htop hne hlevel, isFinite_iff]
  exact (and_iff_right hproduct).symm

end Top

theorem isFinite_euclideanNorm_of_word (hle : ∀ x ∈ xs, x.height ≤ UInt64.size * one) :
    (euclideanNorm xs).isFinite = true := by
  have hlimit : UInt64.size * one * 2 ^ 27 < limit := by
    rw [Nat.mul_right_comm]
    exact pow_mul_one_lt_limit (show 91 ≤ 99 by decide)
  rw [(unsigned_euclideanNorm hfin).isFinite_iff]
  exact ((height_euclideanNorm_le_mul hfin).trans
    (Nat.mul_le_mul_right _ (height_largestMagnitude_le hle))).trans_lt hlimit

/-! ## What is left of a large column -/

/-- An infinite norm takes every value to zero. -/
theorem height_divideOrZero_of_infinite (hinf : (euclideanNorm xs).isFinite = false)
    (x : Binary64) : (divideOrZero x (euclideanNorm xs)).height = 0 := by
  rw [(unsigned_euclideanNorm hfin).eq_infinity hinf, height, place_divideOrZero_infinity]
  rfl

/-- Under a finite norm a largest value keeps at least the least number above zero. -/
theorem one_le_height_divideOrZero (hnorm : (euclideanNorm xs).isFinite = true)
    (hcounts : negligible.height ≤ (largestMagnitude xs).height) {x : Binary64} (hx : x ∈ xs)
    (hlargest : x.height = (largestMagnitude xs).height) :
    1 ≤ (divideOrZero x (euclideanNorm xs)).height := by
  have h := scalable_of_pos hfin (height_negligible_pos.trans_le hcounts)
  have hu := unsigned_euclideanNorm hfin
  have hle := h.height_le_euclideanNorm.2 x hx
  have hnegligible : ¬euclideanNorm xs < negligible :=
    not_lt_of_le ((unsigned_negligible.le_iff hu).2 (hcounts.trans (hlargest.symm.trans_le hle)))
  have hpos := height_pos_of_not_lt_negligible hu hnegligible
  have hpow : 2 ^ 27 ≤ one := (Nat.pow_le_pow_right Nat.two_pos (by decide)).trans pow_le_one
  rw [divideOrZero_eq_div (hfin x hx) hnorm hu hle hnegligible,
    height_div (hfin x hx) hnorm hu hpos]
  refine le_min (le_nearest hpos (onGrid_of_le (by norm_num)) ?_) limit_pos
  calc 1 * (euclideanNorm xs).height
    _ = (euclideanNorm xs).height := Nat.one_mul _
    _ ≤ (largestMagnitude xs).height * 2 ^ 27 := height_euclideanNorm_le_mul hfin
    _ ≤ x.height * one := by rw [hlargest]; exact Nat.mul_le_mul_left _ hpow

/-- A column with a value that does not count as zero has values other than zero left after
normalizing exactly when its norm is finite. -/
theorem exists_nonzero_iff (hlarge : ∃ x ∈ xs, negligible ≤ x) :
    (∃ x ∈ xs, (divideOrZero x (euclideanNorm xs)).isZero = false) ↔
      (euclideanNorm xs).isFinite = true := by
  constructor
  · rintro ⟨x, -, hx⟩
    by_contra hinf
    have hpos := height_pos_of_isZero_eq_false (isFinite_divideOrZero _ _) hx
    rw [height_divideOrZero_of_infinite hfin (Bool.not_eq_true _ ▸ hinf)] at hpos
    exact lt_irrefl 0 hpos
  · intro hnorm
    obtain ⟨z, hz, hle⟩ := hlarge
    have hcounts : negligible.height ≤ (largestMagnitude xs).height :=
      (height_le_of_le unsigned_negligible.place_nonneg hle).trans (height_le_largestMagnitude hz)
    obtain ⟨x, hx, hlargest⟩ :=
      exists_height_eq_largestMagnitude (height_negligible_pos.trans_le hcounts)
    have hone := one_le_height_divideOrZero hfin hnorm hcounts hx hlargest
    refine ⟨x, hx, Bool.eq_false_iff.2 fun hzero => ?_⟩
    exact (height_eq_zero_of_isZero hzero).not_gt hone

end Column

theorem exists_nonzero_normalize_iff {rows : List Row} {c : Criterion}
    (hfin : ∀ x ∈ column rows c, x.isFinite = true)
    (hlarge : ∃ row ∈ rows, negligible ≤ row.metrics.get c) :
    (∃ row ∈ normalize rows, (row.metrics.get c).isZero = false) ↔
      (euclideanNorm (column rows c)).isFinite = true := by
  have hcolumn : ∃ x ∈ column rows c, negligible ≤ x := by
    obtain ⟨row, hrow, hle⟩ := hlarge
    exact ⟨_, mem_column hrow c, hle⟩
  rw [← exists_nonzero_iff hfin hcolumn]
  simp [normalize, mapRows, norms, column]

/-! ## The peak of a curve -/

/-- The largest power that a curve allows. -/
def PowerCurve.peak (curve : PowerCurve) : Binary64 := curve.base + curve.scale

theorem PowerCurve.Usable.peak_nonneg {curve : PowerCurve} (h : curve.Usable) :
    0 ≤ curve.peak.place := by
  have hbase := h.base.place_nonneg
  have hscale := h.scale.place_nonneg
  unfold peak
  rw [place_add h.base.1 h.scale.1, ← place_ofNat_zero]
  apply le_roundPlace Nat.one_pos
  rw [place_ofNat_zero]
  omega

/-- Up to `1e300` there is room for the root of every count. -/
theorem isFinite_mul_rootOfCount {top : Binary64} (htop : top.isFinite = true)
    (hle : top.height ≤ (1e300 : Binary64).height) (n : ℕ) :
    (top * rootOfCount n).isFinite = true := by
  have hlimit : (1e300 : Binary64).height * 2 ^ 27 < limit := by decide +kernel
  refine isFinite_iff.2 ⟨mul_ne_nan htop (isFinite_rootOfCount n), lt_of_le_of_lt ?_ hlimit⟩
  rw [height_mul htop (isFinite_rootOfCount n)]
  exact (min_le_left _ _).trans (nearest_mul_le (onGrid_height _) hle (height_rootOfCount_le n))

/-! ## Rankings -/

/-- What holds of the other three values holds of all but the power. -/
theorem ByCriterion.get_of_ne_power {α : Type} {P : α → Prop} {v : ByCriterion α} (hpods : P v.pods)
    (hcpu : P v.cpu) (hmemory : P v.memory) {c : Criterion} (hc : c ≠ .power) : P (v.get c) := by
  cases c with
  | pods => exact hpods
  | cpu => exact hcpu
  | memory => exact hmemory
  | power => exact absurd rfl hc

/-- What is not computed from the constants of the curve stays below the size of a word. -/
theorem height_metrics_le (exp : Binary64 → Binary64) (curve : PowerCurve) (node : Node)
    {c : Criterion} (hc : c ≠ .power) :
    ((node.metrics exp curve).get c).height ≤ UInt64.size * one := by
  have hpods : (Binary64.ofNat node.pods.toNat).height ≤ UInt64.size * one := by
    have hword : UInt32.size ≤ UInt64.size := by decide
    exact height_ofNat_le (node.pods.toNat_lt_size.le.trans hword)
  have hcpu := height_usage_le node.requested.cpu node.allocatable.cpu
  have hmemory := height_usage_le node.requested.memory node.allocatable.memory
  unfold Node.metrics
  exact ByCriterion.get_of_ne_power (P := fun x : Binary64 => x.height ≤ UInt64.size * one)
    hpods hcpu hmemory hc

section Rankings

variable {exp : Binary64 → Binary64} (hexp : UnitBelowZero exp) (settings : Settings)
  (workload : Workload) {nodes : List Node}

section Columns

variable {c : Criterion} {x : Binary64}
  (hx : x ∈ column (measuredRows exp settings workload nodes) c)

include hx

theorem exists_node_of_mem_column :
    ∃ node : Node, (node.metrics exp settings.repaired.curve).get c = x := by
  obtain ⟨row, hrow, rfl⟩ := List.mem_map.1 hx
  obtain ⟨node, -, rfl⟩ := List.mem_map.1 hrow
  exact ⟨_, rfl⟩

theorem height_measured_le (hc : c ≠ .power) : x.height ≤ UInt64.size * one := by
  obtain ⟨node, rfl⟩ := exists_node_of_mem_column settings workload hx
  exact height_metrics_le _ _ _ hc

include hexp in
theorem nonnegative_measured : Nonnegative x := by
  obtain ⟨node, rfl⟩ := exists_node_of_mem_column settings workload hx
  exact (measures_of_node hexp settings.usable_curve_repaired node).1 c

end Columns

include hexp

theorem height_power_measured_le {x : Binary64}
    (hx : x ∈ column (measuredRows exp settings workload nodes) .power) :
    x.height ≤ settings.repaired.curve.peak.height := by
  have hnonneg := (nonnegative_measured hexp settings workload hx).place_nonneg
  obtain ⟨node, rfl⟩ := exists_node_of_mem_column settings workload hx
  exact height_le_of_le hnonneg
    (measures_of_node hexp settings.usable_curve_repaired node).2.2.2

/-- Whatever the settings, only the power can have an infinite norm. Its norm is finite where the
peak of the curve is at most `1e300`, or times the root of the number of nodes is finite; where all
nodes draw the peak, the latter is necessary. A criterion with a value that does not count as zero
has values other than zero left after normalizing exactly when its norm is finite. -/
theorem rank_keeps_large_columns (hne : nodes ≠ []) :
    ∃ r, rank exp settings workload nodes = some r ∧
      (∀ c, c ≠ .power → ((norms r.measured).get c).isFinite = true) ∧
      (settings.repaired.curve.peak ≤ 1e300 ∨
          (settings.repaired.curve.peak * rootOfCount nodes.length).isFinite = true →
        ((norms r.measured).get .power).isFinite = true) ∧
      ((∀ row ∈ r.measured, row.metrics.power = settings.repaired.curve.peak) →
        (((norms r.measured).get .power).isFinite = true ↔
          (settings.repaired.curve.peak * rootOfCount nodes.length).isFinite = true)) ∧
      ∀ c, (∃ row ∈ r.measured, negligible ≤ row.metrics.get c) →
        ((∃ row ∈ normalize r.measured, (row.metrics.get c).isZero = false) ↔
          ((norms r.measured).get c).isFinite = true) := by
  obtain ⟨r, hr⟩ := exists_rank exp settings workload hne
  obtain ⟨e, -, rfl⟩ := exists_isExtreme hr
  have hcurve := settings.usable_curve_repaired
  have hpeak : settings.repaired.curve.peak.isFinite = true := hcurve.peak_finite
  have hfin : ∀ c, ∀ x ∈ column (measuredRows exp settings workload nodes) c,
      x.isFinite = true := fun c x hx => (nonnegative_measured hexp settings workload hx).1
  have hlength : (column (measuredRows exp settings workload nodes) .power).length =
      nodes.length := by simp [column, measuredRows, measure]
  refine ⟨_, hr, fun c hc => ?_, fun hroom => ?_, fun hlevel => ?_, fun c hlarge => ?_⟩
  all_goals rw [norms, ByCriterion.get_ofFn]
  · exact isFinite_euclideanNorm_of_word (hfin c)
      fun x hx => height_measured_le settings workload hx hc
  · apply isFinite_euclideanNorm_of_le (hfin .power) hpeak
      fun x hx => height_power_measured_le hexp settings workload hx
    rcases hroom with hle | hroom
    · exact isFinite_mul_rootOfCount hpeak (height_le_of_le hcurve.peak_nonneg hle) _
    · rwa [hlength]
  · rw [← hlength]
    apply isFinite_euclideanNorm_iff_of_level (hfin .power) hpeak
    · rw [ne_eq, ← List.length_eq_zero_iff, hlength, List.length_eq_zero_iff]
      exact hne
    · intro x hx
      obtain ⟨row, hrow, rfl⟩ := List.mem_map.1 hx
      exact congrArg height (hlevel row hrow)
  · exact exists_nonzero_normalize_iff (hfin c) hlarge

end Rankings

/-! ## Constants near the largest number -/

/-- Settings under which only the power counts, as a cost. -/
def powerOnly (curve : PowerCurve) : Settings where
  criteria := ⟨⟨0, .cost⟩, ⟨0, .cost⟩, ⟨0, .cost⟩, ⟨1, .cost⟩⟩
  curve := curve
  mode := .current

/-- Every node draws `1e308`. -/
def steadyPower : Settings := powerOnly ⟨1e308, 0, 0, .saturating⟩

/-- So many nodes that carry nothing. -/
def idleNodes (n : ℕ) : List Node := List.replicate n ⟨"idle", ⟨1, 1⟩, ⟨0, 0⟩, 0⟩

/-- Three nodes can draw that and keep a power other than zero, and four cannot. -/
theorem keeps_steadyPower :
    UnitBelowZero (fun _ => 1) ∧
    (∃ r, rank (fun _ => 1) steadyPower emptyWorkload (idleNodes 3) = some r ∧
      ((norms r.measured).get .power).isFinite = true ∧
        ∃ row ∈ normalize r.measured, (row.metrics.get .power).isZero = false) ∧
    ∃ r, rank (fun _ => 1) steadyPower emptyWorkload (idleNodes 4) = some r ∧
      ¬((norms r.measured).get .power).isFinite = true ∧
        ¬∃ row ∈ normalize r.measured, (row.metrics.get .power).isZero = false := by
  have hexp : UnitBelowZero (fun _ => 1) := by
    intro x _
    show (0 : Binary64) ≤ 1 ∧ (1 : Binary64) ≤ 1
    decide +kernel
  refine ⟨hexp, ?_, ?_⟩
  · obtain ⟨r, hr, -, hroom, -, hkeeps⟩ := rank_keeps_large_columns hexp steadyPower emptyWorkload
      (show idleNodes 3 ≠ [] by simp [idleNodes])
    obtain ⟨r', hr', hlarge⟩ :
        ∃ r, rank (fun _ => 1) steadyPower emptyWorkload (idleNodes 3) = some r ∧
          ∃ row ∈ r.measured, negligible ≤ row.metrics.get .power :=
      exists_of_any (by decide +kernel)
    obtain rfl := Option.some.inj (hr.symm.trans hr')
    have hnorm := hroom (.inr (by decide +kernel))
    exact ⟨r, hr, hnorm, (hkeeps .power hlarge).2 hnorm⟩
  · obtain ⟨r, hr, -, -, hlevel, hkeeps⟩ := rank_keeps_large_columns hexp steadyPower emptyWorkload
      (show idleNodes 4 ≠ [] by simp [idleNodes])
    obtain ⟨r', hr', hlarge, hpeak⟩ :
        ∃ r, rank (fun _ => 1) steadyPower emptyWorkload (idleNodes 4) = some r ∧
          (∃ row ∈ r.measured, negligible ≤ row.metrics.get .power) ∧
            ∀ row ∈ r.measured, row.metrics.power = steadyPower.repaired.curve.peak :=
      exists_of_any (by decide +kernel)
    obtain rfl := Option.some.inj (hr.symm.trans hr')
    have hinf : ¬((norms r.measured).get .power).isFinite = true := by
      rw [hlevel hpeak]
      decide +kernel
    exact ⟨r, hr, hinf, mt (hkeeps .power hlarge).1 hinf⟩

/-- Constants that are kept as usable, under which an idle and a crowded node lose their powers,
the only values that count, and are rated the same. -/
theorem power_lost :
    (powerOnly wildSettings.curve).repaired = powerOnly wildSettings.curve ∧
    ∃ r, rank endsOfExp (powerOnly wildSettings.curve) emptyWorkload idleAndCrowded = some r ∧
      (norms r.measured).power.isFinite = false ∧
      (∀ row ∈ r.measured, negligible ≤ row.metrics.power) ∧
      (∀ row ∈ normalize r.measured, row.metrics.power.isZero = true) ∧
      r.ratings.map (·.score) = [50, 50] := by
  exact ⟨by decide +kernel, exists_of_any (by decide +kernel)⟩

end NodeRanking
