import NodeRanking.Proofs.Binary64.Operations
import NodeRanking.DecisionMatrix

/-!
# Laws of the decision matrix

1. The norm of a column does not depend on the order of its values (`euclideanNorm_perm`): the
   largest magnitude is a maximum, and the squares are summed in a total order.
2. A norm is a NaN, infinite, zero, or a finite number that is at least the magnitude of every value
   (`euclideanNorm_cases`): the largest value contributes an exact one to the sum of the squares.
   Columns with such a sum are `Scalable`.
3. So every normalized value is finite and at most 1 in magnitude (`height_divideOrZero_le`), and
   the order of two values is kept (`place_divideOrZero_mono`), whatever else the column holds.
4. The same holds of a weighted value with its weight for the 1 (`isFinite_weighted`,
   `place_weighted_mono`).
-/

namespace NodeRanking

open Binary64

attribute [local irreducible] Binary64.one Binary64.limit

/-! ## The largest magnitude -/

theorem foldl_max_abs (xs : List Binary64) {held : Binary64} (h : held.Unsigned) :
    let m := xs.foldl (fun held x => held.max x.abs) held
    m.Unsigned ∧ held.height ≤ m.height ∧ (∀ x ∈ xs, x.height ≤ m.height) ∧
      (m.height = held.height ∨ ∃ x ∈ xs, x.height = m.height) := by
  induction xs generalizing held with
  | nil => exact ⟨h, le_rfl, by simp, .inl rfl⟩
  | cons x xs ih =>
    obtain ⟨hu, hmax⟩ := h.max_abs x
    obtain ⟨hm, hheld, hle, hatt⟩ := ih hu
    rw [hmax] at hheld hatt
    refine ⟨hm, (Nat.le_max_left _ _).trans hheld, fun y hy => ?_, ?_⟩
    · rcases List.mem_cons.1 hy with rfl | hy
      · exact (Nat.le_max_right _ _).trans hheld
      · exact hle y hy
    · rcases hatt with hatt | ⟨y, hy, hatt⟩
      · rcases Nat.le_total x.height held.height with hxh | hxh
        · exact .inl (hatt.trans (Nat.max_eq_left hxh))
        · exact .inr ⟨x, by simp, (hatt.trans (Nat.max_eq_right hxh)).symm⟩
      · exact .inr ⟨y, by simp [hy], hatt⟩

theorem unsigned_largestMagnitude (xs : List Binary64) : (largestMagnitude xs).Unsigned :=
  (foldl_max_abs xs unsigned_zero).1

theorem height_le_largestMagnitude {xs : List Binary64} {x : Binary64} (hx : x ∈ xs) :
    x.height ≤ (largestMagnitude xs).height :=
  (foldl_max_abs xs unsigned_zero).2.2.1 x hx

theorem exists_height_eq_largestMagnitude {xs : List Binary64}
    (h : 0 < (largestMagnitude xs).height) :
    ∃ x ∈ xs, x.height = (largestMagnitude xs).height := by
  refine (foldl_max_abs xs unsigned_zero).2.2.2.resolve_left fun h0 => ?_
  rw [largestMagnitude, h0, height, place_ofNat_zero] at h
  exact absurd h (lt_irrefl 0)

theorem height_largestMagnitude_le {xs : List Binary64} {n : ℕ} (h : ∀ x ∈ xs, x.height ≤ n) :
    (largestMagnitude xs).height ≤ n := by
  rcases Nat.eq_zero_or_pos (largestMagnitude xs).height with h0 | hpos
  · omega
  · obtain ⟨x, hx, heq⟩ := exists_height_eq_largestMagnitude hpos
    exact heq ▸ h x hx

theorem largestMagnitude_perm {xs ys : List Binary64} (h : xs.Perm ys) :
    largestMagnitude xs = largestMagnitude ys :=
  (unsigned_largestMagnitude xs).ext (unsigned_largestMagnitude ys)
    ((height_largestMagnitude_le fun _ hx => height_le_largestMagnitude (h.mem_iff.1 hx)).antisymm
      (height_largestMagnitude_le fun _ hx => height_le_largestMagnitude (h.mem_iff.2 hx)))

/-! ## The norm -/

/-- The norm of a column does not depend on the order of its values. -/
theorem euclideanNorm_perm {xs ys : List Binary64} (h : xs.Perm ys) :
    euclideanNorm xs = euclideanNorm ys := by
  unfold euclideanNorm
  dsimp only
  rw [largestMagnitude_perm h, sumAscending_perm (h.map _)]

/-- The squares of a column, each value divided by the scale. -/
def scaledSquares (scale : Binary64) (xs : List Binary64) : List Binary64 :=
  xs.map fun x => (x / scale).square

theorem euclideanNorm_eq_scale {xs : List Binary64}
    (h : (largestMagnitude xs).isZero = true ∨ (largestMagnitude xs).isFinite = false) :
    euclideanNorm xs = largestMagnitude xs := by
  unfold euclideanNorm
  refine if_pos ?_
  rcases h with h | h <;> simp [h]

theorem euclideanNorm_eq_mul {xs : List Binary64} (hz : (largestMagnitude xs).isZero = false)
    (hf : (largestMagnitude xs).isFinite = true) :
    euclideanNorm xs = largestMagnitude xs *
      (sumAscending (scaledSquares (largestMagnitude xs) xs)).sqrt := by
  unfold euclideanNorm
  exact if_neg (by simp [hz, hf])

/-- A column with a NaN has none of its values seen by the norm. -/
theorem sumAscending_scaledSquares_nan {scale : Binary64} {xs : List Binary64} (h : .nan ∈ xs) :
    sumAscending (scaledSquares scale xs) = .nan :=
  sum_eq_nan (mem_sortBy_totalLe.2 (List.mem_map.2 ⟨.nan, h, rfl⟩))

/-- A column whose norm is that of its scaled values: it holds no NaN, and its largest magnitude is
a finite number above zero. -/
structure Scalable (xs : List Binary64) : Prop where
  nan_not_mem : .nan ∉ xs
  finite : (largestMagnitude xs).isFinite = true
  pos : 0 < (largestMagnitude xs).height

namespace Scalable

variable {xs : List Binary64} (h : Scalable xs) {x : Binary64} (hx : x ∈ xs)

include h

theorem euclideanNorm_eq : euclideanNorm xs = largestMagnitude xs *
    (sumAscending (scaledSquares (largestMagnitude xs) xs)).sqrt := by
  apply euclideanNorm_eq_mul _ h.finite
  by_contra hz
  exact h.pos.ne' (height_eq_zero_of_isZero (Bool.not_eq_false _ ▸ hz))

section Values

include hx

theorem isFinite_of_mem : x.isFinite = true :=
  isFinite_iff.2 ⟨fun heq => h.nan_not_mem (heq ▸ hx), (height_le_largestMagnitude hx).trans_lt
    ((unsigned_largestMagnitude xs).isFinite_iff.1 h.finite)⟩

/-- The scaled value, which is exactly 1 in magnitude for the largest one. -/
theorem height_quotient : (x / largestMagnitude xs).isFinite = true ∧
    (x / largestMagnitude xs).height ≤ one ∧
      (x.height = (largestMagnitude xs).height → (x / largestMagnitude xs).height = one) := by
  have hfin := h.isFinite_of_mem hx
  have hu := unsigned_largestMagnitude xs
  obtain ⟨hq, hle⟩ := height_div_le_one hfin h.finite hu h.pos (height_le_largestMagnitude hx)
  refine ⟨hq, hle, fun hlargest => ?_⟩
  rw [height_div hfin h.finite hu h.pos, hlargest, Nat.mul_comm,
    nearest_mul_of_onGrid h.pos onGrid_one, min_eq_left one_lt_limit.le]

theorem height_square_quotient : (x / largestMagnitude xs).square.Unsigned ∧
    (x / largestMagnitude xs).square.height ≤ one ∧ (x.height = (largestMagnitude xs).height →
      (x / largestMagnitude xs).square.height = one) := by
  obtain ⟨hfin, hle, hlargest⟩ := h.height_quotient hx
  have heq := height_square hfin
  refine ⟨unsigned_square (ne_nan_of_isFinite hfin), ?_, fun hx => ?_⟩
  · rw [heq]
    exact (min_le_left _ _).trans
      (nearest_le Binary64.one_pos onGrid_one (Nat.mul_le_mul hle hle))
  · rw [heq, hlargest hx, nearest_mul_of_onGrid Binary64.one_pos onGrid_one,
      min_eq_left one_lt_limit.le]

end Values

/-- The square of the largest value is exactly one, and the others are at most that. -/
theorem height_sumAscending : (sumAscending (scaledSquares (largestMagnitude xs) xs)).Unsigned ∧
    one ≤ (sumAscending (scaledSquares (largestMagnitude xs) xs)).height ∧
      (sumAscending (scaledSquares (largestMagnitude xs) xs)).height ≤
        min xs.length (2 ^ 53) * one := by
  have hsquares : ∀ y ∈ sortBy totalLe (scaledSquares (largestMagnitude xs) xs),
      y.Unsigned ∧ y.height ≤ one := by
    intro y hy
    obtain ⟨x, hx, rfl⟩ := List.mem_map.1 (mem_sortBy_totalLe.1 hy)
    obtain ⟨hu, hle, -⟩ := h.height_square_quotient hx
    exact ⟨hu, hle⟩
  have hlength : (sortBy totalLe (scaledSquares (largestMagnitude xs) xs)).length = xs.length := by
    rw [(sortBy_perm _ _).length_eq, scaledSquares, List.length_map]
  refine ⟨unsigned_sum fun y hy => (hsquares y hy).1, ?_, ?_⟩
  · obtain ⟨x, hx, heq⟩ := exists_height_eq_largestMagnitude h.pos
    rw [← (h.height_square_quotient hx).2.2 heq]
    exact height_le_sum (fun y hy => (hsquares y hy).1)
      (mem_sortBy_totalLe.2 (List.mem_map.2 ⟨x, hx, rfl⟩))
  · rw [← hlength]
    exact height_sum_le_min hsquares

theorem isFinite_sumAscending :
    (sumAscending (scaledSquares (largestMagnitude xs) xs)).isFinite = true := by
  obtain ⟨hu, -, hle⟩ := h.height_sumAscending
  have hmost := Nat.mul_le_mul_right one (Nat.min_le_right xs.length (2 ^ 53))
  exact hu.isFinite_iff.2 ((hle.trans hmost).trans_lt (pow_mul_one_lt_limit (by decide)))

/-- So the root of the sum is at least one. -/
theorem one_le_height_root :
    (sumAscending (scaledSquares (largestMagnitude xs) xs)).sqrt.Unsigned ∧
      one ≤ (sumAscending (scaledSquares (largestMagnitude xs) xs)).sqrt.height := by
  obtain ⟨hu, hone, -⟩ := h.height_sumAscending
  exact ⟨unsigned_sqrt hu, one_le_height_sqrt hu hone⟩

/-- The norm is at least the magnitude of every value. -/
theorem height_le_euclideanNorm : (euclideanNorm xs).Unsigned ∧
    ∀ x ∈ xs, x.height ≤ (euclideanNorm xs).height := by
  obtain ⟨hroot, hone⟩ := h.one_le_height_root
  obtain ⟨hn, hle⟩ := (unsigned_largestMagnitude xs).height_le_mul hroot h.pos hone
  rw [h.euclideanNorm_eq]
  exact ⟨hn, fun x hx => (height_le_largestMagnitude hx).trans hle⟩

end Scalable

theorem isFinite_largestMagnitude {xs : List Binary64} (hfin : ∀ x ∈ xs, x.isFinite = true) :
    (largestMagnitude xs).isFinite = true := by
  have hle : (largestMagnitude xs).height ≤ limit - 1 :=
    height_largestMagnitude_le fun x hx => Nat.le_sub_one_of_lt (isFinite_iff.1 (hfin x hx)).2
  have := limit_pos
  rw [(unsigned_largestMagnitude xs).isFinite_iff]
  omega

/-- A column of finite values that are not all zero. -/
theorem scalable_of_pos {xs : List Binary64} (hfin : ∀ x ∈ xs, x.isFinite = true)
    (hpos : 0 < (largestMagnitude xs).height) : Scalable xs :=
  ⟨fun hnan => absurd (hfin _ hnan) (by simp [isFinite]), isFinite_largestMagnitude hfin, hpos⟩

theorem scalable_or_zero {xs : List Binary64} (hfin : ∀ x ∈ xs, x.isFinite = true) :
    Scalable xs ∨ (largestMagnitude xs).height = 0 ∧ euclideanNorm xs = largestMagnitude xs := by
  by_cases hz : (largestMagnitude xs).isZero = true
  · exact .inr ⟨height_eq_zero_of_isZero hz, euclideanNorm_eq_scale (.inl hz)⟩
  · have hpos := height_pos_of_isZero_eq_false (isFinite_largestMagnitude hfin)
      (Bool.not_eq_true _ ▸ hz)
    exact .inl (scalable_of_pos hfin hpos)

/-- What a norm can be. -/
theorem euclideanNorm_cases (xs : List Binary64) :
    euclideanNorm xs = .nan ∨ euclideanNorm xs = .infinity false ∨
      (euclideanNorm xs).Unsigned ∧ (euclideanNorm xs).isFinite = true ∧
        ((euclideanNorm xs).height = 0 ∨
          ∀ x ∈ xs, x.isFinite = true ∧ x.height ≤ (euclideanNorm xs).height) := by
  have hu := unsigned_largestMagnitude xs
  -- the cases of the definition, and a NaN among the values, which only the sum of squares sees
  cases hf : (largestMagnitude xs).isFinite with
  | false =>
    rw [euclideanNorm_eq_scale (.inr hf)]
    exact .inr (.inl (hu.eq_infinity hf))
  | true =>
    cases hz : (largestMagnitude xs).isZero with
    | true =>
      rw [euclideanNorm_eq_scale (.inl hz)]
      exact .inr (.inr ⟨hu, hf, .inl (height_eq_zero_of_isZero hz)⟩)
    | false =>
      by_cases hnan : .nan ∈ xs
      · rw [euclideanNorm_eq_mul hz hf, sumAscending_scaledSquares_nan hnan, sqrt_nan, mul_nan]
        exact .inl rfl
      · have hscalable : Scalable xs := ⟨hnan, hf, height_pos_of_isZero_eq_false hf hz⟩
        obtain ⟨hn, hle⟩ := hscalable.height_le_euclideanNorm
        cases hnf : (euclideanNorm xs).isFinite with
        | false => exact .inr (.inl (hn.eq_infinity hnf))
        | true =>
          exact .inr (.inr ⟨hn, rfl, .inr fun x hx => ⟨hscalable.isFinite_of_mem hx, hle x hx⟩⟩)

/-! ## Normalized values -/

theorem isFinite_divideOrZero (x y : Binary64) : (divideOrZero x y).isFinite = true := by
  unfold divideOrZero
  split_ifs with h
  · exact isFinite_zero
  · dsimp only
    split_ifs with hq
    · exact hq
    · exact isFinite_zero

theorem unsigned_negligible : negligible.Unsigned := by
  unfold Unsigned
  decide +kernel

theorem pow_lt_height_negligible : 2 ^ 52 < negligible.height := by decide +kernel

theorem height_negligible_pos : 0 < negligible.height :=
  pow_lt_height_negligible.trans_le' (Nat.zero_le _)

theorem place_divideOrZero_nan (x : Binary64) : (divideOrZero x .nan).place = 0 := by
  have hdiv : x / .nan = .nan := by cases x <;> rfl
  have hlt : ¬(.nan : Binary64) < negligible := fun h => (lt_iff.1 h).1 rfl
  rw [divideOrZero, if_neg hlt, hdiv]
  exact place_ofNat_zero

theorem place_divideOrZero_infinity (x : Binary64) :
    (divideOrZero x (.infinity false)).place = 0 := by
  rw [divideOrZero, if_neg (not_infinity_lt negligible)]
  cases x with
  | nan => exact place_ofNat_zero
  | infinity s => exact place_ofNat_zero
  | finite s n h => exact place_zero _

theorem height_negligible_le {x : Binary64} (hu : x.Unsigned) (h : ¬x < negligible) :
    negligible.height ≤ x.height := by
  rw [lt_iff, hu.place_eq, unsigned_negligible.place_eq] at h
  simp only [ne_eq, hu.1, unsigned_negligible.1, not_false_eq_true, true_and] at h
  omega

theorem height_pos_of_not_lt_negligible {x : Binary64} (hu : x.Unsigned) (h : ¬x < negligible) :
    0 < x.height :=
  height_negligible_pos.trans_le (height_negligible_le hu h)

section Quotient

variable {x y : Binary64} (hx : x.isFinite = true) (hy : y.isFinite = true) (hu : y.Unsigned)
  (hle : x.height ≤ y.height) (hlt : ¬y < negligible)

include hx hy hu hle hlt

/-- A number over one at least as large that counts as more than zero. -/
theorem divideOrZero_eq_div : divideOrZero x y = x / y := by
  have hpos := height_pos_of_not_lt_negligible hu hlt
  unfold divideOrZero
  rw [if_neg hlt]
  exact if_pos (height_div_le_one hx hy hu hpos hle).1

theorem place_divideOrZero : (divideOrZero x y).place = roundPlace (x.place * one) y.height := by
  rw [divideOrZero_eq_div hx hy hu hle hlt,
    place_div hx hy hu (height_pos_of_not_lt_negligible hu hlt)]

end Quotient

/-- Either a column is normalized to zeros, or each value is the rounded quotient by a norm that is
at least as large. -/
theorem divideOrZero_cases (xs : List Binary64) :
    (∀ x ∈ xs, (divideOrZero x (euclideanNorm xs)).place = 0) ∨
      0 < (euclideanNorm xs).height ∧ ∀ x ∈ xs, x.height ≤ (euclideanNorm xs).height ∧
        (divideOrZero x (euclideanNorm xs)).place =
          roundPlace (x.place * one) (euclideanNorm xs).height := by
  rcases euclideanNorm_cases xs with hn | hn | ⟨hu, hf, hn⟩
  · exact .inl fun x _ => hn ▸ place_divideOrZero_nan x
  · exact .inl fun x _ => hn ▸ place_divideOrZero_infinity x
  by_cases hlt : euclideanNorm xs < negligible
  · refine .inl fun x _ => ?_
    rw [divideOrZero, if_pos hlt]
    exact place_ofNat_zero
  · have hpos := height_pos_of_not_lt_negligible hu hlt
    refine .inr ⟨hpos, fun x hx => ?_⟩
    obtain ⟨hxf, hxle⟩ := hn.resolve_left hpos.ne' x hx
    exact ⟨hxle, place_divideOrZero hxf hf hu hxle hlt⟩

/-- A normalized value is at most 1 in magnitude. -/
theorem height_divideOrZero_le {xs : List Binary64} {x : Binary64} (hx : x ∈ xs) :
    (divideOrZero x (euclideanNorm xs)).height ≤ one := by
  rcases divideOrZero_cases xs with h0 | ⟨hpos, h⟩
  · rw [height, h0 x hx]
    exact Nat.zero_le _
  · obtain ⟨hle, hplace⟩ := h x hx
    rw [height, hplace, natAbs_roundPlace]
    refine (min_le_left _ _).trans (nearest_le hpos onGrid_one ?_)
    rw [Int.natAbs_mul, Int.natAbs_natCast, Nat.mul_comm]
    exact Nat.mul_le_mul_left one hle

/-- Normalizing keeps the order of the values of a column. -/
theorem place_divideOrZero_mono {xs : List Binary64} {x y : Binary64} (hx : x ∈ xs) (hy : y ∈ xs)
    (h : x.place ≤ y.place) :
    (divideOrZero x (euclideanNorm xs)).place ≤ (divideOrZero y (euclideanNorm xs)).place := by
  rcases divideOrZero_cases xs with h0 | ⟨hpos, hq⟩
  · rw [h0 x hx, h0 y hy]
  · rw [(hq x hx).2, (hq y hy).2]
    exact roundPlace_mono hpos (Int.mul_le_mul_of_nonneg_right h (Int.natCast_nonneg _))

/-! ## Weighted values -/

/-- Multiplying a number that is at most 1 in magnitude by a weight from zero on. -/
theorem mul_weight {x w : Binary64} (hx : x.isFinite = true) (hle : x.height ≤ one)
    (hw : Nonnegative w) : (x * w).isFinite = true ∧ (x * w).height ≤ w.height := by
  have hheight : (x * w).height ≤ w.height := by
    rw [height, place_mul hx hw.1, natAbs_roundPlace, Int.natAbs_mul]
    refine (min_le_left _ _).trans (nearest_le Binary64.one_pos (onGrid_height w) ?_)
    rw [Nat.mul_comm]
    exact Nat.mul_le_mul_left _ hle
  exact ⟨isFinite_iff.2 ⟨mul_ne_nan hx hw.1, hheight.trans_lt (isFinite_iff.1 hw.1).2⟩, hheight⟩

theorem place_mul_weight_mono {x y w : Binary64} (hx : x.isFinite = true)
    (hy : y.isFinite = true) (hw : Nonnegative w) (h : x.place ≤ y.place) :
    (x * w).place ≤ (y * w).place := by
  rw [place_mul hx hw.1, place_mul hy hw.1]
  exact roundPlace_mono Binary64.one_pos (Int.mul_le_mul_of_nonneg_right h hw.place_nonneg)

theorem mem_column {rows : List Row} {row : Row} (hrow : row ∈ rows) (c : Criterion) :
    row.metrics.get c ∈ column rows c := List.mem_map.2 ⟨row, hrow, rfl⟩

/-- The metrics of a row of the matrix `rows`, normalized and weighted. -/
def weighted (weights : ByCriterion Binary64) (rows : List Row) (metrics : Metrics) : Metrics :=
  metrics.map fun c x => divideOrZero x ((norms rows).get c) * weights.get c

theorem weigh_normalize (weights : ByCriterion Binary64) (rows : List Row) :
    weigh weights (normalize rows) =
      rows.map fun row => ⟨row.name, weighted weights rows row.metrics⟩ := by
  simp only [weigh, normalize, mapRows, List.map_map]
  refine List.map_congr_left fun row _ => ?_
  simp only [Function.comp_apply, weighted, Row.mk.injEq, true_and]
  ext c
  simp

theorem get_weighted (weights : ByCriterion Binary64) (rows : List Row) (metrics : Metrics)
    (c : Criterion) : (weighted weights rows metrics).get c =
      divideOrZero (metrics.get c) (euclideanNorm (column rows c)) * weights.get c := by
  rw [weighted, norms, ByCriterion.get_map, ByCriterion.get_ofFn]

/-- A weighted value of a criterion is that of some row. -/
theorem mem_column_weigh_normalize {weights : ByCriterion Binary64} {rows : List Row} {c : Criterion}
    {x : Binary64} : x ∈ column (weigh weights (normalize rows)) c ↔
      ∃ row ∈ rows, (weighted weights rows row.metrics).get c = x := by
  unfold column
  rw [weigh_normalize, List.map_map]
  exact List.mem_map

/-- The weighted matrix of a matrix in another order. -/
theorem weighted_perm {rows rows' : List Row} (h : rows.Perm rows')
    (weights : ByCriterion Binary64) : weighted weights rows = weighted weights rows' := by
  have : norms rows = norms rows' :=
    congrArg ByCriterion.ofFn (funext fun _ => euclideanNorm_perm (h.map _))
  unfold weighted
  rw [this]

section Weighted

variable {weights : ByCriterion Binary64} (hweights : ∀ c, Nonnegative (weights.get c))
  {rows : List Row} {row row' : Row} (hrow : row ∈ rows) (c : Criterion)

include hweights hrow

/-- Every weighted value is finite, and its weight bounds it. -/
theorem isFinite_weighted : ((weighted weights rows row.metrics).get c).isFinite = true ∧
    ((weighted weights rows row.metrics).get c).height ≤ (weights.get c).height := by
  have hle := height_divideOrZero_le (mem_column hrow c)
  rw [get_weighted]
  exact mul_weight (isFinite_divideOrZero _ _) hle (hweights c)

/-- Normalizing and weighing keep the order of the values of a criterion. -/
theorem place_weighted_mono (hrow' : row' ∈ rows)
    (h : (row.metrics.get c).place ≤ (row'.metrics.get c).place) :
    ((weighted weights rows row.metrics).get c).place ≤
      ((weighted weights rows row'.metrics).get c).place := by
  have hle := place_divideOrZero_mono (mem_column hrow c) (mem_column hrow' c) h
  rw [get_weighted, get_weighted]
  exact place_mul_weight_mono (isFinite_divideOrZero _ _) (isFinite_divideOrZero _ _)
    (hweights c) hle

end Weighted

end NodeRanking
