import NodeRanking.Proofs.Binary64.Accuracy
import NodeRanking.Proofs.DecisionMatrix

/-!
# Laws of normalizing

1. Every column is normalized by itself, in its order, to numbers up to 1 in magnitude that keep the
   order of its values (`normalize_columnwise`). Nothing is assumed of the values.
2. A finite norm that does not count as zero leaves a column of unit length: the exact sum of the
   squares is 1 up to a few roundings and one more for each row (`unit_length_normalize`). The
   roundings are counted from the scaled squares (`near_scaledSquare`) over their sum
   (`near_sumAscending`) and the norm (`near_euclideanNorm_sq`) to the normalized values
   (`near_divideOrZero_sq`).
-/

namespace NodeRanking

open Binary64

attribute [local irreducible] Binary64.one Binary64.limit

/-! ## The length of a column -/

/-- The exact sum of the squares of a list. -/
def sumOfSquares (xs : List Binary64) : ℚ := (xs.map fun x => x.value ^ 2).sum

theorem sumOfSquares_eq (xs : List Binary64) :
    sumOfSquares xs = (xs.map fun x => x.magnitude ^ 2).sum := by
  unfold sumOfSquares
  simp only [sq_value]

theorem sum_map_div_sq (xs : List Binary64) (d : ℚ) :
    (xs.map fun x => (x.magnitude / d) ^ 2).sum = sumOfSquares xs / d ^ 2 := by
  rw [sumOfSquares_eq, div_eq_mul_inv, ← List.sum_map_mul_right]
  congr 2
  funext x
  rw [div_pow, div_eq_mul_inv]

/-- Even a great many of the smallest numbers are next to nothing. -/
theorem pow_mul_length_mul_tiny_le {n : ℕ} (h : n ≤ 2 ^ 40) : 2 ^ 53 * (n * (4 * tiny)) ≤ 1 := by
  have hn : (n : ℚ) ≤ 2 ^ 40 := by exact_mod_cast h
  have hmul := mul_le_mul_of_nonneg_right hn (show 0 ≤ 4 * tiny by linarith [tiny_nonneg])
  have := pow_mul_tiny_le
  have := tiny_nonneg
  linarith

namespace Scalable

variable {xs : List Binary64} (h : Scalable xs)

include h

/-- A quotient and a square, each with an allowance for the smallest numbers. -/
theorem near_scaledSquare {x : Binary64} (hx : x ∈ xs) :
    Near 3 (4 * tiny) (x / largestMagnitude xs).square.magnitude
      ((x.magnitude / (largestMagnitude xs).magnitude) ^ 2) := by
  obtain ⟨hfin, hle, -⟩ := h.height_quotient hx
  obtain ⟨hu, hsquare, -⟩ := h.height_square_quotient hx
  have hscale := magnitude_pos h.pos
  have hxle := magnitude_le_magnitude (height_le_largestMagnitude hx)
  have hquotient :=
    near_div (h.isFinite_of_mem hx) h.finite (unsigned_largestMagnitude xs) h.pos hfin
  have hsq := hquotient.square_unit tiny_nonneg tiny_le_one (magnitude_nonneg _)
    (magnitude_le_one hle) (div_nonneg (magnitude_nonneg x) hscale.le) ((div_le_one hscale).2 hxle)
  have hround := near_square hfin (hu.isFinite_iff.2 (hsquare.trans_lt one_lt_limit))
  have hnear := hround.trans tiny_nonneg (by linarith [tiny_nonneg]) hsq
  have hallowance : tiny + 3 * tiny = 4 * tiny := by ring
  rwa [hallowance] at hnear

/-- The largest value alone contributes 1. -/
theorem one_le_sumOfSquares_div :
    1 ≤ sumOfSquares xs / (largestMagnitude xs).magnitude ^ 2 := by
  obtain ⟨x, hx, heq⟩ := exists_height_eq_largestMagnitude h.pos
  have hscale := magnitude_pos h.pos
  have hone : (x.magnitude / (largestMagnitude xs).magnitude) ^ 2 = 1 := by
    have hxeq : x.magnitude = (largestMagnitude xs).magnitude := by rw [magnitude, heq, magnitude]
    rw [hxeq, div_self hscale.ne', one_pow]
  rw [← sum_map_div_sq, ← hone]
  apply List.single_le_sum
  · intro q hq
    obtain ⟨y, -, rfl⟩ := List.mem_map.1 hq
    exact sq_nonneg _
  · exact List.mem_map.2 ⟨x, hx, rfl⟩

/-- The sum of the scaled squares, whatever the order they are added in. -/
theorem near_sumAscending (hlen : xs.length ≤ 2 ^ 40) :
    Near (xs.length + 4) 0 (sumAscending (scaledSquares (largestMagnitude xs) xs)).magnitude
      (sumOfSquares xs / (largestMagnitude xs).magnitude ^ 2) := by
  obtain ⟨-, hone, -⟩ := h.height_sumAscending
  have hperm := sortBy_perm totalLe (scaledSquares (largestMagnitude xs) xs)
  have hunsigned : ∀ y ∈ sortBy totalLe (scaledSquares (largestMagnitude xs) xs), y.Unsigned := by
    intro y hy
    obtain ⟨x, hx, rfl⟩ := List.mem_map.1 (hperm.mem_iff.1 hy)
    exact (h.height_square_quotient hx).1
  have hsum := near_sum hunsigned h.isFinite_sumAscending
  rw [(hperm.map magnitude).sum_eq, hperm.length_eq, scaledSquares, List.length_map,
    List.map_map] at hsum
  have hterms := Near.sum fun x hx => h.near_scaledSquare hx
  rw [sum_map_div_sq] at hterms
  have htiny : 0 ≤ xs.length * (4 * tiny) :=
    mul_nonneg (Nat.cast_nonneg _) (by linarith [tiny_nonneg])
  have hnear := hsum.trans le_rfl htiny hterms
  rw [zero_add] at hnear
  have hallowance := pow_mul_length_mul_tiny_le hlen
  exact hnear.absorb (hallowance.trans (one_le_magnitude hone))
    (hallowance.trans h.one_le_sumOfSquares_div) htiny

/-- The square of the norm: a root, and a product that is scaled back. -/
theorem near_euclideanNorm_sq (hlen : xs.length ≤ 2 ^ 40)
    (hfin : (euclideanNorm xs).isFinite = true) (hlt : 2 ^ 52 < (euclideanNorm xs).height) :
    Near (xs.length + 9) 0 ((euclideanNorm xs).magnitude ^ 2) (sumOfSquares xs) := by
  obtain ⟨hu, hone, -⟩ := h.height_sumAscending
  have hsumfin := h.isFinite_sumAscending
  have hsum := h.near_sumAscending hlen
  have hscale := magnitude_pos h.pos
  rw [h.euclideanNorm_eq] at hfin hlt ⊢
  generalize sumAscending (scaledSquares (largestMagnitude xs) xs) = sum at *
  have hproduct := (near_mul h.finite ((isFinite_sqrt_iff hu).2 hsumfin) hfin hlt).square_exact
    (magnitude_nonneg _) (mul_nonneg hscale.le (magnitude_nonneg _))
  have hroot := ((near_sqrt hu hsumfin hone).trans le_rfl le_rfl hsum).mul_left
    (sq_nonneg (largestMagnitude xs).magnitude)
  rw [add_zero, mul_zero, ← mul_pow, mul_div_cancel₀ _ (pow_ne_zero 2 hscale.ne')] at hroot
  have hnear := hproduct.trans le_rfl le_rfl hroot
  have hcount : 1 + 1 + (3 + (xs.length + 4)) = xs.length + 9 := by omega
  rwa [add_zero, hcount] at hnear

end Scalable

/-! ## Normalized values -/

section Normalized

variable {xs : List Binary64} (hxs : ∀ x ∈ xs, x.isFinite = true)
  (hfin : (euclideanNorm xs).isFinite = true) (hlt : ¬euclideanNorm xs < negligible)

include hxs hlt in
/-- A norm that does not count as zero is that of a column with values other than zero. -/
theorem scalable_of_euclideanNorm : Scalable xs := by
  refine (scalable_or_zero hxs).resolve_right fun ⟨hzero, heq⟩ => ?_
  rw [heq] at hlt
  exact (height_pos_of_not_lt_negligible (unsigned_largestMagnitude xs) hlt).ne' hzero

include hxs hfin hlt

theorem near_divideOrZero_sq {x : Binary64} (hx : x ∈ xs) :
    Near 2 (3 * tiny) ((divideOrZero x (euclideanNorm xs)).value ^ 2)
      ((x.magnitude / (euclideanNorm xs).magnitude) ^ 2) := by
  obtain ⟨hu, hle⟩ := (scalable_of_euclideanNorm hxs hlt).height_le_euclideanNorm
  have hpos := height_pos_of_not_lt_negligible hu hlt
  have hnorm := magnitude_pos hpos
  obtain ⟨hq, hqle⟩ := height_div_le_one (hxs x hx) hfin hu hpos (hle x hx)
  rw [divideOrZero_eq_div (hxs x hx) hfin hu (hle x hx) hlt, sq_value]
  exact (near_div (hxs x hx) hfin hu hpos hq).square_unit tiny_nonneg tiny_le_one
    (magnitude_nonneg _) (magnitude_le_one hqle) (div_nonneg (magnitude_nonneg x) hnorm.le)
    ((div_le_one hnorm).2 (magnitude_le_magnitude (hle x hx)))

/-- The exact sum of the squares of normalized values. -/
theorem abs_sumOfSquares_normalized_le (hlen : xs.length ≤ 2 ^ 40) :
    |sumOfSquares (xs.map fun x => divideOrZero x (euclideanNorm xs)) - 1| ≤
      (xs.length + 16) / 2 ^ 52 := by
  have hscalable := scalable_of_euclideanNorm hxs hlt
  have hu := hscalable.height_le_euclideanNorm.1
  have hnorm := magnitude_pos (height_pos_of_not_lt_negligible hu hlt)
  have hlarge : 2 ^ 52 < (euclideanNorm xs).height :=
    pow_lt_height_negligible.trans_le (height_negligible_le hu hlt)
  have hsquare : 0 < (euclideanNorm xs).magnitude ^ 2 := by positivity
  -- the squares of the normalized values, against those of the exact quotients
  have hvalues := Near.sum fun x hx => near_divideOrZero_sq hxs hfin hlt hx
  rw [sum_map_div_sq] at hvalues
  have hlength := (hscalable.near_euclideanNorm_sq hlen hfin hlarge).symm.mul_left
    (inv_nonneg.2 hsquare.le)
  rw [mul_zero, inv_mul_eq_div, inv_mul_cancel₀ hsquare.ne'] at hlength
  have htiny := tiny_nonneg
  have hnear := hvalues.trans (by positivity) le_rfl hlength
  have hallowance := pow_mul_length_mul_tiny_le hlen
  have hlen' : (xs.length : ℚ) ≤ 2 ^ 40 := by exact_mod_cast hlen
  have hle := hnear.abs_sub_one_le (by push_cast; linarith) (by linarith)
    (List.sum_nonneg fun q hq => by obtain ⟨x, -, rfl⟩ := List.mem_map.1 hq; exact sq_nonneg _)
  have hsum : sumOfSquares (xs.map fun x => divideOrZero x (euclideanNorm xs)) =
      (xs.map fun x => (divideOrZero x (euclideanNorm xs)).value ^ 2).sum := by
    rw [sumOfSquares, List.map_map]
    rfl
  rw [hsum]
  refine hle.trans ?_
  push_cast
  linarith

end Normalized

/-! ## Columns of a matrix -/

theorem column_normalize (rows : List Row) (c : Criterion) : column (normalize rows) c =
    (column rows c).map fun x => divideOrZero x (euclideanNorm (column rows c)) := by
  unfold normalize
  rw [column_mapRows]
  simp only [norms, ByCriterion.get_ofFn]

theorem abs_le_one_of_mem_normalize {rows : List Row} {row : Row} (hrow : row ∈ normalize rows)
    (c : Criterion) : (row.metrics.get c).isFinite = true ∧ (row.metrics.get c).abs ≤ 1 := by
  have hmem := mem_column hrow c
  rw [column_normalize] at hmem
  obtain ⟨x, hx, heq⟩ := List.mem_map.1 hmem
  rw [← heq]
  have hfin := isFinite_divideOrZero x (euclideanNorm (column rows c))
  refine ⟨hfin, ?_⟩
  rw [(unsigned_abs (ne_nan_of_isFinite hfin)).le_iff unsigned_one, height_abs, height_ofNat_one]
  exact height_divideOrZero_le hx

/-- Normalizing keeps the rows and their names in order and makes every value finite and at most 1
in magnitude. A column of the result depends on the same column alone, and keeps the order of its
values: of two rows, the one with the smaller value has the smaller normalized one. -/
theorem normalize_columnwise (rows : List Row) :
    (normalize rows).map (·.name) = rows.map (·.name) ∧
    (∀ row ∈ normalize rows, ∀ c, (row.metrics.get c).isFinite = true ∧
      (row.metrics.get c).abs ≤ 1) ∧
    (∀ (rows' : List Row) (c : Criterion), column rows c = column rows' c →
      column (normalize rows) c = column (normalize rows') c) ∧
    ∀ (i j : ℕ) (a b : Row), rows[i]? = some a → rows[j]? = some b → ∃ a' b' : Row,
      (normalize rows)[i]? = some a' ∧ a'.name = a.name ∧
      (normalize rows)[j]? = some b' ∧ b'.name = b.name ∧
      ∀ c, a.metrics.get c ≤ b.metrics.get c → a'.metrics.get c ≤ b'.metrics.get c := by
  refine ⟨?_, fun row hrow c => abs_le_one_of_mem_normalize hrow c, ?_, ?_⟩
  · unfold normalize mapRows
    rw [List.map_map]
    rfl
  · intro rows' c hcolumn
    rw [column_normalize, column_normalize, hcolumn]
  · intro i j a b ha hb
    unfold normalize mapRows
    rw [List.getElem?_map, List.getElem?_map, ha, hb]
    refine ⟨_, _, rfl, rfl, rfl, rfl, fun c hle => ?_⟩
    have ha' := mem_column (List.mem_of_getElem? ha) c
    have hb' := mem_column (List.mem_of_getElem? hb) c
    have hplace := place_divideOrZero_mono ha' hb' (le_iff.1 hle).2.2
    simp only [ByCriterion.get_map, norms, ByCriterion.get_ofFn]
    exact le_iff.2 ⟨ne_nan_of_isFinite (isFinite_divideOrZero _ _),
      ne_nan_of_isFinite (isFinite_divideOrZero _ _), hplace⟩

/-- Two rows with a NaN, infinities, a negative value and the least positive one. -/
def wildRows : List Row :=
  [⟨"a", ⟨.nan, 2, -3, .infinity true⟩⟩, ⟨"a", ⟨.infinity false, 1, 5e-324, 0⟩⟩]

/-- Two other rows, which have their processor column. -/
def tameRows : List Row := [⟨"x", ⟨1, 2, 0, 0⟩⟩, ⟨"y", ⟨4, 1, 0, 7⟩⟩]

/-- The wild columns leave the processor column as it is without them, and the negative value below
the positive one. -/
theorem normalize_columnwise_wildRows :
    column wildRows .cpu = column tameRows .cpu ∧
    column (normalize wildRows) .cpu = column (normalize tameRows) .cpu ∧
    (-3 : Binary64) ≤ 5e-324 ∧ ∃ a b : Row, (normalize wildRows)[0]? = some a ∧
      (normalize wildRows)[1]? = some b ∧ a.metrics.memory ≤ b.metrics.memory := by
  obtain ⟨-, -, hcolumn, horder⟩ := normalize_columnwise wildRows
  have hcpu : column wildRows .cpu = column tameRows .cpu := rfl
  have hle : (-3 : Binary64) ≤ 5e-324 := by decide +kernel
  obtain ⟨a, b, ha, -, hb, -, hmono⟩ := horder 0 1 _ _ rfl rfl
  exact ⟨hcpu, hcolumn tameRows .cpu hcpu, hle, a, b, ha, hb, hmono .memory hle⟩

/-- A column with a finite norm that does not count as zero has unit length after normalizing, up to
the roundings: the exact sum of the squares is 1 within `2 ^ -52` for each row and sixteen more.
With a norm that counts as zero the column becomes zero. -/
theorem unit_length_normalize {rows : List Row} {c : Criterion}
    (hfin : ∀ x ∈ column rows c, x.isFinite = true) (hlen : rows.length ≤ 2 ^ 40) :
    (((norms rows).get c).isFinite = true → negligible ≤ (norms rows).get c →
      |sumOfSquares (column (normalize rows) c) - 1| ≤ (rows.length + 16) / 2 ^ 52) ∧
    ((norms rows).get c < negligible → ∀ y ∈ column (normalize rows) c, y = 0) := by
  have hlength : (column rows c).length = rows.length := List.length_map _
  rw [norms, ByCriterion.get_ofFn, column_normalize, ← hlength]
  rw [← hlength] at hlen
  constructor
  · intro hnorm hlarge
    exact abs_sumOfSquares_normalized_le hfin hnorm (not_lt_of_le hlarge) hlen
  · intro hsmall y hy
    obtain ⟨x, -, rfl⟩ := List.mem_map.1 hy
    exact if_pos hsmall

/-- Three rows with pods that have the norm 5, huge powers, a processor column that counts as zero,
and the least positive number beside 1. -/
def assortedRows : List Row :=
  [⟨"a", ⟨3, 1e-10, 5e-324, 1e200⟩⟩, ⟨"b", ⟨4, -1e-10, 1, 2e200⟩⟩, ⟨"c", ⟨0, 0, 0, -7e199⟩⟩]

theorem unit_length_assortedRows :
    (∀ c, ∀ x ∈ column assortedRows c, x.isFinite = true) ∧ assortedRows.length ≤ 2 ^ 40 ∧
    (∀ c ∈ [Criterion.pods, .memory, .power], ((norms assortedRows).get c).isFinite = true ∧
      negligible ≤ (norms assortedRows).get c ∧
        |sumOfSquares (column (normalize assortedRows) c) - 1| ≤ 19 / 2 ^ 52) ∧
    (norms assortedRows).get .cpu < negligible ∧
      ∀ y ∈ column (normalize assortedRows) .cpu, y = 0 := by
  have hfin : ∀ c, ∀ x ∈ column assortedRows c, x.isFinite = true := by
    intro c
    cases c <;> decide +kernel
  have hlen : assortedRows.length ≤ 2 ^ 40 := by decide
  have hcounts : ∀ c ∈ [Criterion.pods, .memory, .power],
      ((norms assortedRows).get c).isFinite = true ∧ negligible ≤ (norms assortedRows).get c := by
    decide +kernel
  have hsmall : (norms assortedRows).get .cpu < negligible := by decide +kernel
  refine ⟨hfin, hlen, fun c hc => ?_, hsmall, (unit_length_normalize (hfin .cpu) hlen).2 hsmall⟩
  obtain ⟨hnorm, hlarge⟩ := hcounts c hc
  have hunit := (unit_length_normalize (hfin c) hlen).1 hnorm hlarge
  refine ⟨hnorm, hlarge, hunit.trans_eq ?_⟩
  norm_num [assortedRows]

end NodeRanking
