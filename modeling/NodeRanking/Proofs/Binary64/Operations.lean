import NodeRanking.Proofs.Binary64.Line

/-!
# The operations on the line

1. The place of a sum, difference, product or quotient of finite numbers is the rounding of the
   exact one (`place_add`, `place_sub`, `place_mul`, `place_div`).
2. Squares have no sign and grow with the height (`square_mono`); among unsigned numbers sums and
   roots need no case for an infinity (`Unsigned.height_add`, `sqrt_mono`).
3. A sum of unsigned numbers is at least each of them (`height_le_sum`), grows with them
   (`sum_mono`), and is a NaN as soon as one term is (`sum_eq_nan`). A sum of numbers up to 1 never
   passes `2 ^ 53` (`height_sum_le_min`), where a sum of ones ends (`sum_replicate_one`).
4. Two finite roots have a finite sum (`isFinite_add_sqrt`).
5. The numbers nearest to whole ones are whole (`round_ofNat`) and in their order
   (`height_ofNat_mono`), and finite up to a word (`isFinite_ofNat`). Short ones are multiplied as
   whole numbers are (`ofNat_mul_ofNat`).
-/

namespace NodeRanking

namespace Binary64

attribute [local irreducible] one limit

variable {x y : Binary64}

/-! ## Finite operands -/

theorem ofUnits_ne_nan (s : Bool) (i : ℤ) : ofUnits s i ≠ .nan := by
  unfold ofUnits
  split_ifs
  · simp [zero]
  · exact ofRatio_ne_nan _ _ Nat.one_pos

theorem place_ofUnits (s : Bool) (i : ℤ) : (ofUnits s i).place = roundPlace i 1 := by
  unfold ofUnits
  split_ifs with h
  · simp [h, roundPlace]
  · rw [place_ofRatio _ _ Nat.one_pos, roundPlace_signed, roundPlace]

@[simp] theorem place_neg (x : Binary64) : (neg x).place = -x.place := by
  cases x <;> simp [neg, place, signed_not]

@[simp] theorem isFinite_neg (x : Binary64) : (neg x).isFinite = x.isFinite := by
  cases x <;> rfl

theorem add_ne_nan (hx : x.isFinite = true) (hy : y.isFinite = true) : x + y ≠ .nan := by
  obtain ⟨s, m, hm, rfl⟩ := exists_eq_finite hx
  obtain ⟨t, n, hn, rfl⟩ := exists_eq_finite hy
  exact ofUnits_ne_nan _ _

theorem place_add (hx : x.isFinite = true) (hy : y.isFinite = true) :
    (x + y).place = roundPlace (x.place + y.place) 1 := by
  obtain ⟨s, m, hm, rfl⟩ := exists_eq_finite hx
  obtain ⟨t, n, hn, rfl⟩ := exists_eq_finite hy
  exact place_ofUnits _ _

theorem sub_ne_nan (hx : x.isFinite = true) (hy : y.isFinite = true) : x - y ≠ .nan :=
  add_ne_nan hx (by rwa [isFinite_neg])

theorem place_sub (hx : x.isFinite = true) (hy : y.isFinite = true) :
    (x - y).place = roundPlace (x.place - y.place) 1 := by
  show (x + neg y).place = _
  rw [place_add hx (by rwa [isFinite_neg]), place_neg, sub_eq_add_neg]

theorem height_sub (hx : x.isFinite = true) (hy : y.isFinite = true) :
    (x - y).height = min (nearest (x.place - y.place).natAbs 1) limit := by
  rw [height, place_sub hx hy, natAbs_roundPlace]

theorem mul_ne_nan (hx : x.isFinite = true) (hy : y.isFinite = true) : x * y ≠ .nan := by
  obtain ⟨s, m, hm, rfl⟩ := exists_eq_finite hx
  obtain ⟨t, n, hn, rfl⟩ := exists_eq_finite hy
  exact ofRatio_ne_nan _ _ one_pos

theorem place_mul (hx : x.isFinite = true) (hy : y.isFinite = true) :
    (x * y).place = roundPlace (x.place * y.place) one := by
  obtain ⟨s, m, hm, rfl⟩ := exists_eq_finite hx
  obtain ⟨t, n, hn, rfl⟩ := exists_eq_finite hy
  rw [place_finite, place_finite, signed_mul_signed]
  exact place_ofRatio _ _ one_pos

/-- Products with a number from zero on keep the order of such numbers. -/
theorem mul_mono_right {k : Binary64} (hk : Nonnegative k) (hx : 0 ≤ x) (hle : x ≤ y)
    (hy : y.isFinite = true) : 0 ≤ x * k ∧ x * k ≤ y * k := by
  obtain ⟨-, hnan, hplace⟩ := le_iff.1 hx
  obtain ⟨-, -, hplace'⟩ := le_iff.1 hle
  have hfin := isFinite_of_place_mem hnan isFinite_zero hy hplace hplace'
  rw [place_ofNat_zero] at hplace
  have hzero : roundPlace 0 one ≤ roundPlace (x.place * k.place) one :=
    roundPlace_mono one_pos (mul_nonneg hplace hk.place_nonneg)
  rw [roundPlace_zero, ← place_mul hfin hk.1] at hzero
  refine ⟨le_iff.2 ⟨unsigned_zero.1, mul_ne_nan hfin hk.1, ?_⟩,
    le_iff.2 ⟨mul_ne_nan hfin hk.1, mul_ne_nan hy hk.1, ?_⟩⟩
  · rwa [place_ofNat_zero]
  · rw [place_mul hfin hk.1, place_mul hy hk.1]
    exact roundPlace_mono one_pos (mul_le_mul_of_nonneg_right hplace' hk.place_nonneg)

/-- The quotient by a positive number. -/
theorem div_eq_ofRatio (hx : x.isFinite = true) (hy : y.isFinite = true) (hu : y.Unsigned)
    (hpos : 0 < y.height) : x / y = ofRatio x.isNegative (x.height * one) y.height := by
  obtain ⟨s, m, hm, rfl⟩ := exists_eq_finite hx
  obtain ⟨t, n, hn, rfl⟩ := exists_eq_finite hy
  obtain rfl : t = false := hu.2
  rw [height_finite] at hpos
  rw [height_finite, height_finite]
  show (if n = 0 then _ else ofRatio (s != false) (m * one) n) = _
  rw [if_neg hpos.ne', Bool.bne_false]
  rfl

theorem div_ne_nan (hx : x.isFinite = true) (hy : y.isFinite = true) (hu : y.Unsigned)
    (hpos : 0 < y.height) : x / y ≠ .nan := by
  rw [div_eq_ofRatio hx hy hu hpos]
  exact ofRatio_ne_nan _ _ hpos

theorem place_div (hx : x.isFinite = true) (hy : y.isFinite = true) (hu : y.Unsigned)
    (hpos : 0 < y.height) : (x / y).place = roundPlace (x.place * one) y.height := by
  rw [div_eq_ofRatio hx hy hu hpos, place_ofRatio _ _ hpos]
  obtain ⟨s, m, hm, rfl⟩ := exists_eq_finite hx
  rw [height_finite, place_finite]
  congr 1
  cases s <;> simp [signed, isNegative]

theorem height_div (hx : x.isFinite = true) (hy : y.isFinite = true) (hu : y.Unsigned)
    (hpos : 0 < y.height) : (x / y).height = min (nearest (x.height * one) y.height) limit := by
  rw [div_eq_ofRatio hx hy hu hpos, height_ofRatio _ _ hpos]

/-- The quotient by a number that is at least as large. -/
theorem height_div_le_one (hx : x.isFinite = true) (hy : y.isFinite = true) (hu : y.Unsigned)
    (hpos : 0 < y.height) (hle : x.height ≤ y.height) :
    (x / y).isFinite = true ∧ (x / y).height ≤ one := by
  have hone : (x / y).height ≤ one := by
    rw [height_div hx hy hu hpos]
    refine (min_le_left _ _).trans (nearest_le hpos onGrid_one ?_)
    rw [Nat.mul_comm]
    exact Nat.mul_le_mul_left one hle
  exact ⟨isFinite_iff.2 ⟨div_ne_nan hx hy hu hpos, hone.trans_lt one_lt_limit⟩, hone⟩

/-! ## Squares -/

/-- A number without a sign, by its height. -/
theorem Unsigned.cases (hx : x.Unsigned) :
    x = .infinity false ∨ ∃ n, ∃ hn : Representable n, x = .finite false n hn := by
  obtain ⟨hnan, hsign⟩ := hx
  cases x with
  | nan => exact absurd rfl hnan
  | infinity s => exact .inl (by rw [show s = false from hsign])
  | finite s n hn => exact .inr ⟨n, hn, by rw [show s = false from hsign]⟩

theorem Unsigned.isFinite_iff (hx : x.Unsigned) : x.isFinite = true ↔ x.height < limit := by
  simp [Binary64.isFinite_iff, hx.1]

theorem Unsigned.eq_infinity (hx : x.Unsigned) (h : x.isFinite = false) : x = .infinity false := by
  rcases hx.cases with rfl | ⟨n, hn, rfl⟩
  · rfl
  · simp [isFinite] at h

theorem unsigned_square (hx : x ≠ .nan) : x.square.Unsigned := by
  cases x with
  | nan => exact absurd rfl hx
  | infinity s => cases s <;> exact ⟨by simp [square, HMul.hMul, Mul.mul, mul], rfl⟩
  | finite s n hn =>
    show (ofRatio (s != s) (n * n) one).Unsigned
    rw [bne_self_eq_false]
    exact unsigned_ofRatio _ one_pos

theorem height_square (hx : x.isFinite = true) :
    x.square.height = min (nearest (x.height * x.height) one) limit := by
  obtain ⟨s, n, hn, rfl⟩ := exists_eq_finite hx
  rw [height_finite]
  exact height_ofRatio _ _ one_pos

theorem square_infinity (s : Bool) : (.infinity s : Binary64).square = .infinity false := by
  cases s <;> rfl

theorem square_mono (hx : x ≠ .nan) (hy : y ≠ .nan) (h : x.height ≤ y.height) :
    x.square.height ≤ y.square.height := by
  cases hfin : y.isFinite with
  | false =>
    cases y with
    | nan => exact absurd rfl hy
    | infinity s =>
      rw [square_infinity, height_infinity]
      exact height_le_limit _
    | finite s n hn => simp [isFinite] at hfin
  | true =>
    have hlt := (isFinite_iff.1 hfin).2
    have hxfin : x.isFinite = true := isFinite_iff.2 ⟨hx, h.trans_lt hlt⟩
    rw [height_square hxfin, height_square hfin]
    exact min_le_min_right _ (nearest_mono_left one_pos (Nat.mul_le_mul h h))

/-! ## Magnitudes and products of unsigned numbers -/

theorem height_abs (x : Binary64) : x.abs.height = x.height := by
  cases x <;> simp [abs]

theorem unsigned_abs (hx : x ≠ .nan) : x.abs.Unsigned := by
  cases x with
  | nan => exact absurd rfl hx
  | infinity s => exact ⟨by simp [abs], rfl⟩
  | finite s n hn => exact ⟨by simp [abs], rfl⟩

theorem Unsigned.max_abs (hx : x.Unsigned) (y : Binary64) :
    (x.max y.abs).Unsigned ∧ (x.max y.abs).height = Max.max x.height y.height := by
  rcases eq_or_ne y .nan with rfl | hy
  · have : x.max (abs .nan) = x := by
      obtain ⟨hnan, -⟩ := hx
      cases x with
      | nan => exact absurd rfl hnan
      | infinity s => rfl
      | finite s n hn => rfl
    rw [this, height_nan, Nat.max_zero]
    exact ⟨hx, rfl⟩
  · have habs := unsigned_abs hy
    have hmax : x.max y.abs = if x < y.abs then y.abs else x := by
      obtain ⟨hnan, -⟩ := hx
      cases x <;> cases y <;> first | rfl | contradiction
    rw [hmax, ← height_abs y]
    split_ifs with h
    · refine ⟨habs, (Nat.max_eq_right ?_).symm⟩
      rw [Binary64.lt_iff, hx.place_eq, habs.place_eq] at h
      omega
    · refine ⟨hx, (Nat.max_eq_left ?_).symm⟩
      rw [Binary64.lt_iff, hx.place_eq, habs.place_eq] at h
      by_contra hlt
      exact h ⟨hx.1, habs.1, by omega⟩

theorem mul_nan (x : Binary64) : x * .nan = .nan := by cases x <;> rfl

theorem Unsigned.mul (hx : x.Unsigned) (hy : y.Unsigned) (hxf : x.isFinite = true)
    (hyf : y.isFinite = true) : (x * y).Unsigned := by
  obtain ⟨-, hs⟩ := hx
  obtain ⟨-, ht⟩ := hy
  obtain ⟨s, m, hm, rfl⟩ := exists_eq_finite hxf
  obtain ⟨t, n, hn, rfl⟩ := exists_eq_finite hyf
  obtain rfl : s = false := hs
  obtain rfl : t = false := ht
  exact unsigned_ofRatio _ one_pos

theorem height_mul (hx : x.isFinite = true) (hy : y.isFinite = true) :
    (x * y).height = min (nearest (x.height * y.height) one) limit := by
  rw [height, place_mul hx hy, natAbs_roundPlace, Int.natAbs_mul]
  rfl

theorem Unsigned.mul_one (hx : x.Unsigned) (hfin : x.isFinite = true) : x * 1 = x := by
  apply (hx.mul unsigned_one hfin isFinite_one).ext hx
  rw [height_mul hfin isFinite_one, height_ofNat_one,
    nearest_mul_of_onGrid one_pos (onGrid_height x), min_eq_left (height_le_limit x)]

/-- A product of unsigned numbers of which the second is at least one: it is at least the first. -/
theorem Unsigned.height_le_mul (hx : x.Unsigned) (hy : y.Unsigned) (hpos : 0 < x.height)
    (hone : one ≤ y.height) : (x * y).Unsigned ∧ x.height ≤ (x * y).height := by
  rcases hx.cases with rfl | ⟨m, hm, rfl⟩ <;> rcases hy.cases with rfl | ⟨n, hn, rfl⟩
  · exact ⟨hx, le_rfl⟩
  · rw [height_finite] at hone
    have hzero : n ≠ 0 := (one_pos.trans_le hone).ne'
    have : infinity false * finite false n hn = infinity false := by
      show (if n = 0 then _ else infinity (false != false)) = _
      rw [if_neg hzero]
      rfl
    rw [this]
    exact ⟨hx, le_rfl⟩
  · rw [height_finite] at hpos
    have : finite false m hm * infinity false = infinity false := by
      show (if m = 0 then _ else infinity (false != false)) = _
      rw [if_neg hpos.ne']
      rfl
    rw [this]
    exact ⟨hy, (height_le_limit _).trans_eq (height_infinity false).symm⟩
  · rw [height_finite] at hone ⊢
    show (ofRatio false (m * n) one).Unsigned ∧ m ≤ (ofRatio false (m * n) one).height
    rw [height_ofRatio _ _ one_pos]
    exact ⟨unsigned_ofRatio _ one_pos,
      le_min (le_nearest one_pos hm.2 (Nat.mul_le_mul_left m hone)) hm.1.le⟩

/-! ## Sums -/

protected theorem add_comm (x y : Binary64) : x + y = y + x := by
  show add x y = add y x
  cases x with
  | nan => cases y <;> rfl
  | infinity s =>
    cases y with
    | nan => rfl
    | infinity t => cases s <;> cases t <;> rfl
    | finite t n hn => rfl
  | finite s m hm =>
    cases y with
    | nan => rfl
    | infinity t => rfl
    | finite t n hn =>
      show ofUnits (s && t) (signed s m + signed t n) = ofUnits (t && s) (signed t n + signed s m)
      rw [Bool.and_comm, Int.add_comm]

theorem Unsigned.add (hx : x.Unsigned) (hy : y.Unsigned) : (x + y).Unsigned := by
  rcases hx.cases with rfl | ⟨m, hm, rfl⟩ <;> rcases hy.cases with rfl | ⟨n, hn, rfl⟩
  · exact hx
  · exact hx
  · exact hy
  · refine ⟨ofUnits_ne_nan _ _, ?_⟩
    show (ofUnits (false && false) (signed false m + signed false n)).isNegative = false
    unfold ofUnits
    split_ifs with h
    · rfl
    · have hneg : decide (signed false m + signed false n < 0) = false := by
        rw [signed_false, signed_false]
        exact decide_eq_false (by omega)
      rw [hneg]
      exact (unsigned_ofRatio _ Nat.one_pos).2

theorem Unsigned.height_add (hx : x.Unsigned) (hy : y.Unsigned) :
    (x + y).height = min (nearest (x.height + y.height) 1) limit := by
  have hbig : ∀ n, limit ≤ n → min (nearest n 1) limit = limit := fun n hn =>
    min_eq_right (le_nearest Nat.one_pos onGrid_limit (by omega))
  rcases hx.cases with rfl | ⟨m, hm, rfl⟩
  · rw [hbig _ (by rw [height_infinity]; omega)]
    rcases hy.cases with rfl | ⟨n, hn, rfl⟩ <;> exact height_infinity _
  · rcases hy.cases with rfl | ⟨n, hn, rfl⟩
    · rw [hbig _ (by rw [height_infinity]; omega)]
      exact height_infinity _
    · rw [height, place_add rfl rfl, natAbs_roundPlace]
      rfl

theorem Unsigned.height_le_add_left (hx : x.Unsigned) (hy : y.Unsigned) :
    x.height ≤ (x + y).height := by
  rw [hx.height_add hy]
  exact le_min (le_nearest Nat.one_pos (onGrid_height x) (by omega)) (height_le_limit x)

theorem Unsigned.height_le_add_right (hx : x.Unsigned) (hy : y.Unsigned) :
    y.height ≤ (x + y).height := by
  rw [hx.height_add hy]
  exact le_min (le_nearest Nat.one_pos (onGrid_height y) (by omega)) (height_le_limit y)

theorem Unsigned.add_mono {x' y' : Binary64} (hx : x.Unsigned) (hy : y.Unsigned)
    (hx' : x'.Unsigned) (hy' : y'.Unsigned) (hxx : x.height ≤ x'.height)
    (hyy : y.height ≤ y'.height) : (x + y).height ≤ (x' + y').height := by
  rw [hx.height_add hy, hx'.height_add hy']
  exact min_le_min_right _ (nearest_mono_left Nat.one_pos (by omega))

theorem Unsigned.zero_add (hx : x.Unsigned) : 0 + x = x := by
  apply (unsigned_zero.add hx).ext hx
  rw [unsigned_zero.height_add hx, height_ofNat_zero, Nat.zero_add,
    nearest_one_of_onGrid (onGrid_height x), min_eq_left (height_le_limit x)]

theorem Unsigned.add_zero (hx : x.Unsigned) : x + 0 = x := by
  apply (hx.add unsigned_zero).ext hx
  rw [hx.height_add unsigned_zero, height_ofNat_zero, Nat.add_zero,
    nearest_one_of_onGrid (onGrid_height x), min_eq_left (height_le_limit x)]

theorem nan_add (x : Binary64) : .nan + x = .nan := rfl

theorem add_nan (x : Binary64) : x + .nan = .nan := by cases x <;> rfl

/-- One more number in front of a sum. -/
theorem foldl_add_eq_nan (xs : List Binary64) : xs.foldl (· + ·) .nan = .nan := by
  induction xs with
  | nil => rfl
  | cons x xs ih => rwa [List.foldl_cons, nan_add]

theorem sum_eq_nan {xs : List Binary64} (h : .nan ∈ xs) : sum xs = .nan := by
  obtain ⟨before, after, rfl⟩ := List.append_of_mem h
  rw [sum, List.foldl_append, List.foldl_cons, add_nan, foldl_add_eq_nan]

/-- A sum of unsigned numbers from a start that is one: unsigned, and at least the start and every
term. -/
theorem foldl_add_unsigned {xs : List Binary64} (h : ∀ x ∈ xs, x.Unsigned) {a : Binary64}
    (ha : a.Unsigned) :
    (xs.foldl (· + ·) a).Unsigned ∧ a.height ≤ (xs.foldl (· + ·) a).height ∧
      ∀ x ∈ xs, x.height ≤ (xs.foldl (· + ·) a).height := by
  induction xs generalizing a with
  | nil => exact ⟨ha, le_rfl, by simp⟩
  | cons x xs ih =>
    have hx : x.Unsigned := h x (by simp)
    obtain ⟨hu, hstart, hterms⟩ := ih (fun y hy => h y (by simp [hy])) (ha.add hx)
    refine ⟨hu, (ha.height_le_add_left hx).trans hstart, fun y hy => ?_⟩
    rcases List.mem_cons.1 hy with rfl | hy
    · exact (ha.height_le_add_right hx).trans hstart
    · exact hterms y hy

theorem unsigned_sum {xs : List Binary64} (h : ∀ x ∈ xs, x.Unsigned) : (sum xs).Unsigned :=
  (foldl_add_unsigned h unsigned_zero).1

theorem height_le_sum {xs : List Binary64} (h : ∀ x ∈ xs, x.Unsigned) (hx : x ∈ xs) :
    x.height ≤ (sum xs).height :=
  (foldl_add_unsigned h unsigned_zero).2.2 x hx

/-- Sums grow with their terms. -/
theorem sum_mono {ι : Type} (is : List ι) {f g : ι → Binary64} (hf : ∀ i, (f i).Unsigned)
    (hg : ∀ i, (g i).Unsigned) (h : ∀ i, (f i).height ≤ (g i).height) :
    (sum (is.map f)).height ≤ (sum (is.map g)).height := by
  have key : ∀ a b : Binary64, a.Unsigned → b.Unsigned → a.height ≤ b.height →
      ((is.map f).foldl (· + ·) a).height ≤ ((is.map g).foldl (· + ·) b).height := by
    induction is with
    | nil => exact fun _ _ _ _ hab => hab
    | cons i is ih =>
      intro a b ha hb hab
      exact ih _ _ (ha.add (hf i)) (hb.add (hg i)) (ha.add_mono (hf i) hb (hg i) hab (h i))
  exact key 0 0 unsigned_zero unsigned_zero le_rfl

/-- A sum of unsigned numbers stays within bounds that each addition of a term keeps to. -/
theorem height_sum_le_of_step {xs : List Binary64} (h : ∀ x ∈ xs, x.Unsigned) (bound : ℕ → ℕ)
    (hstep : ∀ k < xs.length, ∀ a : Binary64, a.Unsigned → a.height ≤ bound k →
      ∀ x ∈ xs, (a + x).height ≤ bound (k + 1)) : (sum xs).height ≤ bound xs.length := by
  have key : ∀ (ys : List Binary64) (k : ℕ) (a : Binary64), k + ys.length = xs.length →
      (∀ y ∈ ys, y ∈ xs) → a.Unsigned → a.height ≤ bound k →
      (ys.foldl (· + ·) a).height ≤ bound xs.length := by
    intro ys
    induction ys with
    | nil =>
      intro k a hlen _ _ hab
      rwa [← hlen]
    | cons y ys ih =>
      intro k a hlen hys ha hab
      rw [List.length_cons] at hlen
      have hy := hys y (by simp)
      exact ih (k + 1) (a + y) (by omega) (fun z hz => hys z (by simp [hz])) (ha.add (h y hy))
        (hstep k (by omega) a ha hab y hy)
  have h0 : (0 : Binary64).height ≤ bound 0 := by
    rw [height_ofNat_zero]
    exact Nat.zero_le _
  exact key xs 0 0 (Nat.zero_add _) (fun _ hx => hx) unsigned_zero h0

/-- A sum of terms up to `b` on a grid that holds the multiples of `b`. -/
theorem height_sum_le {xs : List Binary64} {b : ℕ} (h : ∀ x ∈ xs, x.Unsigned ∧ x.height ≤ b)
    (hgrid : ∀ k ≤ xs.length, OnGrid (k * b)) : (sum xs).height ≤ xs.length * b := by
  apply height_sum_le_of_step (fun x hx => (h x hx).1) fun k => k * b
  intro k hk a ha hab x hx
  obtain ⟨hu, hxb⟩ := h x hx
  rw [ha.height_add hu]
  refine (min_le_left _ _).trans (nearest_le Nat.one_pos (hgrid _ hk) ?_)
  rw [Nat.mul_one, Nat.succ_mul]
  omega

/-- Adding a number up to 1 counts at most one further. -/
theorem height_add_le_min {k : ℕ} (hx : x.Unsigned) (hy : y.Unsigned)
    (hxle : x.height ≤ min k (2 ^ 53) * one) (hyle : y.height ≤ one) :
    (x + y).height ≤ min (k + 1) (2 ^ 53) * one := by
  rw [hx.height_add hy]
  calc min (nearest (x.height + y.height) 1) limit
    _ ≤ nearest (x.height + y.height) 1 := min_le_left _ _
    _ ≤ nearest ((min k (2 ^ 53) + 1) * one) 1 :=
        nearest_mono_left Nat.one_pos (by rw [Nat.succ_mul]; omega)
    _ = min (k + 1) (2 ^ 53) * one := by rw [nearest_mul_pow _ one_eq_pow, nearest_count]

/-- A sum of numbers up to 1 is at most their number, and at most `2 ^ 53`. -/
theorem height_sum_le_min {xs : List Binary64} (h : ∀ x ∈ xs, x.Unsigned ∧ x.height ≤ one) :
    (sum xs).height ≤ min xs.length (2 ^ 53) * one :=
  height_sum_le_of_step (fun x hx => (h x hx).1) (fun k => min k (2 ^ 53) * one)
    fun _ _ _ ha hab x hx => height_add_le_min ha (h x hx).1 hab (h x hx).2

/-! ## Roots -/

theorem sqrt_zero (h : Representable 0) : (finite false 0 h).sqrt = zero false := rfl

theorem sqrt_finite {n : ℕ} (hn : Representable n) (hpos : n ≠ 0) :
    (finite false n hn).sqrt = ofRatio false (doubledRoot (n * one)) 2 := by
  unfold sqrt doubledRoot
  simp only [if_neg hpos, isqrt_eq_sqrt, Bool.false_eq_true, if_false]

theorem unsigned_sqrt (hx : x.Unsigned) : x.sqrt.Unsigned := by
  rcases hx.cases with rfl | ⟨n, hn, rfl⟩
  · exact hx
  · rcases eq_or_ne n 0 with rfl | hpos
    · exact ⟨by simp [sqrt_zero, zero], rfl⟩
    · rw [sqrt_finite hn hpos]
      exact unsigned_ofRatio _ Nat.two_pos

theorem height_sqrt (hx : x.Unsigned) (hfin : x.isFinite = true) :
    x.sqrt.height = min (nearest (doubledRoot (x.height * one)) 2) limit := by
  rcases hx.cases with rfl | ⟨n, hn, rfl⟩
  · simp [isFinite] at hfin
  rw [height_finite]
  rcases eq_or_ne n 0 with rfl | hpos
  · simp [sqrt_zero, doubledRoot, height]
  · rw [sqrt_finite hn hpos, height_ofRatio _ _ Nat.two_pos]

theorem sqrt_infinity : (infinity false).sqrt = .infinity false := rfl

theorem sqrt_nan : (nan : Binary64).sqrt = .nan := rfl

theorem sqrt_mono (hx : x.Unsigned) (hy : y.Unsigned) (h : x.height ≤ y.height) :
    x.sqrt.height ≤ y.sqrt.height := by
  cases hfin : y.isFinite with
  | false =>
    rw [hy.eq_infinity hfin, sqrt_infinity, height_infinity]
    exact height_le_limit _
  | true =>
    have hxfin : x.isFinite = true := hx.isFinite_iff.2 (h.trans_lt (hy.isFinite_iff.1 hfin))
    rw [height_sqrt hx hxfin, height_sqrt hy hfin]
    exact min_le_min_right _
      (nearest_mono_left (by norm_num) (doubledRoot_mono (Nat.mul_le_mul_right _ h)))

/-- The root of a number that is at least one is at least one. -/
theorem one_le_height_sqrt (hx : x.Unsigned) (h : one ≤ x.height) : one ≤ x.sqrt.height := by
  cases hfin : x.isFinite with
  | false =>
    rw [hx.eq_infinity hfin, sqrt_infinity, height_infinity]
    exact one_lt_limit.le
  | true =>
    rw [height_sqrt hx hfin]
    refine le_min (le_nearest Nat.two_pos onGrid_one ?_) one_lt_limit.le
    rw [Nat.mul_comm, ← doubledRoot_mul_self]
    exact doubledRoot_mono (Nat.mul_le_mul_right _ h)

/-- The root of a number up to a square is at most the root of the square. -/
theorem height_sqrt_le_of_le (hx : x.Unsigned) (hfin : x.isFinite = true) {b : ℕ} (hb : OnGrid b)
    (h : x.height * one ≤ b * b) : x.sqrt.height ≤ b := by
  rw [height_sqrt hx hfin]
  refine (min_le_left _ _).trans (nearest_le Nat.two_pos hb ?_)
  rw [Nat.mul_comm b, ← doubledRoot_mul_self]
  exact doubledRoot_mono h

/-- The root of the limit. -/
def rootLimit : ℕ := Nat.pow 2 1586

theorem rootLimit_mul_self : rootLimit * rootLimit = limit * one := by decide +kernel

theorem rootLimit_eq_pow : ∃ k, rootLimit = Nat.pow 2 k := by
  unfold rootLimit
  exact ⟨_, rfl⟩

theorem onGrid_rootLimit : OnGrid rootLimit := onGrid_pow rootLimit_eq_pow

theorem onGrid_two_mul_rootLimit : OnGrid (2 * rootLimit) :=
  onGrid_mul_pow (by norm_num) rootLimit_eq_pow

theorem two_mul_rootLimit_lt : 2 * rootLimit < limit := by decide +kernel

attribute [local irreducible] rootLimit

theorem height_sqrt_le (hx : x.Unsigned) (hfin : x.isFinite = true) :
    x.sqrt.height ≤ rootLimit := by
  apply height_sqrt_le_of_le hx hfin onGrid_rootLimit
  rw [rootLimit_mul_self]
  exact Nat.mul_le_mul_right _ (height_le_limit x)

theorem isFinite_sqrt_iff (hx : x.Unsigned) : x.sqrt.isFinite = true ↔ x.isFinite = true := by
  constructor
  · intro h
    by_contra hinf
    rw [hx.eq_infinity (Bool.not_eq_true _ ▸ hinf), sqrt_infinity] at h
    exact absurd h (by simp [isFinite])
  · intro h
    rw [(unsigned_sqrt hx).isFinite_iff]
    have := height_sqrt_le hx h
    have := two_mul_rootLimit_lt
    omega

/-- Two finite roots have a finite sum. -/
theorem isFinite_add_sqrt (hx : x.Unsigned) (hy : y.Unsigned) (hxf : x.sqrt.isFinite = true)
    (hyf : y.sqrt.isFinite = true) : (x.sqrt + y.sqrt).isFinite = true := by
  have hu := (unsigned_sqrt hx).add (unsigned_sqrt hy)
  rw [hu.isFinite_iff, (unsigned_sqrt hx).height_add (unsigned_sqrt hy)]
  refine ((min_le_left _ _).trans (nearest_le Nat.one_pos onGrid_two_mul_rootLimit ?_)).trans_lt
    two_mul_rootLimit_lt
  have := height_sqrt_le hx ((isFinite_sqrt_iff hx).1 hxf)
  have := height_sqrt_le hy ((isFinite_sqrt_iff hy).1 hyf)
  omega

/-! ## Whole numbers -/

theorem Unsigned.round_eq (hx : x.Unsigned) (hfin : x.isFinite = true) :
    x.round = ofRatio false (roundHalfUp x.height one * one) 1 := by
  rcases hx.cases with rfl | ⟨n, hn, rfl⟩
  · exact absurd hfin (by simp [isFinite])
  · rw [height_finite]
    rfl

theorem Unsigned.toNat_eq (hx : x.Unsigned) (hfin : x.isFinite = true) (top : ℕ) :
    x.toNat top = min (x.height / one) top := by
  rcases hx.cases with rfl | ⟨n, hn, rfl⟩
  · exact absurd hfin (by simp [isFinite])
  · rw [height_finite]
    rfl

theorem clamp_eq_self {low high : Binary64} (hlow : ¬x < low) (hhigh : ¬high < x) :
    x.clamp low high = x := by
  unfold clamp
  rw [if_neg hlow, if_neg hhigh]

variable {m n : ℕ}

theorem onGrid_wordSize : OnGrid UInt64.size := onGrid_pow ⟨64, rfl⟩

theorem onGrid_wordSize_mul_one : OnGrid (UInt64.size * one) := onGrid_wordSize.mul_pow one_eq_pow

theorem pow_mul_one_lt_limit {k : ℕ} (hk : k ≤ 99) : 2 ^ k * one < limit :=
  (Nat.mul_le_mul_right one (Nat.pow_le_pow_right Nat.two_pos hk)).trans_lt (by decide +kernel)

theorem wordSize_mul_one_lt : UInt64.size * one < limit :=
  pow_mul_one_lt_limit (show 64 ≤ 99 by decide)

theorem height_ofNat (n : ℕ) : (ofNat n).height = min (nearest n 1 * one) limit := by
  unfold ofNat
  rw [height_ofRatio _ _ Nat.one_pos, nearest_mul_pow n one_eq_pow]

theorem height_ofNat_mono (h : m ≤ n) : (ofNat m).height ≤ (ofNat n).height := by
  rw [height_ofNat, height_ofNat]
  exact min_le_min_right _ (Nat.mul_le_mul_right one (nearest_mono_left Nat.one_pos h))

theorem height_ofNat_le (h : n ≤ UInt64.size) : (ofNat n).height ≤ UInt64.size * one := by
  rw [height_ofNat]
  have hround := nearest_le Nat.one_pos onGrid_wordSize (h.trans_eq (Nat.mul_one _).symm)
  exact (min_le_left _ _).trans (Nat.mul_le_mul_right one hround)

theorem isFinite_ofNat (h : n ≤ UInt64.size) : (ofNat n).isFinite = true := by
  rw [(unsigned_ofNat n).isFinite_iff]
  exact (height_ofNat_le h).trans_lt wordSize_mul_one_lt

theorem height_ofNat_of_le (h : n ≤ 2 ^ 53) : (ofNat n).height = n * one := by
  rw [height_ofNat, nearest_one_of_onGrid (onGrid_of_le h)]
  exact min_eq_left ((Nat.mul_le_mul_right one h).trans (pow_mul_one_lt_limit (by decide)).le)

/-- A product of two whole numbers of few digits is the number nearest to the exact one. -/
theorem ofNat_mul_ofNat (hm : m ≤ 2 ^ 53) (hn : n ≤ 2 ^ 53) : ofNat m * ofNat n = ofNat (m * n) := by
  have hfin {k : ℕ} (hk : k ≤ 2 ^ 53) : (ofNat k).isFinite = true := by
    rw [(unsigned_ofNat k).isFinite_iff, height_ofNat_of_le hk]
    exact (Nat.mul_le_mul_right one hk).trans_lt (pow_mul_one_lt_limit (by decide))
  apply ((unsigned_ofNat m).mul (unsigned_ofNat n) (hfin hm) (hfin hn)).ext (unsigned_ofNat _)
  have hfactor : m * one * (n * one) = one * (m * n * one) := by ring
  have hone : nearest (one * (m * n * one)) one = nearest (m * n * one) 1 := by
    simpa using nearest_mul_mul_left (m * n * one) 1 one_pos
  rw [height_mul (hfin hm) (hfin hn), height_ofNat_of_le hm, height_ofNat_of_le hn, height_ofNat,
    hfactor, hone, nearest_mul_pow _ one_eq_pow]

/-- A sum of ones counts them, up to `2 ^ 53`. -/
theorem sum_replicate_one (n : ℕ) : sum (List.replicate n 1) = ofNat (min n (2 ^ 53)) := by
  induction n with
  | zero => rfl
  | succ n ih =>
    have hstep : sum (List.replicate (n + 1) 1) = sum (List.replicate n 1) + 1 := by
      rw [List.replicate_succ', sum, List.foldl_append]
      rfl
    have hu := unsigned_ofNat (min n (2 ^ 53))
    rw [hstep, ih]
    apply (hu.add unsigned_one).ext (unsigned_ofNat _)
    rw [hu.height_add unsigned_one, height_ofNat_one, height_ofNat_of_le (Nat.min_le_right _ _),
      height_ofNat_of_le (Nat.min_le_right _ _), ← Nat.succ_mul, nearest_mul_pow _ one_eq_pow,
      nearest_count]
    exact min_eq_left ((Nat.mul_le_mul_right one (Nat.min_le_right _ _)).trans
      (pow_mul_one_lt_limit (by decide)).le)

theorem one_le_height_ofNat (h : 0 < n) : one ≤ (ofNat n).height :=
  height_ofNat_one.symm.trans_le (height_ofNat_mono h)

theorem isFinite_ofNat_iff : (ofNat n).isFinite = true ↔ nearest n 1 * one < limit := by
  rw [(unsigned_ofNat n).isFinite_iff, height_ofNat]
  omega

/-- The number nearest to a whole one is whole. -/
theorem round_ofNat (n : ℕ) : (ofNat n).round = ofNat n := by
  cases hfin : (ofNat n).isFinite with
  | true =>
    have hheight : (ofNat n).height = nearest n 1 * one := by
      rw [height_ofNat, min_eq_left (isFinite_ofNat_iff.1 hfin).le]
    rw [(unsigned_ofNat n).round_eq hfin, hheight, roundHalfUp_mul_self _ one_pos, ← hheight]
    apply (unsigned_ofRatio _ Nat.one_pos).ext (unsigned_ofNat n)
    rw [height_ofRatio _ _ Nat.one_pos, nearest_one_of_onGrid (onGrid_height _),
      min_eq_left (height_le_limit _)]
  | false =>
    rw [(unsigned_ofNat n).eq_infinity hfin]
    rfl

end Binary64

end NodeRanking
