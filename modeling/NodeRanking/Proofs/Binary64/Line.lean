import NodeRanking.Proofs.Binary64.Nearest
import NodeRanking.Proofs.Binary64.Root
import NodeRanking.Proofs.Selection

/-!
# Numbers on the line

Every number but NaN has a place on a line of whole numbers, in units of the least positive one, and
the infinities lie at either end of it.

1. The comparisons compare places (`le_iff`, `lt_iff`), and the total order compares places of its
   own that tell all numbers apart (`totalLe_iff`, `totalPlace_injective`).
2. `height` is the distance of a number from zero. Of the numbers without a minus sign the height
   determines all else (`Unsigned.ext`).
3. `roundPlace` rounds a quotient of places; it keeps their order (`roundPlace_mono`), never passes
   the place of a number (`roundPlace_le`, `le_roundPlace`), and it is where the rounded quotient of
   `ofRatio` lies (`place_ofRatio`).
4. `Nonnegative` numbers are finite and lie from zero on.
-/

namespace NodeRanking

namespace Binary64

attribute [local irreducible] one limit

/-! ## Places -/

/-- The place of a number on the line; a NaN has none, and gets that of zero. -/
def place : Binary64 → ℤ
  | .nan => 0
  | .infinity negative => signed negative limit
  | .finite negative units _ => signed negative units

/-- The distance of a number from zero. -/
def height (x : Binary64) : ℕ := x.place.natAbs

@[simp] theorem natAbs_signed (s : Bool) (n : ℕ) : (signed s n).natAbs = n := by
  cases s <;> simp [signed]

@[simp] theorem signed_zero (s : Bool) : signed s 0 = 0 := by cases s <;> rfl

theorem signed_false (n : ℕ) : signed false n = n := rfl

theorem signed_not (s : Bool) (n : ℕ) : signed (!s) n = -signed s n := by
  cases s <;> simp [signed]

theorem signed_mul_signed (s t : Bool) (m n : ℕ) :
    signed s m * signed t n = signed (s != t) (m * n) := by
  cases s <;> cases t <;> simp [signed]

@[simp] theorem place_infinity (s : Bool) : place (.infinity s) = signed s limit := rfl

@[simp] theorem place_finite (s : Bool) (n : ℕ) (h : Representable n) :
    place (.finite s n h) = signed s n := rfl

@[simp] theorem place_zero (s : Bool) : (zero s).place = 0 := signed_zero s

@[simp] theorem height_infinity (s : Bool) : height (.infinity s) = limit := natAbs_signed _ _

@[simp] theorem height_finite (s : Bool) (n : ℕ) (h : Representable n) :
    height (.finite s n h) = n := natAbs_signed _ _

@[simp] theorem height_nan : height .nan = 0 := rfl

theorem height_le_limit (x : Binary64) : x.height ≤ limit := by
  cases x with
  | nan => exact limit_pos.le
  | infinity s => simp
  | finite s n h => simpa using h.1.le

theorem onGrid_height (x : Binary64) : OnGrid x.height := by
  cases x with
  | nan => exact onGrid_zero
  | infinity s => simpa using onGrid_limit
  | finite s n h => rw [height_finite]; exact h.2

theorem order?_eq {x : Binary64} (hx : x ≠ .nan) : x.order? = some x.place := by
  cases x with
  | nan => exact absurd rfl hx
  | infinity s => rfl
  | finite s n h => rfl

theorem le_iff {x y : Binary64} : x ≤ y ↔ x ≠ .nan ∧ y ≠ .nan ∧ x.place ≤ y.place := by
  show x.le y = true ↔ _
  cases x <;> cases y <;> simp [Binary64.le, order?]

theorem le_self {x : Binary64} (hx : x ≠ .nan) : x ≤ x := le_iff.2 ⟨hx, hx, le_rfl⟩

theorem lt_iff {x y : Binary64} : x < y ↔ x ≠ .nan ∧ y ≠ .nan ∧ x.place < y.place := by
  show x.lt y = true ↔ _
  cases x <;> cases y <;> simp [Binary64.lt, order?]

theorem not_lt_of_le {x y : Binary64} (h : x ≤ y) : ¬y < x := by
  rw [le_iff] at h
  rw [lt_iff]
  exact fun hlt => absurd hlt.2.2 h.2.2.not_gt

/-- From zero on the heights are in the order of the numbers. -/
theorem height_le_of_le {x y : Binary64} (hx : 0 ≤ x.place) (h : x ≤ y) : x.height ≤ y.height := by
  have hplace := (le_iff.1 h).2.2
  unfold height
  omega

theorem not_infinity_lt (x : Binary64) : ¬.infinity false < x := by
  intro h
  have hlt := (lt_iff.1 h).2.2
  rw [place_infinity, signed_false] at hlt
  have := height_le_limit x
  unfold height at this
  omega

/-- Nothing but minus infinity is at most minus infinity. -/
theorem eq_infinity_of_le {x : Binary64} (h : x ≤ .infinity true) : x = .infinity true := by
  obtain ⟨hnan, -, hle⟩ := le_iff.1 h
  have hpos := limit_pos
  cases x with
  | nan => exact absurd rfl hnan
  | infinity s => cases s <;> simp_all [signed]
  | finite s n hn =>
    have hlt := hn.1
    cases s <;> simp [signed] at hle <;> omega

/-- Below the ends of the line a place belongs to a finite number. -/
theorem isFinite_iff {x : Binary64} : x.isFinite = true ↔ x ≠ .nan ∧ x.height < limit := by
  cases x with
  | nan => simp [isFinite]
  | infinity s => simp [isFinite]
  | finite s n h => simpa [isFinite] using h.1

/-- A number between two finite ones is finite. -/
theorem isFinite_of_place_mem {x y z : Binary64} (hnan : x ≠ .nan) (hy : y.isFinite = true)
    (hz : z.isFinite = true) (hyx : y.place ≤ x.place) (hxz : x.place ≤ z.place) :
    x.isFinite = true := by
  rw [isFinite_iff] at hy hz ⊢
  refine ⟨hnan, ?_⟩
  unfold height at hy hz ⊢
  omega

theorem exists_eq_finite {x : Binary64} (h : x.isFinite = true) :
    ∃ s n, ∃ hn : Representable n, x = .finite s n hn := by
  cases x with
  | nan => simp [isFinite] at h
  | infinity s => simp [isFinite] at h
  | finite s n hn => exact ⟨s, n, hn, rfl⟩

theorem ne_nan_of_isFinite {x : Binary64} (h : x.isFinite = true) : x ≠ .nan :=
  (isFinite_iff.1 h).1

theorem isFinite_zero : (0 : Binary64).isFinite = true := by decide +kernel

theorem height_eq_zero_of_isZero {x : Binary64} (h : x.isZero = true) : x.height = 0 := by
  cases x <;> simp_all [isZero]

theorem height_pos_of_isZero_eq_false {x : Binary64} (hf : x.isFinite = true)
    (h : x.isZero = false) : 0 < x.height := by
  obtain ⟨s, n, hn, rfl⟩ := exists_eq_finite hf
  simp_all [isZero, Nat.pos_iff_ne_zero]

/-! ## Numbers without a minus sign -/

/-- A number that is no NaN and has no minus sign. -/
def Unsigned (x : Binary64) : Prop := x ≠ .nan ∧ x.isNegative = false

theorem Unsigned.place_eq {x : Binary64} (hx : x.Unsigned) : x.place = x.height := by
  obtain ⟨hnan, hsign⟩ := hx
  cases x with
  | nan => exact absurd rfl hnan
  | infinity s => simp_all [isNegative, signed]
  | finite s n h => simp_all [isNegative, signed]

theorem Unsigned.place_nonneg {x : Binary64} (hx : x.Unsigned) : 0 ≤ x.place := by
  rw [hx.place_eq]
  exact Int.natCast_nonneg _

/-- Of two unsigned numbers the height tells which one lies above. -/
theorem Unsigned.le_iff {x y : Binary64} (hx : x.Unsigned) (hy : y.Unsigned) :
    x ≤ y ↔ x.height ≤ y.height := by
  rw [Binary64.le_iff, hx.place_eq, hy.place_eq]
  simp [hx.1, hy.1]

/-- An unsigned number is determined by its height. -/
theorem Unsigned.ext {x y : Binary64} (hx : x.Unsigned) (hy : y.Unsigned)
    (h : x.height = y.height) : x = y := by
  obtain ⟨hx₁, hx₂⟩ := hx
  obtain ⟨hy₁, hy₂⟩ := hy
  cases x <;> cases y <;> simp_all [isNegative]
  · exact absurd h (Nat.ne_of_gt ‹Representable _›.1)
  · exact absurd h (Nat.ne_of_lt ‹Representable _›.1)

/-! ## The total order -/

/-- The place in the total order: the places on the line doubled, so that of two zeros the one with
the minus sign comes first, and a NaN above all. -/
def totalPlace (x : Binary64) : ℤ :=
  if x = .nan then 2 * limit + 2 else 2 * x.place + if x.isNegative then 0 else 1

theorem totalPlace_lt {x : Binary64} (hx : x ≠ .nan) : x.totalPlace < 2 * limit + 2 := by
  have := height_le_limit x
  rw [height] at this
  rw [totalPlace, if_neg hx]
  split_ifs <;> omega

theorem totalLe_iff {x y : Binary64} : totalLe x y = true ↔ x.totalPlace ≤ y.totalPlace := by
  rcases eq_or_ne y .nan with rfl | hy
  · have hle : x.totalPlace ≤ (nan : Binary64).totalPlace := by
      rcases eq_or_ne x .nan with rfl | hx
      · exact le_rfl
      · exact (totalPlace_lt hx).le
    simp only [hle, iff_true]
    cases x <;> rfl
  rcases eq_or_ne x .nan with rfl | hx
  · have hlt : y.totalPlace < (nan : Binary64).totalPlace := totalPlace_lt hy
    simp [totalLe, order?_eq hy, not_le.2 hlt, show (nan : Binary64).order? = none from rfl]
  · simp only [totalLe, order?_eq hx, order?_eq hy, totalPlace, if_neg hx, if_neg hy,
      Bool.or_eq_true, Bool.and_eq_true, decide_eq_true_eq, Bool.not_eq_true']
    cases x.isNegative <;> cases y.isNegative <;> simp <;> omega

theorem totalPlace_injective : Function.Injective totalPlace := by
  intro x y h
  rcases eq_or_ne x .nan with rfl | hx
  · by_contra hy
    exact absurd h (totalPlace_lt (Ne.symm hy)).ne'
  rcases eq_or_ne y .nan with rfl | hy
  · exact absurd h (totalPlace_lt hx).ne
  -- the doubled place and the sign are read off the parity
  have hsign : x.isNegative = y.isNegative ∧ x.place = y.place := by
    simp only [totalPlace, if_neg hx, if_neg hy] at h
    cases hs : x.isNegative <;> cases ht : y.isNegative <;> simp [hs, ht] at h ⊢ <;> omega
  have hheight : x.height = y.height := congrArg Int.natAbs hsign.2
  cases x <;> cases y <;> simp_all [isNegative]
  · exact absurd hheight (Nat.ne_of_gt ‹Representable _›.1)
  · exact absurd hheight (Nat.ne_of_lt ‹Representable _›.1)

/-- The sum in ascending order does not depend on the order of the list. -/
theorem sumAscending_perm {xs ys : List Binary64} (h : xs.Perm ys) :
    sumAscending xs = sumAscending ys :=
  congrArg sum (sortBy_eq_of_perm totalPlace (fun _ _ => totalLe_iff)
    (fun _ _ _ _ heq => totalPlace_injective heq) h)

theorem mem_sortBy_totalLe {xs : List Binary64} {x : Binary64} :
    x ∈ sortBy totalLe xs ↔ x ∈ xs := (sortBy_perm totalLe xs).mem_iff

/-! ## Rounding places -/

/-- The place of the quotient of a place and a natural number, rounded. -/
def roundPlace (i : ℤ) (den : ℕ) : ℤ := signed (decide (i < 0)) (min (nearest i.natAbs den) limit)

theorem roundPlace_natCast (n den : ℕ) : roundPlace n den = (min (nearest n den) limit : ℕ) := by
  rw [roundPlace, decide_eq_false (by omega), signed_false, Int.natAbs_natCast]

theorem roundPlace_zero (den : ℕ) : roundPlace 0 den = 0 := by
  have h := roundPlace_natCast 0 den
  rwa [nearest_zero, Nat.zero_min, Nat.cast_zero] at h

theorem roundPlace_signed (s : Bool) (n den : ℕ) :
    roundPlace (signed s n) den = signed s (min (nearest n den) limit) := by
  rcases Nat.eq_zero_or_pos n with rfl | hn
  · simp [roundPlace]
  · cases s
    · exact roundPlace_natCast n den
    · have : decide (signed true n < 0) = true := by simpa [signed] using hn
      rw [roundPlace, this, natAbs_signed]

theorem natAbs_roundPlace (i : ℤ) (den : ℕ) :
    (roundPlace i den).natAbs = min (nearest i.natAbs den) limit := natAbs_signed _ _

theorem roundPlace_neg (i : ℤ) (den : ℕ) : roundPlace (-i) den = -roundPlace i den := by
  rcases lt_trichotomy i 0 with h | rfl | h
  · simp [roundPlace, signed, h, h.le]
  · simp [roundPlace]
  · simp [roundPlace, signed, h, h.le]

/-- Rounding keeps the order of places. -/
theorem roundPlace_mono {i j : ℤ} {den : ℕ} (hden : 0 < den) (h : i ≤ j) :
    roundPlace i den ≤ roundPlace j den := by
  have hnat : ∀ m n : ℕ, m ≤ n → roundPlace m den ≤ roundPlace n den := fun m n hmn => by
    rw [roundPlace_natCast, roundPlace_natCast]
    exact_mod_cast min_le_min_right _ (nearest_mono_left hden hmn)
  have hpos : ∀ n : ℕ, 0 ≤ roundPlace n den := fun n => by
    rw [roundPlace_natCast]
    exact Int.natCast_nonneg _
  obtain ⟨m, rfl | rfl⟩ := i.eq_nat_or_neg <;> obtain ⟨n, rfl | rfl⟩ := j.eq_nat_or_neg
  · exact hnat m n (by exact_mod_cast h)
  · obtain ⟨rfl, rfl⟩ : m = 0 ∧ n = 0 := by omega
    simp
  · rw [roundPlace_neg]
    have := hpos m
    have := hpos n
    omega
  · rw [roundPlace_neg, roundPlace_neg]
    exact neg_le_neg (hnat n m (by omega))

/-- A common factor does not change the quotient. -/
theorem roundPlace_mul_mul_left (i : ℤ) (den : ℕ) {k : ℕ} (hk : 0 < k) :
    roundPlace (k * i) (k * den) = roundPlace i den := by
  have hnat : ∀ n : ℕ, roundPlace (k * n) (k * den) = roundPlace n den := by
    intro n
    rw [← Nat.cast_mul, roundPlace_natCast, roundPlace_natCast, nearest_mul_mul_left _ _ hk]
  obtain ⟨n, rfl | rfl⟩ := i.eq_nat_or_neg
  · exact hnat n
  · rw [mul_neg, roundPlace_neg, roundPlace_neg, hnat]

/-- Rounding keeps the order of quotients, whatever their denominators. -/
theorem roundPlace_mono_of_mul_le {i j : ℤ} {den den' : ℕ} (hden : 0 < den) (hden' : 0 < den')
    (h : i * den' ≤ j * den) : roundPlace i den ≤ roundPlace j den' := by
  calc roundPlace i den = roundPlace (den' * i) (den' * den) :=
        (roundPlace_mul_mul_left i den hden').symm
    _ ≤ roundPlace (den * j) (den' * den) :=
        roundPlace_mono (Nat.mul_pos hden' hden) (by linarith)
    _ = roundPlace (den * j) (den * den') := by rw [Nat.mul_comm den' den]
    _ = roundPlace j den' := roundPlace_mul_mul_left j den' hden

/-- The place of a number is its own rounding. -/
theorem roundPlace_place_mul (x : Binary64) {den : ℕ} (hden : 0 < den) :
    roundPlace (x.place * den) den = x.place := by
  have hnat : roundPlace ((x.height : ℤ) * den) den = x.height := by
    rw [← Nat.cast_mul, roundPlace_natCast, nearest_mul_of_onGrid hden (onGrid_height x),
      min_eq_left (height_le_limit x)]
  rcases x.place.natAbs_eq with h | h
  · rw [h]
    exact hnat
  · rw [h, neg_mul, roundPlace_neg]
    exact congrArg Neg.neg hnat

/-- Rounding never passes the place of a number that the quotient stays below. -/
theorem roundPlace_le {i : ℤ} {den : ℕ} {x : Binary64} (hden : 0 < den) (h : i ≤ x.place * den) :
    roundPlace i den ≤ x.place :=
  (roundPlace_mono hden h).trans_eq (roundPlace_place_mul x hden)

theorem le_roundPlace {i : ℤ} {den : ℕ} {x : Binary64} (hden : 0 < den) (h : x.place * den ≤ i) :
    x.place ≤ roundPlace i den :=
  (roundPlace_place_mul x hden).symm.trans_le (roundPlace_mono hden h)

theorem place_ofRatio (s : Bool) (n : ℕ) {den : ℕ} (hden : 0 < den) :
    (ofRatio s n den).place = roundPlace (signed s n) den := by
  rw [roundPlace_signed, ofRatio, dif_pos hden]
  split_ifs with h
  · rw [place_finite, min_eq_left h.le]
  · rw [place_infinity, min_eq_right (not_lt.1 h)]

theorem height_ofRatio (s : Bool) (n : ℕ) {den : ℕ} (hden : 0 < den) :
    (ofRatio s n den).height = min (nearest n den) limit := by
  rw [height, place_ofRatio s n hden, natAbs_roundPlace, natAbs_signed]

theorem ofRatio_ne_nan (s : Bool) (n : ℕ) {den : ℕ} (hden : 0 < den) : ofRatio s n den ≠ .nan := by
  rw [ofRatio, dif_pos hden]
  split_ifs <;> simp

theorem unsigned_ofRatio (n : ℕ) {den : ℕ} (hden : 0 < den) : (ofRatio false n den).Unsigned := by
  refine ⟨ofRatio_ne_nan false n hden, ?_⟩
  rw [ofRatio, dif_pos hden]
  split_ifs <;> rfl

theorem unsigned_ofNat (n : ℕ) : (ofNat n).Unsigned := unsigned_ofRatio _ Nat.one_pos

theorem unsigned_zero : (0 : Binary64).Unsigned := unsigned_ofNat 0

theorem unsigned_one : (1 : Binary64).Unsigned := unsigned_ofNat 1

@[simp] theorem place_ofNat_zero : (0 : Binary64).place = 0 := by
  show (ofRatio false (0 * one) 1).place = 0
  rw [place_ofRatio _ _ Nat.one_pos, Nat.zero_mul, signed_zero, roundPlace]
  simp

theorem height_ofNat_zero : (0 : Binary64).height = 0 := by
  rw [height, place_ofNat_zero, Int.natAbs_zero]

theorem height_ofNat_one : (1 : Binary64).height = one := by
  show (ofRatio false (1 * one) 1).height = one
  rw [height_ofRatio _ _ Nat.one_pos, Nat.one_mul, nearest_one_of_onGrid onGrid_one,
    min_eq_left one_lt_limit.le]

theorem place_ofNat_one : (1 : Binary64).place = one := by
  rw [unsigned_one.place_eq, height_ofNat_one]

theorem ofNat_zero_le_one : (0 : Binary64) ≤ 1 := by
  rw [le_iff, place_ofNat_zero, place_ofNat_one]
  exact ⟨unsigned_zero.1, unsigned_one.1, Int.natCast_nonneg one⟩

theorem isFinite_one : (1 : Binary64).isFinite = true := by
  rw [isFinite_iff, height_ofNat_one]
  exact ⟨unsigned_one.1, one_lt_limit⟩

end Binary64

/-! ## Finite numbers from zero on -/

/-- A finite number that is not below zero. -/
def Nonnegative (x : Binary64) : Prop := x.isFinite = true ∧ 0 ≤ x

theorem nonnegative_iff {x : Binary64} :
    (x.isFinite && Binary64.le 0 x) = true ↔ Nonnegative x := by
  rw [Bool.and_eq_true]
  rfl

theorem Nonnegative.place_nonneg {x : Binary64} (h : Nonnegative x) : 0 ≤ x.place := by
  have hle := (Binary64.le_iff.1 h.2).2.2
  rwa [Binary64.place_ofNat_zero] at hle

theorem nonnegative_of_place {x : Binary64} (hfin : x.isFinite = true) (h : 0 ≤ x.place) :
    Nonnegative x := by
  refine ⟨hfin, Binary64.le_iff.2 ⟨Binary64.unsigned_zero.1, Binary64.ne_nan_of_isFinite hfin, ?_⟩⟩
  rwa [Binary64.place_ofNat_zero]

theorem nonnegative_of_unsigned {x : Binary64} (hfin : x.isFinite = true) (h : x.Unsigned) :
    Nonnegative x := nonnegative_of_place hfin h.place_nonneg

theorem nonnegative_or_infinity {x : Binary64} (h : 0 ≤ x) : Nonnegative x ∨ x = .infinity false := by
  obtain ⟨-, hnan, hplace⟩ := Binary64.le_iff.1 h
  have hpos := Binary64.limit_pos
  rw [Binary64.place_ofNat_zero] at hplace
  cases x with
  | nan => exact absurd rfl hnan
  | finite s n hn => exact .inl ⟨rfl, h⟩
  | infinity s =>
    cases s with
    | false => exact .inr rfl
    | true =>
      simp only [Binary64.place_infinity, Binary64.signed, if_true] at hplace
      omega

end NodeRanking
