import NodeRanking.Decimal.Shortest
import NodeRanking.Proofs.Binary64.Line

/-!
# The value of a decimal

The binary number of a decimal is decided by its exact value alone (`toBinary64_congr`), whatever
its digits and exponent, and in the order of these values (`toBinary64_mono`). The shortest decimal
of a number reads back as that number (`toBinary64_shortest`).
-/

namespace NodeRanking

open Binary64

attribute [local irreducible] Binary64.one Binary64.limit

namespace Binary64

/-- Equal quotients are rounded alike. -/
theorem ofRatio_congr (negative : Bool) {num den num' den' : ℕ} (hden : 0 < den) (hden' : 0 < den')
    (h : num * den' = num' * den) : ofRatio negative num den = ofRatio negative num' den' := by
  have hnearest : nearest num den = nearest num' den' :=
    le_antisymm (nearest_mono hden hden' h.le) (nearest_mono hden' hden h.ge)
  unfold ofRatio
  simp only [hden, hden', dif_pos, hnearest]

theorem ofRatio_of_nearest {negative : Bool} {num den n : ℕ} (hden : 0 < den)
    (h : nearest num den = n) (hn : Representable n) :
    ofRatio negative num den = .finite negative n hn := by
  subst h
  unfold ofRatio
  rw [dif_pos hden, dif_pos hn.1]

theorem nearest_of_ofRatio {negative sign : Bool} {num den n : ℕ} {hn : Representable n}
    (h : ofRatio negative num den = .finite sign n hn) : 0 < den ∧ nearest num den = n := by
  unfold ofRatio at h
  split_ifs at h with hden hlimit
  exact ⟨hden, (Binary64.finite.inj h).2⟩

/-- A quotient below a half is rounded to zero. -/
theorem nearest_eq_zero {num den : ℕ} (h : 2 * num < den) : nearest num den = 0 := by
  have hdiv : num / den = 0 := Nat.div_eq_of_lt (by omega)
  have hmod : num % den = num := Nat.mod_eq_of_lt (by omega)
  simp [nearest_eq, hdiv, step, roundDiv, hmod, h]

theorem pow_pow_le {a b k : ℕ} (h : a * b ≤ k) : (10 ^ a) ^ b ≤ 10 ^ k := by
  rw [← pow_mul]
  exact Nat.pow_le_pow_right (by decide) h

theorem limit_le_pow_mul_one {k : ℕ} (h : 310 ≤ k) : limit ≤ 10 ^ k * one := by
  have hbase : limit ≤ (10 ^ 155) ^ 2 * one := by decide +kernel
  exact hbase.trans (Nat.mul_le_mul_right one (pow_pow_le (by omega)))

theorem two_mul_one_le_pow {k : ℕ} (h : 330 ≤ k) : 2 * one ≤ 10 ^ k := by
  have hbase : 2 * one ≤ (10 ^ 165) ^ 2 := by decide +kernel
  exact hbase.trans (pow_pow_le (by omega))

end Binary64

namespace Decimal

/-- The exact value. -/
def value (d : Decimal) : ℚ := d.digits * 10 ^ d.exponent

theorem ratio_pos (d : Decimal) : 0 < d.ratio.2 := by
  unfold ratio
  split_ifs
  · exact Nat.one_pos
  · exact Nat.pow_pos (by decide)

theorem ratio_eq_value (d : Decimal) : (d.ratio.1 : ℚ) / d.ratio.2 = d.value := by
  unfold ratio value
  split_ifs with h
  · obtain ⟨k, hk⟩ := Int.eq_ofNat_of_zero_le h
    simp [hk]
  · obtain ⟨k, hk⟩ := Int.eq_ofNat_of_zero_le (show 0 ≤ -d.exponent by omega)
    have hexp : d.exponent = -(k : ℤ) := by omega
    simp [hexp, div_eq_mul_inv]

theorem lt_pow_digitBound (n : ℕ) : n < 10 ^ digitBound n := by
  calc n < 2 ^ (n.log2 + 1) := Nat.lt_log2_self
    _ ≤ 2 ^ (3 * digitBound n) := Nat.pow_le_pow_right (by decide) (by unfold digitBound; omega)
    _ = 8 ^ digitBound n := by rw [pow_mul]; rfl
    _ ≤ 10 ^ digitBound n := Nat.pow_le_pow_left (by decide) _

/-- A value of `10 ^ 310` or more is rounded past the finite numbers. -/
theorem limit_le_nearest {d : Decimal} (hdigits : d.digits ≠ 0) (h : 310 ≤ d.exponent) :
    limit ≤ nearest (d.ratio.1 * one) d.ratio.2 := by
  have hratio : d.ratio = (d.digits * 10 ^ d.exponent.toNat, 1) := by
    unfold ratio
    rw [if_pos (by omega)]
    rfl
  rw [hratio]
  apply le_nearest Nat.one_pos onGrid_limit
  calc limit * 1 ≤ 10 ^ d.exponent.toNat * one := by
        rw [Nat.mul_one]
        exact limit_le_pow_mul_one (by omega)
    _ ≤ d.digits * 10 ^ d.exponent.toNat * one :=
      Nat.mul_le_mul_right _ (Nat.le_mul_of_pos_left _ (Nat.pos_of_ne_zero hdigits))

/-- A value below `10 ^ -330` is rounded to zero. -/
theorem nearest_eq_zero_of_small {d : Decimal} (h : d.exponent + digitBound d.digits ≤ -330) :
    nearest (d.ratio.1 * one) d.ratio.2 = 0 := by
  have hratio : d.ratio = (d.digits, 10 ^ (-d.exponent).toNat) := by
    unfold ratio
    rw [if_neg (by omega)]
    rfl
  rw [hratio]
  apply nearest_eq_zero
  obtain ⟨k, hk, hsum⟩ : ∃ k, 330 ≤ k ∧ (-d.exponent).toNat = digitBound d.digits + k :=
    ⟨(-d.exponent).toNat - digitBound d.digits, by omega, by omega⟩
  have hone := one_pos
  calc 2 * (d.digits * one) = d.digits * (2 * one) := by ring
    _ < 10 ^ digitBound d.digits * (2 * one) :=
      Nat.mul_lt_mul_of_pos_right (lt_pow_digitBound _) (by omega)
    _ ≤ 10 ^ digitBound d.digits * 10 ^ k := Nat.mul_le_mul_left _ (two_mul_one_le_pow hk)
    _ = 10 ^ (-d.exponent).toNat := by rw [hsum, pow_add]

/-- The two shortcuts for extreme exponents agree with the rounded quotient. -/
theorem toBinary64_eq_ofRatio (negative : Bool) (d : Decimal) :
    d.toBinary64 negative = .ofRatio negative (d.ratio.1 * one) d.ratio.2 := by
  have hden := d.ratio_pos
  have hzero (h : nearest (d.ratio.1 * one) d.ratio.2 = 0) :
      Binary64.zero negative = .ofRatio negative (d.ratio.1 * one) d.ratio.2 :=
    (ofRatio_of_nearest hden h _).symm
  unfold toBinary64
  split_ifs with hdigits hlarge hsmall
  · have hratio : d.ratio.1 = 0 := by
      unfold ratio
      split_ifs <;> simp [hdigits]
    apply hzero
    rw [hratio, Nat.zero_mul, nearest_zero]
  · have hlimit := limit_le_nearest hdigits hlarge
    unfold ofRatio
    rw [dif_pos hden, dif_neg hlimit.not_gt]
  · exact hzero (nearest_eq_zero_of_small hsmall)
  · rfl

/-- Decimals of one value have one binary number. -/
theorem toBinary64_congr (negative : Bool) {d d' : Decimal} (h : d.value = d'.value) :
    d.toBinary64 negative = d'.toBinary64 negative := by
  rw [toBinary64_eq_ofRatio, toBinary64_eq_ofRatio]
  apply ofRatio_congr _ d.ratio_pos d'.ratio_pos
  have hd : (d.ratio.2 : ℚ) ≠ 0 := by exact_mod_cast d.ratio_pos.ne'
  have hd' : (d'.ratio.2 : ℚ) ≠ 0 := by exact_mod_cast d'.ratio_pos.ne'
  rw [← ratio_eq_value, ← ratio_eq_value, div_eq_div_iff hd hd'] at h
  have hnat : d.ratio.1 * d'.ratio.2 = d'.ratio.1 * d.ratio.2 := by exact_mod_cast h
  rw [Nat.mul_right_comm, hnat, Nat.mul_right_comm]

/-- Of a whole number without a sign the binary number is the one nearest to it. -/
theorem toBinary64_whole (n : ℕ) : toBinary64 false ⟨n, 0⟩ = .ofNat n := by
  rw [toBinary64_eq_ofRatio]
  unfold ratio Binary64.ofNat
  simp

/-! ## Order -/

/-- The exact value with its sign. -/
def signedValue (negative : Bool) (d : Decimal) : ℚ := if negative then -d.value else d.value

theorem signedValue_eq (negative : Bool) (d : Decimal) :
    signedValue negative d = (signed negative d.ratio.1 : ℤ) / d.ratio.2 := by
  unfold signedValue signed
  rw [← ratio_eq_value]
  cases negative
  · simp
  · simp [neg_div]

theorem toBinary64_ne_nan (negative : Bool) (d : Decimal) : d.toBinary64 negative ≠ .nan := by
  rw [toBinary64_eq_ofRatio]
  exact ofRatio_ne_nan _ _ d.ratio_pos

/-- Binary numbers are in the order of the decimals that they are nearest to. -/
theorem toBinary64_mono {negative negative' : Bool} {d d' : Decimal}
    (h : signedValue negative d ≤ signedValue negative' d') :
    d.toBinary64 negative ≤ d'.toBinary64 negative' := by
  have hscale (s : Bool) (n : ℕ) : signed s (n * one) = signed s n * one := by
    cases s <;> simp [signed]
  refine le_iff.2 ⟨toBinary64_ne_nan _ _, toBinary64_ne_nan _ _, ?_⟩
  rw [toBinary64_eq_ofRatio, toBinary64_eq_ofRatio, place_ofRatio _ _ d.ratio_pos,
    place_ofRatio _ _ d'.ratio_pos, hscale, hscale]
  apply roundPlace_mono_of_mul_le d.ratio_pos d'.ratio_pos
  rw [signedValue_eq, signedValue_eq, div_le_div_iff₀ (Nat.cast_pos.2 d.ratio_pos)
    (Nat.cast_pos.2 d'.ratio_pos)] at h
  have hint : signed negative d.ratio.1 * d'.ratio.2 ≤ signed negative' d'.ratio.1 * d.ratio.2 := by
    exact_mod_cast h
  rw [mul_right_comm, mul_right_comm _ (one : ℤ)]
  exact mul_le_mul_of_nonneg_right hint (Int.natCast_nonneg one)

/-! ## The shortest decimal -/

theorem value_trimZeros (fuel : ℕ) (d : Decimal) : (trimZeros fuel d).value = d.value := by
  induction fuel generalizing d with
  | zero => rfl
  | succ fuel ih =>
    unfold trimZeros
    split_ifs with h
    · rw [ih]
      have hdigits : (d.digits : ℚ) = (d.digits / 10 : ℕ) * 10 := by
        exact_mod_cast (Nat.div_mul_cancel (Nat.dvd_of_mod_eq_zero h.2)).symm
      unfold value
      rw [zpow_add_one₀ (by norm_num), hdigits]
      ring
    · rfl

/-- A candidate is taken only if it reads back. -/
theorem toBinary64_onGrid? {tie : Tie} {x : Binary64} {units : ℕ} {exponent : ℤ} {d : Decimal}
    (h : onGrid? tie x units exponent = some d) : d.toBinary64 false = x := by
  unfold onGrid? at h
  simp only at h
  split_ifs at h with hboth hprefer hlow hhigh <;> simp_all

theorem toBinary64_firstOnGrids? {tie : Tie} {x : Binary64} {units n fuel : ℕ} {d : Decimal}
    (h : firstOnGrids? tie x units n fuel = some d) : d.toBinary64 false = x := by
  induction fuel generalizing n with
  | zero => simp [firstOnGrids?] at h
  | succ fuel ih =>
    rw [firstOnGrids?, Option.or_eq_some_iff] at h
    rcases h with h | ⟨-, h⟩
    · exact toBinary64_onGrid? h
    · exact ih h

theorem ratio_ofUnits (units : ℕ) :
    (ofUnits units).ratio = (units * Nat.pow 5 1074, Nat.pow 10 1074) := by
  have hexp : ¬ (0 : ℤ) ≤ (ofUnits units).exponent := by
    show ¬ (0 : ℤ) ≤ -1074
    decide
  rw [ratio, if_neg hexp]
  rfl

/-- A number of units is written exactly with enough digits. -/
theorem toBinary64_ofUnits {units : ℕ} (h : Representable units) :
    (ofUnits units).toBinary64 false = .finite false units h := by
  -- the two powers are kept behind names, so that nothing computes them
  obtain ⟨a, b, hratio, hab⟩ : ∃ a b, (ofUnits units).ratio = (units * a, b) ∧ a * one = b :=
    ⟨_, _, ratio_ofUnits units, by decide +kernel⟩
  have hb := (ofUnits units).ratio_pos
  simp only [toBinary64_eq_ofRatio, hratio] at hb ⊢
  apply ofRatio_of_nearest hb
  rw [Nat.mul_assoc, hab]
  exact nearest_mul_of_onGrid hb h.2

/-- The sign in front of a decimal is the sign of the number. -/
theorem toBinary64_sign {d : Decimal} {units : ℕ} {h : Representable units}
    (hd : d.toBinary64 false = .finite false units h) (negative : Bool) :
    d.toBinary64 negative = .finite negative units h := by
  rw [toBinary64_eq_ofRatio] at hd ⊢
  obtain ⟨hden, hnearest⟩ := nearest_of_ofRatio hd
  exact ofRatio_of_nearest hden hnearest h

/-- The shortest decimal reads back as the number that it was found for. -/
theorem toBinary64_shortest (tie : Tie) {units : ℕ} (h : Representable units) (negative : Bool) :
    (shortest tie units h).toBinary64 negative = .finite negative units h := by
  apply toBinary64_sign
  unfold shortest
  split_ifs with hzero
  · subst hzero
    rfl
  · rw [toBinary64_congr false (value_trimZeros _ _)]
    cases hfirst : firstOnGrids? tie (.finite false units h) units 1 17 with
    | none => exact toBinary64_ofUnits h
    | some d => exact toBinary64_firstOnGrids? hfirst

/-- A decimal without digits has no exponent either. -/
theorem exponent_shortest_of_digits_eq_zero (tie : Tie) {units : ℕ} (h : Representable units)
    (hdigits : (shortest tie units h).digits = 0) : (shortest tie units h).exponent = 0 := by
  have hreads := toBinary64_shortest tie h false
  rw [toBinary64, if_pos hdigits] at hreads
  obtain rfl : 0 = units := (Binary64.finite.inj hreads).2
  simp [shortest]

end Decimal

end NodeRanking
