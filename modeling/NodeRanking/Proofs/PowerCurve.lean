import NodeRanking.PowerCurve
import NodeRanking.Proofs.Closeness

/-!
# Laws of the power curve

The power at a usage is the base and a part of the scale; the shapes differ only in which part that
is (`PowerCurve.powerAt_eq`).

1. Of the exponential three things are used, all on arguments up to zero: its values are between 0
   and 1 (`UnitBelowZero`), they do not fall (`MonoBelowZero`), and at zero the value is 1
   (`OneAtZero`). So the part is a number from 0 to 1 (`Usable.inUnit_part`).
2. A usable curve stays between its base and its peak (`Usable.powerAt_mem`). The power does not
   fall with the usage in the saturating shape (`Usable.powerAt_mono`), and does not rise with it in
   the decaying one (`Usable.powerAt_anti`).
3. Without usage the one shape draws the base, and the other one the peak
   (`Usable.place_powerAt_zero`).
-/

namespace NodeRanking

open Binary64

attribute [local irreducible] Binary64.one Binary64.limit

/-! ## Numbers from 0 to 1 -/

theorem inUnit_iff {x : Binary64} : InUnit x ↔ x ≠ .nan ∧ 0 ≤ x.place ∧ x.place ≤ one := by
  unfold InUnit
  rw [le_iff, le_iff, place_ofNat_zero, place_ofNat_one]
  constructor
  · rintro ⟨-, ⟨-, hnan, hnonneg⟩, -, -, hle⟩
    exact ⟨hnan, hnonneg, hle⟩
  · rintro ⟨hnan, hnonneg, hle⟩
    have hfin : x.isFinite = true := isFinite_of_place_mem hnan isFinite_zero isFinite_one
      (by rwa [place_ofNat_zero]) (by rwa [place_ofNat_one])
    exact ⟨hfin, ⟨unsigned_zero.1, hnan, hnonneg⟩, hnan, unsigned_one.1, hle⟩

/-- What is left of 1. -/
theorem InUnit.one_sub {x : Binary64} (hx : InUnit x) : InUnit (1 - x) := by
  obtain ⟨-, hnonneg, hle⟩ := inUnit_iff.1 hx
  refine inUnit_iff.2 ⟨sub_ne_nan isFinite_one hx.1, ?_⟩
  rw [place_sub isFinite_one hx.1, place_ofNat_one]
  constructor
  · rw [← place_ofNat_zero]
    apply le_roundPlace Nat.one_pos
    rw [place_ofNat_zero]
    omega
  · rw [← place_ofNat_one]
    apply roundPlace_le Nat.one_pos
    rw [place_ofNat_one]
    omega

/-- A number from 0 to 1 times one that is not below zero does not pass the latter. -/
theorem InUnit.roundPlace_mul_mem {x w : Binary64} (hx : InUnit x) (hw : 0 ≤ w.place) :
    0 ≤ roundPlace (x.place * w.place) one ∧ roundPlace (x.place * w.place) one ≤ w.place := by
  obtain ⟨-, hnonneg, hle⟩ := inUnit_iff.1 hx
  constructor
  · rw [← place_ofNat_zero]
    apply le_roundPlace Binary64.one_pos
    rw [place_ofNat_zero, zero_mul]
    exact mul_nonneg hnonneg hw
  · apply roundPlace_le Binary64.one_pos
    rw [mul_comm]
    exact mul_le_mul_of_nonneg_left hle hw

/-! ## The exponential -/

/-- On arguments up to zero the values are between 0 and 1. -/
def UnitBelowZero (exp : Binary64 → Binary64) : Prop := ∀ x, x ≤ 0 → 0 ≤ exp x ∧ exp x ≤ 1

/-- On arguments up to zero the values do not fall. -/
def MonoBelowZero (exp : Binary64 → Binary64) : Prop := ∀ x y, x ≤ y → y ≤ 0 → exp x ≤ exp y

/-- At the zeros of either sign the value is 1. -/
def OneAtZero (exp : Binary64 → Binary64) : Prop := ∀ s, exp (zero s) = 1

theorem UnitBelowZero.inUnit {exp : Binary64 → Binary64} (h : UnitBelowZero exp) {x : Binary64}
    (hx : x ≤ 0) : InUnit (exp x) := by
  obtain ⟨hnonneg, hle⟩ := h x hx
  have hplace := (le_iff.1 hnonneg).2
  have hone := (le_iff.1 hle).2.2
  rw [place_ofNat_zero] at hplace
  rw [place_ofNat_one] at hone
  exact inUnit_iff.2 ⟨hplace.1, hplace.2, hone⟩

namespace PowerCurve

/-! ## Usable constants -/

/-- The constants and the peak are finite, and the constants are not below zero. -/
structure Usable (curve : PowerCurve) : Prop where
  base : Nonnegative curve.base
  scale : Nonnegative curve.scale
  rate : Nonnegative curve.rate
  peak_finite : (curve.base + curve.scale).isFinite = true

theorem isUsable_iff {curve : PowerCurve} : curve.isUsable = true ↔ curve.Usable := by
  unfold isUsable
  rw [Bool.and_eq_true]
  simp only [List.all_eq_true, nonnegative_iff, List.mem_cons, List.not_mem_nil, or_false,
    forall_eq_or_imp, forall_eq]
  exact ⟨fun ⟨⟨hbase, hscale, hrate⟩, hpeak⟩ => ⟨hbase, hscale, hrate, hpeak⟩,
    fun h => ⟨⟨h.base, h.scale, h.rate⟩, h.peak_finite⟩⟩

/-! ## The part of the scale -/

/-- The part of the scale that is drawn at a usage. -/
def part (exp : Binary64 → Binary64) (curve : PowerCurve) (usage : Binary64) : Binary64 :=
  let decay := exp (-curve.rate * usage)
  match curve.shape with
  | .saturating => 1 - decay
  | .decaying => decay

theorem powerAt_eq (exp : Binary64 → Binary64) (curve : PowerCurve) (usage : Binary64) :
    curve.powerAt exp usage = curve.base + curve.scale * curve.part exp usage := by
  unfold powerAt part
  cases curve.shape <;> rfl

namespace Usable

variable {exp : Binary64 → Binary64} {curve : PowerCurve} (h : curve.Usable)

section Exponent

variable {u v : Binary64} (hu : u.isFinite = true) (hu0 : 0 ≤ u.place)

include h hu

theorem place_exponent : (-curve.rate * u).place = roundPlace (-curve.rate.place * u.place) one := by
  show (neg curve.rate * u).place = _
  rw [place_mul (by rw [isFinite_neg]; exact h.rate.1) hu, place_neg]

theorem exponent_ne_nan : -curve.rate * u ≠ .nan :=
  mul_ne_nan (x := neg curve.rate) (by rw [isFinite_neg]; exact h.rate.1) hu

include hu0 in
theorem exponent_le_zero : -curve.rate * u ≤ 0 := by
  refine le_iff.2 ⟨h.exponent_ne_nan hu, unsigned_zero.1, ?_⟩
  rw [h.place_exponent hu]
  apply roundPlace_le Binary64.one_pos
  rw [place_ofNat_zero, zero_mul, neg_mul]
  exact neg_nonpos.2 (mul_nonneg h.rate.place_nonneg hu0)

/-- The exponent falls where the usage rises. -/
theorem exponent_anti (hv : v.isFinite = true) (huv : u.place ≤ v.place) :
    -curve.rate * v ≤ -curve.rate * u := by
  refine le_iff.2 ⟨h.exponent_ne_nan hv, h.exponent_ne_nan hu, ?_⟩
  rw [h.place_exponent hu, h.place_exponent hv]
  apply roundPlace_mono Binary64.one_pos
  rw [neg_mul, neg_mul, neg_le_neg_iff]
  exact mul_le_mul_of_nonneg_left huv h.rate.place_nonneg

include hu0

theorem inUnit_part (hexp : UnitBelowZero exp) : InUnit (curve.part exp u) := by
  have hdecay := hexp.inUnit (h.exponent_le_zero hu hu0)
  unfold part
  cases curve.shape with
  | saturating => exact hdecay.one_sub
  | decaying => exact hdecay

/-- The exponential of the exponent does not rise with the usage. -/
theorem place_decay_anti (hmono : MonoBelowZero exp) (hv : v.isFinite = true)
    (huv : u.place ≤ v.place) :
    (exp (-curve.rate * v)).place ≤ (exp (-curve.rate * u)).place :=
  (le_iff.1 (hmono _ _ (h.exponent_anti hu hv huv) (h.exponent_le_zero hu hu0))).2.2

/-- With the saturating shape the part does not fall with the usage. -/
theorem place_part_mono (hexp : UnitBelowZero exp) (hmono : MonoBelowZero exp)
    (hshape : curve.shape = .saturating) (hv : v.isFinite = true) (huv : u.place ≤ v.place) :
    (curve.part exp u).place ≤ (curve.part exp v).place := by
  have hu1 := hexp.inUnit (h.exponent_le_zero hu hu0)
  have hv1 := hexp.inUnit (h.exponent_le_zero hv (hu0.trans huv))
  unfold part
  rw [hshape]
  dsimp only
  rw [place_sub isFinite_one hu1.1, place_sub isFinite_one hv1.1]
  exact roundPlace_mono Nat.one_pos (sub_le_sub_left (h.place_decay_anti hu hu0 hmono hv huv) _)

/-- With the decaying shape it does not rise. -/
theorem place_part_anti (hmono : MonoBelowZero exp) (hshape : curve.shape = .decaying)
    (hv : v.isFinite = true) (huv : u.place ≤ v.place) :
    (curve.part exp v).place ≤ (curve.part exp u).place := by
  unfold part
  rw [hshape]
  exact h.place_decay_anti hu hu0 hmono hv huv

end Exponent

/-! ## The power -/

section Power

variable {p q : Binary64} (hp : InUnit p)

include h hp

theorem scale_mul_mem : (curve.scale * p).isFinite = true ∧ 0 ≤ (curve.scale * p).place ∧
    (curve.scale * p).place ≤ curve.scale.place := by
  have hplace : (curve.scale * p).place = roundPlace (p.place * curve.scale.place) one := by
    rw [place_mul h.scale.1 hp.1, mul_comm]
  obtain ⟨hlow, hhigh⟩ := hp.roundPlace_mul_mem h.scale.place_nonneg
  rw [← hplace] at hlow hhigh
  refine ⟨isFinite_of_place_mem (mul_ne_nan h.scale.1 hp.1) isFinite_zero h.scale.1 ?_
    hhigh, hlow, hhigh⟩
  rwa [place_ofNat_zero]

/-- The sum of the base and a part of the scale lies between the base and the peak. -/
theorem add_scale_mul_mem : (curve.base + curve.scale * p).isFinite = true ∧
    curve.base.place ≤ (curve.base + curve.scale * p).place ∧
      (curve.base + curve.scale * p).place ≤ (curve.base + curve.scale).place := by
  obtain ⟨hfin, hlow, hhigh⟩ := h.scale_mul_mem hp
  have hbase : curve.base.place ≤ (curve.base + curve.scale * p).place := by
    rw [place_add h.base.1 hfin]
    apply le_roundPlace Nat.one_pos
    omega
  have hpeak : (curve.base + curve.scale * p).place ≤ (curve.base + curve.scale).place := by
    rw [place_add h.base.1 hfin, place_add h.base.1 h.scale.1]
    exact roundPlace_mono Nat.one_pos (by omega)
  exact ⟨isFinite_of_place_mem (add_ne_nan h.base.1 hfin) h.base.1 h.peak_finite hbase
    hpeak, hbase, hpeak⟩

theorem place_add_scale_mul_mono (hq : InUnit q) (hpq : p.place ≤ q.place) :
    (curve.base + curve.scale * p).place ≤ (curve.base + curve.scale * q).place := by
  rw [place_add h.base.1 (h.scale_mul_mem hp).1, place_add h.base.1 (h.scale_mul_mem hq).1,
    place_mul h.scale.1 hp.1, place_mul h.scale.1 hq.1]
  apply roundPlace_mono Nat.one_pos
  have := roundPlace_mono Binary64.one_pos (mul_le_mul_of_nonneg_left hpq h.scale.place_nonneg)
  omega

end Power

variable {u v : Binary64} (hexp : UnitBelowZero exp) (hu : u.isFinite = true) (hu0 : 0 ≤ u.place)

include h hexp hu hu0

/-- The power lies between the base and the peak. -/
theorem powerAt_mem : (curve.powerAt exp u).isFinite = true ∧
    curve.base.place ≤ (curve.powerAt exp u).place ∧
      (curve.powerAt exp u).place ≤ (curve.base + curve.scale).place := by
  rw [powerAt_eq]
  exact h.add_scale_mul_mem (h.inUnit_part hu hu0 hexp)

theorem powerAt_ne_nan : curve.powerAt exp u ≠ .nan :=
  ne_nan_of_isFinite (h.powerAt_mem hexp hu hu0).1

/-- With the saturating shape the power does not fall with the usage. -/
theorem powerAt_mono (hmono : MonoBelowZero exp) (hshape : curve.shape = .saturating)
    (hv : v.isFinite = true) (huv : u.place ≤ v.place) :
    curve.powerAt exp u ≤ curve.powerAt exp v := by
  have hpu := h.inUnit_part hu hu0 hexp
  have hpv := h.inUnit_part hv (hu0.trans huv) hexp
  have hpart := h.place_part_mono hu hu0 hexp hmono hshape hv huv
  refine le_iff.2 ⟨h.powerAt_ne_nan hexp hu hu0, h.powerAt_ne_nan hexp hv (hu0.trans huv), ?_⟩
  rw [powerAt_eq, powerAt_eq]
  exact h.place_add_scale_mul_mono hpu hpv hpart

/-- With the decaying shape it does not rise. -/
theorem powerAt_anti (hmono : MonoBelowZero exp) (hshape : curve.shape = .decaying)
    (hv : v.isFinite = true) (huv : u.place ≤ v.place) :
    curve.powerAt exp v ≤ curve.powerAt exp u := by
  have hpu := h.inUnit_part hu hu0 hexp
  have hpv := h.inUnit_part hv (hu0.trans huv) hexp
  have hpart := h.place_part_anti hu hu0 hmono hshape hv huv
  refine le_iff.2 ⟨h.powerAt_ne_nan hexp hv (hu0.trans huv), h.powerAt_ne_nan hexp hu hu0, ?_⟩
  rw [powerAt_eq, powerAt_eq]
  exact h.place_add_scale_mul_mono hpv hpu hpart

end Usable

/-! ## No usage -/

/-- What a curve draws without usage. -/
def idle (curve : PowerCurve) : Binary64 :=
  match curve.shape with
  | .saturating => curve.base
  | .decaying => curve.base + curve.scale

namespace Usable

variable {exp : Binary64 → Binary64} {curve : PowerCurve} (h : curve.Usable)
  (hzero : OneAtZero exp) (s : Bool)

include h hzero

/-- The exponent is a zero, of whichever sign. -/
theorem exp_exponent_zero : exp (-curve.rate * zero s) = 1 := by
  have hfin : (zero s).isFinite = true := rfl
  have hplace : (-curve.rate * zero s).place = 0 := by
    rw [h.place_exponent hfin, place_zero, mul_zero]
    exact roundPlace_zero _
  obtain ⟨t, ht⟩ := exists_eq_zero ((isZero_iff_place_eq_zero (h.exponent_ne_nan hfin)).2 hplace)
  rw [ht, hzero]

theorem place_part_zero :
    (curve.part exp (zero s)).place = if curve.shape = .saturating then 0 else one := by
  unfold part
  rw [h.exp_exponent_zero hzero]
  cases curve.shape with
  | saturating =>
    dsimp only
    rw [place_sub isFinite_one isFinite_one, sub_self, if_pos rfl]
    exact roundPlace_zero _
  | decaying => exact place_ofNat_one

theorem place_powerAt_zero (hexp : UnitBelowZero exp) :
    (curve.powerAt exp (zero s)).place = curve.idle.place := by
  have hpart := h.inUnit_part (u := zero s) rfl (by rw [place_zero]) hexp
  rw [powerAt_eq, place_add h.base.1 (h.scale_mul_mem hpart).1,
    place_mul h.scale.1 hpart.1, h.place_part_zero hzero]
  unfold idle
  cases hshape : curve.shape with
  | saturating =>
    have hbase := roundPlace_place_mul curve.base Nat.one_pos
    rw [Nat.cast_one, mul_one] at hbase
    rw [if_pos rfl, Nat.cast_zero, mul_zero, roundPlace_zero, add_zero]
    exact hbase
  | decaying =>
    rw [if_neg (by decide), roundPlace_place_mul curve.scale Binary64.one_pos]
    exact (place_add h.base.1 h.scale.1).symm

end Usable

end PowerCurve

end NodeRanking
