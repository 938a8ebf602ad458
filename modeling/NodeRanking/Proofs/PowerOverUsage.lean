import NodeRanking.Proofs.MatrixRange

/-!
# The power over the usage

A usable curve draws a finite power between its base and its peak at every usage; with more usage
the saturating shape draws no less and the decaying one no more, and without any usage they draw
the base and the peak (`PowerCurve.powerAt_over_usage`). All of this holds of the rounded numbers,
also where the exponent overflows and where constants or usages are zeros of either sign.
-/

namespace NodeRanking

open Binary64

attribute [local irreducible] Binary64.one Binary64.limit

namespace PowerCurve

/-- The power between two usages: within the base and the peak at both, ordered as the shape says,
and at zero what the curve draws without usage. -/
theorem powerAt_over_usage {exp : Binary64 → Binary64} (hunit : UnitBelowZero exp)
    (hmono : MonoBelowZero exp) (hzero : OneAtZero exp) {curve : PowerCurve}
    (hcurve : curve.isUsable = true) {u v : Binary64} (hu : u.isFinite = true)
    (hv : v.isFinite = true) (hu0 : 0 ≤ u) (huv : u ≤ v) :
    Within curve.base (curve.base + curve.scale) (curve.powerAt exp u) ∧
    Within curve.base (curve.base + curve.scale) (curve.powerAt exp v) ∧
    (curve.shape = .saturating → curve.powerAt exp u ≤ curve.powerAt exp v) ∧
    (curve.shape = .decaying → curve.powerAt exp v ≤ curve.powerAt exp u) ∧
    (u.isZero = true → curve.shape = .saturating → (curve.powerAt exp u).Same curve.base) ∧
    (u.isZero = true → curve.shape = .decaying →
      (curve.powerAt exp u).Same (curve.base + curve.scale)) := by
  have h := isUsable_iff.1 hcurve
  have hnonneg : Nonnegative u := ⟨hu, hu0⟩
  have hplace := (le_iff.1 huv).2.2
  have hv0 := nonnegative_of_place hv (hnonneg.place_nonneg.trans hplace)
  have hidle : u.isZero = true → (curve.powerAt exp u).place = curve.idle.place := by
    intro hz
    obtain ⟨s, rfl⟩ := exists_eq_zero hz
    exact h.place_powerAt_zero hzero s hunit
  have hpower := h.powerAt_ne_nan hunit hu hnonneg.place_nonneg
  refine ⟨within_powerAt hunit h hnonneg, within_powerAt hunit h hv0,
    fun hshape => h.powerAt_mono hunit hu hnonneg.place_nonneg hmono hshape hv hplace,
    fun hshape => h.powerAt_anti hunit hu hnonneg.place_nonneg hmono hshape hv hplace, ?_, ?_⟩
  · intro hz hshape
    rw [same_iff_place_eq hpower (ne_nan_of_isFinite h.base.1), hidle hz, idle, hshape]
  · intro hz hshape
    rw [same_iff_place_eq hpower (ne_nan_of_isFinite h.peak_finite), hidle hz, idle, hshape]

/-! ## A steep curve -/

/-- Constants near the largest number: but for the least of usages the exponent is far below what an
exponential can tell from zero. -/
def steep (shape : CurveShape) : PowerCurve := ⟨7e307, 1e308, 1e308, shape⟩

theorem monoBelowZero_endsOfExp : MonoBelowZero endsOfExp := by
  intro x y hxy _
  unfold endsOfExp
  split_ifs with hx hy hy
  · exact le_self unsigned_zero.1
  · exact ofNat_zero_le_one
  · rw [hy] at hxy
    exact absurd (eq_infinity_of_le hxy) hx
  · exact le_self unsigned_one.1

theorem oneAtZero_endsOfExp : OneAtZero endsOfExp := fun s => if_neg (by simp [zero])

/-- From a usage of negative zero to a huge one the steep curves go from one end to the other. -/
theorem powerAt_steep :
    (UnitBelowZero endsOfExp ∧ MonoBelowZero endsOfExp ∧ OneAtZero endsOfExp) ∧
    (∀ shape, (steep shape).isUsable = true) ∧
    ((zero true).isFinite = true ∧ (1e308 : Binary64).isFinite = true ∧ 0 ≤ zero true ∧
      zero true ≤ 1e308) ∧
    (∀ shape, Within 7e307 (7e307 + 1e308) ((steep shape).powerAt endsOfExp 1e308)) ∧
    (steep .saturating).powerAt endsOfExp (zero true) ≤
      (steep .saturating).powerAt endsOfExp 1e308 ∧
    (steep .decaying).powerAt endsOfExp 1e308 ≤ (steep .decaying).powerAt endsOfExp (zero true) ∧
    ((steep .saturating).powerAt endsOfExp (zero true)).Same 7e307 ∧
    ((steep .decaying).powerAt endsOfExp (zero true)).Same (7e307 + 1e308) := by
  have husable : ∀ shape, (steep shape).isUsable = true := fun shape =>
    show (steep .saturating).isUsable = true by decide +kernel
  have hfinite : (1e308 : Binary64).isFinite = true := by decide +kernel
  have hnonneg : 0 ≤ zero true := le_iff.2 ⟨unsigned_zero.1, by simp [zero], by simp⟩
  have hle : zero true ≤ 1e308 := by decide +kernel
  have h := fun shape => powerAt_over_usage unitBelowZero_endsOfExp monoBelowZero_endsOfExp
    oneAtZero_endsOfExp (husable shape) (show (zero true).isFinite = true from rfl) hfinite hnonneg
    hle
  have hmono := (h .saturating).2.2
  have hanti := (h .decaying).2.2
  exact ⟨⟨unitBelowZero_endsOfExp, monoBelowZero_endsOfExp, oneAtZero_endsOfExp⟩, husable,
    ⟨rfl, hfinite, hnonneg, hle⟩, fun shape => (h shape).2.1, hmono.1 rfl, hanti.2.1 rfl,
    hmono.2.2.1 rfl rfl, hanti.2.2.2 rfl rfl⟩

end PowerCurve

end NodeRanking
