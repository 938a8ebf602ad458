import NodeRanking.Proofs.PowerCurve
import NodeRanking.Settings.Basic

/-!
# Laws of repaired settings

A criterion can be used when its weight is a finite number that is not below zero
(`CriterionSettings.isUsable_iff`). Repairing leaves only weights and constants that can be used
(`nonnegative_weight_repaired`, `usable_curve_repaired`), and the polarities and the shape of the
curve as they were (`polarity_repaired`, `shape_repaired`). Settings that can be used are not changed
(`repaired_eq_self_iff`), so repairing twice is repairing once (`repaired_repaired`).
-/

namespace NodeRanking

attribute [local irreducible] Binary64.one Binary64.limit

theorem CriterionSettings.isUsable_iff {c : CriterionSettings} :
    c.isUsable = true ↔ Nonnegative c.weight := nonnegative_iff

namespace Settings

variable (s : Settings) (c : Criterion)

theorem get_weights : s.weights.get c = (s.criteria.get c).weight := ByCriterion.get_map _ _ _

theorem get_polarities : s.polarities.get c = (s.criteria.get c).polarity :=
  ByCriterion.get_map _ _ _

theorem isUsable_standard : (standard.criteria.get c).isUsable = true := by
  cases c <;> decide +kernel

/-! ## Criteria -/

theorem get_criteria_repaired : s.repaired.criteria.get c =
    if (s.criteria.get c).isUsable then s.criteria.get c
    else { s.criteria.get c with weight := (standard.criteria.get c).weight } :=
  ByCriterion.get_map _ _ _

/-- A criterion whose weight can be used is kept. -/
theorem criterion_repaired {s : Settings} {c : Criterion}
    (h : Nonnegative (s.criteria.get c).weight) :
    s.repaired.criteria.get c = s.criteria.get c := by
  rw [get_criteria_repaired, if_pos (CriterionSettings.isUsable_iff.2 h)]

theorem weight_repaired_of_unusable {s : Settings} {c : Criterion}
    (h : ¬Nonnegative (s.criteria.get c).weight) :
    (s.repaired.criteria.get c).weight = (standard.criteria.get c).weight := by
  rw [get_criteria_repaired, if_neg fun hc => h (CriterionSettings.isUsable_iff.1 hc)]

theorem polarity_repaired :
    (s.repaired.criteria.get c).polarity = (s.criteria.get c).polarity := by
  rw [get_criteria_repaired]
  split_ifs <;> rfl

theorem polarities_repaired : s.repaired.polarities = s.polarities := by
  ext c
  rw [get_polarities, get_polarities, polarity_repaired]

theorem nonnegative_criterion_repaired : Nonnegative (s.repaired.criteria.get c).weight := by
  by_cases h : Nonnegative (s.criteria.get c).weight
  · rwa [criterion_repaired h]
  · rw [weight_repaired_of_unusable h]
    exact CriterionSettings.isUsable_iff.1 (isUsable_standard c)

theorem nonnegative_weight_repaired : Nonnegative (s.repaired.weights.get c) := by
  rw [get_weights]
  exact s.nonnegative_criterion_repaired c

/-! ## The curve -/

theorem curve_repaired {s : Settings} (h : s.curve.isUsable = true) :
    s.repaired.curve = s.curve := if_pos h

theorem curve_repaired_of_unusable {s : Settings} (h : s.curve.isUsable = false) :
    s.repaired.curve = { PowerCurve.standard with shape := s.curve.shape } := by
  unfold repaired
  rw [h, if_neg Bool.false_ne_true]

theorem isUsable_curve_repaired : s.repaired.curve.isUsable = true := by
  cases h : s.curve.isUsable with
  | true => rwa [curve_repaired h]
  | false =>
    rw [curve_repaired_of_unusable h]
    show PowerCurve.standard.isUsable = true
    decide +kernel

theorem usable_curve_repaired : s.repaired.curve.Usable :=
  PowerCurve.isUsable_iff.1 s.isUsable_curve_repaired

theorem shape_repaired : s.repaired.curve.shape = s.curve.shape := by
  cases h : s.curve.isUsable with
  | true => rw [curve_repaired h]
  | false => rw [curve_repaired_of_unusable h]

/-! ## Settings that need no repair -/

/-- Settings are left as they are exactly if all of them can be used. -/
theorem repaired_eq_self_iff : s.repaired = s ↔
    (∀ c, Nonnegative (s.criteria.get c).weight) ∧ s.curve.isUsable = true := by
  constructor
  · intro h
    rw [← h]
    exact ⟨s.nonnegative_criterion_repaired, s.isUsable_curve_repaired⟩
  · rintro ⟨hcriteria, hcurve⟩
    have hmap : s.repaired.criteria = s.criteria :=
      ByCriterion.ext_get fun c => criterion_repaired (hcriteria c)
    calc s.repaired = ⟨s.repaired.criteria, s.repaired.curve, s.mode⟩ := rfl
      _ = s := by rw [hmap, curve_repaired hcurve]

/-- Repaired settings need no repair. -/
theorem repaired_repaired : s.repaired.repaired = s.repaired :=
  s.repaired.repaired_eq_self_iff.2 ⟨s.nonnegative_criterion_repaired, s.isUsable_curve_repaired⟩

end Settings

end NodeRanking
