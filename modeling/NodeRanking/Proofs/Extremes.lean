import NodeRanking.Extremes
import NodeRanking.Proofs.Binary64.Same
import NodeRanking.Proofs.DecisionMatrix

/-!
# Laws of the ideal and the anti-ideal point

`Polarity.merit` turns both polarities into one order: the place of a value on the line, with the
sign that makes larger better.

1. Among rows without a NaN the ideal has the largest merit of every column and the anti-ideal the
   least (`isExtreme_ofRows?`), so no value is better than the one or worse than the other
   (`IsExtreme.not_isBetter`).
2. Their places depend only on the places in the column (`IsExtreme.place_congr`), and are the same
   for every order of the rows (`IsExtreme.place_perm`); of several zeros, which one is kept still
   depends on it (`ofRows?_bounds`).
3. Of two rows one gives the ideal value and the other one the anti-ideal value of every criterion
   (`IsExtreme.place_add_place`).
-/

namespace NodeRanking

open Binary64

/-- All metrics are finite. -/
def Metrics.Finite (metrics : Metrics) : Prop := ∀ c, (metrics.get c).isFinite = true

/-- No metric is a NaN. -/
def Metrics.Numeric (metrics : Metrics) : Prop := ∀ c, metrics.get c ≠ .nan

theorem Metrics.Finite.numeric {metrics : Metrics} (h : metrics.Finite) : metrics.Numeric :=
  fun c => ne_nan_of_isFinite (h c)

theorem finite_weigh_normalize {weights : ByCriterion Binary64}
    (hweights : ∀ c, Nonnegative (weights.get c)) {rows : List Row} :
    ∀ row ∈ weigh weights (normalize rows), row.metrics.Finite := by
  intro row hrow
  rw [weigh_normalize] at hrow
  obtain ⟨row, hmem, rfl⟩ := List.mem_map.1 hrow
  exact fun c => (isFinite_weighted hweights hmem c).1

/-! ## Merit -/

namespace Polarity

/-- Whether a value is at least as good as another one; never so for a NaN. -/
def AtLeast (p : Polarity) (x y : Binary64) : Prop :=
  match p with
  | benefit => y ≤ x
  | cost => x ≤ y

/-- The place of a value, with the sign that makes a larger one better. -/
def merit (p : Polarity) (x : Binary64) : ℤ :=
  match p with
  | benefit => x.place
  | cost => -x.place

theorem isBetter_iff {p : Polarity} {x y : Binary64} :
    p.isBetter x y = true ↔ x ≠ .nan ∧ y ≠ .nan ∧ p.merit y < p.merit x := by
  cases p with
  | benefit =>
    show y < x ↔ _
    rw [lt_iff, merit, merit]
    tauto
  | cost =>
    show x < y ↔ _
    rw [lt_iff, merit, merit, neg_lt_neg_iff]

theorem merit_congr {p : Polarity} {x y : Binary64} (h : x.place = y.place) :
    p.merit x = p.merit y := by
  unfold merit
  rw [h]

theorem place_eq_of_merit_eq {p : Polarity} {x y : Binary64} (h : p.merit x = p.merit y) :
    x.place = y.place := by
  cases p with
  | benefit => exact h
  | cost => exact neg_injective h

/-- A value between two others in merit is no farther from the first than the last one is. -/
theorem natAbs_sub_le {p : Polarity} {x y z : Binary64} (hxy : p.merit y ≤ p.merit x)
    (hyz : p.merit z ≤ p.merit y) :
    (x.place - y.place).natAbs ≤ (x.place - z.place).natAbs ∧
      (y.place - z.place).natAbs ≤ (x.place - z.place).natAbs := by
  cases p with
  | benefit =>
    simp only [merit] at hxy hyz
    omega
  | cost =>
    simp only [merit] at hxy hyz
    omega

end Polarity

/-! ## The extremes of a matrix -/

namespace Extremes

/-- The ideal and the anti-ideal take every value from its column and bound the column. -/
structure IsExtreme (polarities : ByCriterion Polarity) (rows : List Row) (e : Extremes) :
    Prop where
  ideal_mem : ∀ c, e.ideal.get c ∈ column rows c
  merit_le_ideal : ∀ c, ∀ x ∈ column rows c,
    (polarities.get c).merit x ≤ (polarities.get c).merit (e.ideal.get c)
  antiIdeal_mem : ∀ c, e.antiIdeal.get c ∈ column rows c
  antiIdeal_le_merit : ∀ c, ∀ x ∈ column rows c,
    (polarities.get c).merit (e.antiIdeal.get c) ≤ (polarities.get c).merit x

variable {polarities polarities' : ByCriterion Polarity} {rows rows' : List Row} {e e' : Extremes}

theorem column_finite (hfin : ∀ row ∈ rows, row.metrics.Finite) {c : Criterion} {x : Binary64}
    (hx : x ∈ column rows c) : x.isFinite = true := by
  obtain ⟨row, hrow, rfl⟩ := List.mem_map.1 hx
  exact hfin row hrow c

theorem IsExtreme.finite (h : e.IsExtreme polarities rows)
    (hfin : ∀ row ∈ rows, row.metrics.Finite) : e.ideal.Finite ∧ e.antiIdeal.Finite :=
  ⟨fun c => column_finite hfin (h.ideal_mem c), fun c => column_finite hfin (h.antiIdeal_mem c)⟩

theorem column_numeric (hnum : ∀ row ∈ rows, row.metrics.Numeric) {c : Criterion} {x : Binary64}
    (hx : x ∈ column rows c) : x ≠ .nan := by
  obtain ⟨row, hrow, rfl⟩ := List.mem_map.1 hx
  exact hnum row hrow c

/-- The better of two values is the one with the larger merit. -/
theorem isBetter_iff_of_mem (hnum : ∀ row ∈ rows, row.metrics.Numeric) {c : Criterion}
    {x y : Binary64} (hx : x ∈ column rows c) (hy : y ∈ column rows c) (p : Polarity) :
    p.isBetter x y = true ↔ p.merit y < p.merit x := by
  simp [Polarity.isBetter_iff, column_numeric hnum hx, column_numeric hnum hy]

theorem isExtreme_ofRows? (hnum : ∀ row ∈ rows, row.metrics.Numeric)
    (h : ofRows? polarities rows = some e) : e.IsExtreme polarities rows := by
  cases rows with
  | nil => simp [ofRows?] at h
  | cons first rest =>
    unfold ofRows? at h
    rw [Option.some.injEq] at h
    subst h
    have better {c : Criterion} {x y : Binary64} (hx : x ∈ column (first :: rest) c)
        (hy : y ∈ column (first :: rest) c) := isBetter_iff_of_mem hnum hx hy (polarities.get c)
    constructor
    · intro c
      rw [ByCriterion.get_ofFn]
      exact bestFrom_mem _ _ _
    · intro c
      rw [ByCriterion.get_ofFn]
      have hle := key_bestFrom_le (fun x => -(polarities.get c).merit x)
        (x := first.metrics.get c) fun a ha b hb => (better ha hb).trans neg_lt_neg_iff.symm
      intro x hx
      exact neg_le_neg_iff.1 (hle x hx)
    · intro c
      rw [ByCriterion.get_ofFn]
      exact bestFrom_mem _ _ _
    · intro c
      rw [ByCriterion.get_ofFn]
      exact key_bestFrom_le (polarities.get c).merit fun a ha b hb => better hb ha

/-- The extremes of a column are at least as far apart as those of one whose places are among its
own. -/
theorem IsExtreme.merit_le_merit (h : e.IsExtreme polarities rows)
    (h' : e'.IsExtreme polarities' rows') {c : Criterion}
    (hpolarity : polarities.get c = polarities'.get c)
    (hcolumn : ∀ i ∈ (column rows c).map place, i ∈ (column rows' c).map place) :
    (polarities.get c).merit (e.ideal.get c) ≤ (polarities.get c).merit (e'.ideal.get c) ∧
      (polarities.get c).merit (e'.antiIdeal.get c) ≤
        (polarities.get c).merit (e.antiIdeal.get c) := by
  have hmem : ∀ x ∈ column rows c, ∃ y ∈ column rows' c, y.place = x.place := fun x hx =>
    List.mem_map.1 (hcolumn x.place (List.mem_map.2 ⟨x, hx, rfl⟩))
  obtain ⟨y, hy, hideal⟩ := hmem _ (h.ideal_mem c)
  obtain ⟨z, hz, hanti⟩ := hmem _ (h.antiIdeal_mem c)
  rw [← Polarity.merit_congr hideal, ← Polarity.merit_congr hanti, hpolarity]
  exact ⟨h'.merit_le_ideal c y hy, h'.antiIdeal_le_merit c z hz⟩

/-- The extremes of two columns at the same places lie at the same places. -/
theorem IsExtreme.place_congr (h : e.IsExtreme polarities rows)
    (h' : e'.IsExtreme polarities' rows') {c : Criterion}
    (hpolarity : polarities.get c = polarities'.get c)
    (hcolumn : ∀ i, i ∈ (column rows c).map place ↔ i ∈ (column rows' c).map place) :
    (e.ideal.get c).place = (e'.ideal.get c).place ∧
      (e.antiIdeal.get c).place = (e'.antiIdeal.get c).place := by
  obtain ⟨hideal, hanti⟩ := h.merit_le_merit h' hpolarity fun i => (hcolumn i).1
  obtain ⟨hideal', hanti'⟩ := h'.merit_le_merit h hpolarity.symm fun i => (hcolumn i).2
  rw [← hpolarity] at hideal' hanti'
  exact ⟨(polarities.get c).place_eq_of_merit_eq (hideal.antisymm hideal'),
    (polarities.get c).place_eq_of_merit_eq (hanti'.antisymm hanti)⟩

/-- Both extremes lie at the same places for every order of the rows. -/
theorem IsExtreme.place_perm (h : e.IsExtreme polarities rows) (h' : e'.IsExtreme polarities rows')
    (hperm : rows.Perm rows') (c : Criterion) :
    (e.ideal.get c).place = (e'.ideal.get c).place ∧
      (e.antiIdeal.get c).place = (e'.antiIdeal.get c).place :=
  h.place_congr h' rfl fun _ => ((hperm.map _).map _).mem_iff

/-- Of two rows one lies at the ideal and the other one at the anti-ideal, criterion by criterion;
where they are level both lie at both. -/
theorem IsExtreme.place_add_place {a b : Row} (h : e.IsExtreme polarities [a, b]) (c : Criterion) :
    (e.ideal.get c).place + (e.antiIdeal.get c).place =
      (a.metrics.get c).place + (b.metrics.get c).place := by
  have hideal := h.ideal_mem c
  have hanti := h.antiIdeal_mem c
  have hbest := h.merit_le_ideal c
  have hworst := h.antiIdeal_le_merit c
  simp only [column, List.map_cons, List.map_nil, List.mem_cons, List.not_mem_nil, or_false,
    forall_eq_or_imp, forall_eq] at hideal hanti hbest hworst
  -- where both extremes come from one row, the other one is as good
  rcases hideal with hi | hi <;> rcases hanti with ha | ha <;> rw [hi] at hbest ⊢ <;>
    rw [ha] at hworst ⊢
  · rw [(polarities.get c).place_eq_of_merit_eq (hworst.2.antisymm hbest.2)]
  · exact add_comm _ _
  · rw [(polarities.get c).place_eq_of_merit_eq (hworst.1.antisymm hbest.1)]

/-! ## No value beyond the extremes -/

/-- No value of a column is better than the ideal one or worse than the anti-ideal one. -/
theorem IsExtreme.not_isBetter (h : e.IsExtreme polarities rows) {c : Criterion} {x : Binary64}
    (hx : x ∈ column rows c) : (polarities.get c).isBetter x (e.ideal.get c) = false ∧
      (polarities.get c).isBetter (e.antiIdeal.get c) x = false := by
  rw [← Bool.not_eq_true, ← Bool.not_eq_true, Polarity.isBetter_iff, Polarity.isBetter_iff]
  constructor
  · rintro ⟨-, -, hlt⟩
    exact hlt.not_ge (h.merit_le_ideal c x hx)
  · rintro ⟨-, -, hlt⟩
    exact hlt.not_ge (h.antiIdeal_le_merit c x hx)

/-- The extremes are the same for every order of the rows, but for the signs of zeros. -/
theorem IsExtreme.same_perm (h : e.IsExtreme polarities rows) (h' : e'.IsExtreme polarities rows')
    (hnum : ∀ row ∈ rows, row.metrics.Numeric) (hperm : rows.Perm rows') (c : Criterion) :
    (e.ideal.get c).Same (e'.ideal.get c) ∧ (e.antiIdeal.get c).Same (e'.antiIdeal.get c) := by
  have hnum' : ∀ row ∈ rows', row.metrics.Numeric :=
    fun row hrow => hnum row (hperm.mem_iff.2 hrow)
  obtain ⟨hideal, hanti⟩ := h.place_perm h' hperm c
  constructor
  · exact (same_iff_place_eq (column_numeric hnum (h.ideal_mem c))
      (column_numeric hnum' (h'.ideal_mem c))).2 hideal
  · exact (same_iff_place_eq (column_numeric hnum (h.antiIdeal_mem c))
      (column_numeric hnum' (h'.antiIdeal_mem c))).2 hanti

theorem exists_ofRows? (polarities : ByCriterion Polarity) (hne : rows ≠ []) :
    ∃ e, ofRows? polarities rows = some e :=
  Option.ne_none_iff_exists'.1 (mt (ofRows?_eq_none_iff polarities rows).1 hne)

/-- The extremes of a matrix without a NaN are values of its columns, no value is better than the
ideal one or worse than the anti-ideal one, and the order of the rows matters to no more than the
signs of zeros. An empty matrix has no extremes. -/
theorem ofRows?_bounds (polarities : ByCriterion Polarity) :
    ofRows? polarities [] = none ∧
    ∀ rows : List Row, rows ≠ [] → (∀ row ∈ rows, row.metrics.Numeric) →
      ∃ e, ofRows? polarities rows = some e ∧
        (∀ c, e.ideal.get c ∈ column rows c ∧ e.antiIdeal.get c ∈ column rows c ∧
          ∀ x ∈ column rows c, (polarities.get c).isBetter x (e.ideal.get c) = false ∧
            (polarities.get c).isBetter (e.antiIdeal.get c) x = false) ∧
        ∀ rows', rows.Perm rows' → ∃ e', ofRows? polarities rows' = some e' ∧
          ∀ c, (e.ideal.get c).Same (e'.ideal.get c) ∧
            (e.antiIdeal.get c).Same (e'.antiIdeal.get c) := by
  refine ⟨rfl, fun rows hne hnum => ?_⟩
  obtain ⟨e, he⟩ := exists_ofRows? polarities hne
  have hextreme := isExtreme_ofRows? hnum he
  refine ⟨e, he, fun c => ⟨hextreme.ideal_mem c, hextreme.antiIdeal_mem c,
    fun x hx => hextreme.not_isBetter hx⟩, fun rows' hperm => ?_⟩
  have hne' : rows' ≠ [] := by
    rintro rfl
    exact hne (List.perm_nil.1 hperm)
  obtain ⟨e', he'⟩ := exists_ofRows? polarities hne'
  have hextreme' := isExtreme_ofRows? (fun row hrow => hnum row (hperm.mem_iff.2 hrow)) he'
  exact ⟨e', he', hextreme.same_perm hextreme' hnum hperm⟩

/-- Every other criterion a cost. -/
def alternating : ByCriterion Polarity := ⟨.benefit, .cost, .benefit, .cost⟩

/-- Three rows with zeros and infinities of either sign, level by one criterion. -/
def unruly : List Row :=
  [⟨"a", ⟨.zero false, .infinity true, 3, -1⟩⟩, ⟨"b", ⟨.zero true, 2, 3, .infinity false⟩⟩,
    ⟨"c", ⟨5, 2, 3, -7⟩⟩]

/-- Of two zeros the first one is kept, and nothing else changes when the rows are reversed. -/
theorem bounds_unruly :
    unruly ≠ [] ∧ (∀ row ∈ unruly, row.metrics.Numeric) ∧ unruly.Perm unruly.reverse ∧
    ∃ e e', ofRows? alternating unruly = some e ∧ ofRows? alternating unruly.reverse = some e' ∧
      e.antiIdeal.pods = .zero false ∧ e'.antiIdeal.pods = .zero true ∧
      ∀ c, (e.ideal.get c).Same (e'.ideal.get c) ∧ (e.antiIdeal.get c).Same (e'.antiIdeal.get c) ∧
        ∀ x ∈ column unruly c, (alternating.get c).isBetter x (e.ideal.get c) = false ∧
          (alternating.get c).isBetter (e.antiIdeal.get c) x = false := by
  have hne : unruly ≠ [] := by simp [unruly]
  have hnum : ∀ row ∈ unruly, row.metrics.Numeric := by
    intro row hrow c
    simp only [unruly, List.mem_cons, List.not_mem_nil, or_false] at hrow
    rcases hrow with rfl | rfl | rfl <;> cases c <;> decide +kernel
  have hperm : unruly.Perm unruly.reverse := (List.reverse_perm unruly).symm
  obtain ⟨e, he, hbounds, horder⟩ := (ofRows?_bounds alternating).2 unruly hne hnum
  obtain ⟨e', he', hsame⟩ := horder unruly.reverse hperm
  have hpods : (ofRows? alternating unruly).map (·.antiIdeal.pods) = some (.zero false) := by
    decide +kernel
  have hpods' : (ofRows? alternating unruly.reverse).map (·.antiIdeal.pods) =
      some (.zero true) := by decide +kernel
  rw [he, Option.map_some, Option.some.injEq] at hpods
  rw [he', Option.map_some, Option.some.injEq] at hpods'
  exact ⟨hne, hnum, hperm, e, e', he, he', hpods, hpods',
    fun c => ⟨(hsame c).1, (hsame c).2, (hbounds c).2.2⟩⟩

end Extremes

end NodeRanking
