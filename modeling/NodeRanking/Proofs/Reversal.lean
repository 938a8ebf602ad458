import NodeRanking.Proofs.Closeness

/-!
# Reversed polarities

1. Under the flipped polarity of a criterion the better value is the worse one (`isBetter_flip`), so
   its ideal and its anti-ideal value change places, bit for bit, whatever the values are; those of
   the other criteria stay (`ofRows?_flipOn`).
2. With all polarities flipped every point has its two distances exchanged. Their sum is the same, so
   a point is `Neutral` under both or under neither, and elsewhere its closeness is the share of the
   other distance in one sum (`ofRows?_reversed`).
-/

namespace NodeRanking

open Binary64

attribute [local irreducible] Binary64.one Binary64.limit

/-! ## Flipped polarities -/

theorem Polarity.isBetter_flip (p : Polarity) (x y : Binary64) :
    p.flip.isBetter x y = p.isBetter y x := by cases p <;> rfl

/-- The polarities with those of the chosen criteria flipped. -/
def flipOn (chosen : Criterion → Bool) (polarities : ByCriterion Polarity) : ByCriterion Polarity :=
  polarities.map fun c p => if chosen c then p.flip else p

namespace Extremes

/-- The extremes with the ideal and the anti-ideal value of the chosen criteria exchanged. -/
def exchangeOn (chosen : Criterion → Bool) (e : Extremes) : Extremes where
  ideal := .ofFn fun c => if chosen c then e.antiIdeal.get c else e.ideal.get c
  antiIdeal := .ofFn fun c => if chosen c then e.ideal.get c else e.antiIdeal.get c

theorem exchangeOn_all (e : Extremes) :
    e.exchangeOn (fun _ => true) = ⟨e.antiIdeal, e.ideal⟩ := rfl

/-- Flipping the polarities of some criteria exchanges their extremes. -/
theorem ofRows?_flipOn (chosen : Criterion → Bool) (polarities : ByCriterion Polarity)
    (rows : List Row) :
    ofRows? (flipOn chosen polarities) rows = (ofRows? polarities rows).map (exchangeOn chosen) := by
  cases rows with
  | nil => rfl
  | cons first rest =>
    unfold ofRows? exchangeOn flipOn
    simp only [Option.map_some, ByCriterion.get_map, ByCriterion.get_ofFn]
    congr 3 <;> funext c <;> by_cases hc : chosen c = true
    -- a flipped criterion compares the other way round, and so walks its column for the other end
    · simp only [hc, if_true, Polarity.isBetter_flip]
    · simp only [hc, if_false, Bool.false_eq_true]
    · simp only [hc, if_true, Polarity.isBetter_flip]
    · simp only [hc, if_false, Bool.false_eq_true]

/-! ## Exchanged distances -/

/-- The sum of the distances of a point to both extremes. -/
def total (e : Extremes) (metrics : Metrics) : Binary64 :=
  distance metrics e.ideal + distance metrics e.antiIdeal

/-- A point whose distances to both extremes count as zero together. It is undecided, and its
closeness is no quotient. -/
def Neutral (e : Extremes) (metrics : Metrics) : Prop := e.total metrics < negligible

instance (e : Extremes) (metrics : Metrics) : Decidable (e.Neutral metrics) :=
  inferInstanceAs (Decidable (e.total metrics < negligible))

theorem closeness_eq_ite (e : Extremes) (metrics : Metrics) : closeness e metrics =
    if e.Neutral metrics then undecided else distance metrics e.antiIdeal / e.total metrics := rfl

section Swap

variable (e : Extremes) (metrics : Metrics)

theorem total_swap : (⟨e.antiIdeal, e.ideal⟩ : Extremes).total metrics = e.total metrics :=
  Binary64.add_comm _ _

theorem neutral_swap :
    (⟨e.antiIdeal, e.ideal⟩ : Extremes).Neutral metrics ↔ e.Neutral metrics := by
  unfold Neutral
  rw [total_swap]

theorem closeness_swap : closeness ⟨e.antiIdeal, e.ideal⟩ metrics =
    if e.Neutral metrics then undecided else distance metrics e.ideal / e.total metrics := by
  rw [closeness_eq_ite, total_swap]
  simp only [neutral_swap]

end Swap

/-- Flipping the polarities of some criteria exchanges their ideal and anti-ideal values and leaves
those of the others. Flipping all of them exchanges the two distances of every row; it is neutral
under both or under neither, and where it is not, its two closenesses are the shares of either
distance in one sum. -/
theorem ofRows?_reversed (polarities : ByCriterion Polarity) (rows : List Row) :
    (∀ chosen : Criterion → Bool,
      ofRows? (flipOn chosen polarities) rows = (ofRows? polarities rows).map (exchangeOn chosen)) ∧
    (rows ≠ [] → ∃ e e', ofRows? polarities rows = some e ∧
      ofRows? (flipOn (fun _ => true) polarities) rows = some e' ∧ ∀ row ∈ rows,
        distance row.metrics e'.ideal = distance row.metrics e.antiIdeal ∧
        distance row.metrics e'.antiIdeal = distance row.metrics e.ideal ∧
        (e'.Neutral row.metrics ↔ e.Neutral row.metrics) ∧
        closeness e row.metrics = (if e.Neutral row.metrics then 0.5
          else distance row.metrics e.antiIdeal / e.total row.metrics) ∧
        closeness e' row.metrics = (if e.Neutral row.metrics then 0.5
          else distance row.metrics e.ideal / e.total row.metrics)) := by
  refine ⟨fun chosen => ofRows?_flipOn chosen polarities rows, fun hne => ?_⟩
  obtain ⟨e, he⟩ := exists_ofRows? polarities hne
  have hswap : ofRows? (flipOn (fun _ => true) polarities) rows =
      some ⟨e.antiIdeal, e.ideal⟩ := by
    rw [ofRows?_flipOn, he, Option.map_some, exchangeOn_all]
  exact ⟨e, _, he, hswap, fun row _ => ⟨rfl, rfl, neutral_swap e row.metrics,
    closeness_eq_ite e row.metrics, closeness_swap e row.metrics⟩⟩

/-- A row between the other two of `partlyLevel`. -/
def between : Row := ⟨"c", ⟨.zero false, 2, 2, 2⟩⟩

/-- Three rows that are level by two criteria, by one of them with zeros of either sign. -/
def partlyLevel : List Row := [⟨"a", ⟨.zero true, 1, 2, 3⟩⟩, ⟨"b", ⟨.zero false, 4, 2, 1⟩⟩, between]

/-- The row between is nearer to the ideal than to the anti-ideal point, and the other way round
under the flipped polarities. -/
theorem reversed_partlyLevel :
    partlyLevel ≠ [] ∧ ∃ e e', ofRows? alternating partlyLevel = some e ∧
      ofRows? (flipOn (fun _ => true) alternating) partlyLevel = some e' ∧
      between ∈ partlyLevel ∧ ¬e.Neutral between.metrics ∧
      closeness e between.metrics =
        distance between.metrics e.antiIdeal / e.total between.metrics ∧
      closeness e' between.metrics = distance between.metrics e.ideal / e.total between.metrics ∧
      closeness e' between.metrics < closeness e between.metrics := by
  have hne : partlyLevel ≠ [] := by simp [partlyLevel]
  have hmem : between ∈ partlyLevel := by simp [partlyLevel]
  obtain ⟨e, e', he, he', hrows⟩ := (ofRows?_reversed alternating partlyLevel).2 hne
  have heq : ofRows? alternating partlyLevel =
      some ⟨⟨.zero true, 1, 2, 1⟩, ⟨.zero true, 4, 2, 3⟩⟩ := by decide +kernel
  obtain rfl := Option.some.inj (he.symm.trans heq)
  have hneutral : ¬Neutral ⟨⟨.zero true, 1, 2, 1⟩, ⟨.zero true, 4, 2, 3⟩⟩ between.metrics := by
    decide +kernel
  obtain ⟨-, -, -, hcloseness, hcloseness'⟩ := hrows between hmem
  rw [if_neg hneutral] at hcloseness hcloseness'
  refine ⟨hne, _, e', he, he', hmem, hneutral, hcloseness, hcloseness', ?_⟩
  rw [hcloseness, hcloseness']
  decide +kernel

end Extremes

end NodeRanking
