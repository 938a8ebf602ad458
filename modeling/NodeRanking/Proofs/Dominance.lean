import NodeRanking.Proofs.Ranking

/-!
# Dominance

A candidate dominates another one when it is at least as good by every criterion.

1. Dominance survives normalizing and weighting (`Dominates.merit_weighted`), so the dominating
   candidate is no farther from the ideal and no nearer to the anti-ideal (`Dominates.distances`).
2. Its closeness is at least that of the other one where the rounded sum of its distances is no
   larger too; in any case rounding costs it at most one `ulp` of closeness and one point of score
   (`Dominates.rating_le`). Both candidates have to be on one side of the bound below which a sum
   counts as zero.
3. Without these conditions the order can be reversed (`exists_overtaken`): weights so small that
   only one of the sums counts as zero do it, and so does the rounding of two sums that differ by
   one step.
4. The distances themselves need no condition: they are numbers in the order of dominance, infinite
   ones included (`rank_orders_distances`).
-/

namespace NodeRanking

open Binary64

attribute [local irreducible] Binary64.one Binary64.limit Binary64.ulp

/-- At least as good by every criterion. -/
def Dominates (polarities : ByCriterion Polarity) (a b : Metrics) : Prop :=
  ∀ c, (polarities.get c).AtLeast (a.get c) (b.get c)

/-! ## Rows -/

section Rows

variable {polarities : ByCriterion Polarity} {weights : ByCriterion Binary64}
  (hweights : ∀ c, Nonnegative (weights.get c)) {rows : List Row} {a b : Row}
  (ha : a ∈ rows) (hb : b ∈ rows)

include hweights ha hb

/-- Normalizing and weighting keep the order in merit. -/
theorem Dominates.merit_weighted (h : Dominates polarities a.metrics b.metrics) (c : Criterion) :
    (polarities.get c).merit ((weighted weights rows b.metrics).get c) ≤
      (polarities.get c).merit ((weighted weights rows a.metrics).get c) := by
  have hc := h c
  cases hp : polarities.get c with
  | benefit =>
    rw [hp] at hc
    exact place_weighted_mono hweights hb c ha (le_iff.1 hc).2.2
  | cost =>
    rw [hp] at hc
    exact neg_le_neg (place_weighted_mono hweights ha c hb (le_iff.1 hc).2.2)

end Rows

/-! ## Standings -/

section Standings

variable {exp : Binary64 → Binary64} {settings : Settings} {workload : Workload}
  {nodes : List Node} {r : Ranking} {a b : Standing}

/-- Both distances are finite. -/
def Standing.InReach (x : Standing) : Prop :=
  x.toIdeal.isFinite = true ∧ x.toAntiIdeal.isFinite = true

/-- The sum of both distances. -/
def Standing.total (x : Standing) : Binary64 := x.toIdeal + x.toAntiIdeal

/-- The dominating candidate is no farther from the ideal and no nearer to the anti-ideal. -/
theorem Dominates.distances (hr : rank exp settings workload nodes = some r)
    (ha : a ∈ r.standings) (hb : b ∈ r.standings)
    (h : Dominates settings.polarities a.metrics b.metrics) :
    a.toIdeal.height ≤ b.toIdeal.height ∧ b.toAntiIdeal.height ≤ a.toAntiIdeal.height := by
  obtain ⟨e, he, rfl⟩ := exists_isExtreme hr
  obtain ⟨ra, hra, rfl⟩ := mem_standings_rankingOf ha
  obtain ⟨rb, hrb, rfl⟩ := mem_standings_rankingOf hb
  have hfa := finite_weightedMetrics exp settings workload nodes hra
  have hfb := finite_weightedMetrics exp settings workload nodes hrb
  have hext := he.finite (finite_weightedRows exp settings workload nodes)
  have hmem : ∀ row ∈ measuredRows exp settings workload nodes, ∀ c,
      (weightedMetrics exp settings workload nodes row.metrics).get c ∈
        column (weightedRows exp settings workload nodes) c := fun row hrow c =>
    (mem_column_weightedRows exp settings workload nodes).2 ⟨row, hrow, rfl⟩
  have hmerit : ∀ c, (settings.polarities.get c).merit
        ((weightedMetrics exp settings workload nodes rb.metrics).get c) ≤
      (settings.polarities.get c).merit
        ((weightedMetrics exp settings workload nodes ra.metrics).get c) :=
    h.merit_weighted settings.nonnegative_weight_repaired hra hrb
  constructor
  · apply height_distance_mono hfa hext.1 hfb hext.1
    intro c
    have hbest := he.merit_le_ideal c _ (hmem ra hra c)
    have := (Polarity.natAbs_sub_le hbest (hmerit c)).1
    omega
  · apply height_distance_mono hfb hext.2 hfa hext.2
    intro c
    have hworst := he.antiIdeal_le_merit c _ (hmem rb hrb c)
    exact (Polarity.natAbs_sub_le (hmerit c) hworst).2

theorem Standing.InReach.reach (hr : rank exp settings workload nodes = some r)
    (ha : a ∈ r.standings) (h : a.InReach) : Reach a.toIdeal a.toAntiIdeal := by
  obtain ⟨e, he, rfl⟩ := exists_isExtreme hr
  obtain ⟨row, hrow, rfl⟩ := mem_standings_rankingOf ha
  have hfin := finite_weightedMetrics exp settings workload nodes hrow
  have hext := he.finite (finite_weightedRows exp settings workload nodes)
  obtain ⟨hp, hm⟩ := h
  exact ⟨unsigned_distance hfin hext.1, unsigned_distance hfin hext.2, hm,
    isFinite_add_sqrt (unsigned_squares hfin hext.1) (unsigned_squares hfin hext.2) hp hm⟩

/-- A candidate whose sum of distances is on the same side of the bound as that of a candidate it
dominates is rated at least as high, but for the rounding of the sums. -/
theorem Dominates.rating_le (hr : rank exp settings workload nodes = some r) (ha : a ∈ r.standings)
    (hb : b ∈ r.standings) (hra : a.InReach) (hrb : b.InReach)
    (h : Dominates settings.repaired.polarities a.metrics b.metrics)
    (hside : a.total < negligible ↔ b.total < negligible) :
    InUnit a.rating.closeness ∧ InUnit b.rating.closeness ∧
      b.rating.closeness.place ≤ a.rating.closeness.place + ulp ∧
      b.rating.score ≤ a.rating.score + 1 ∧
      (a.total ≤ b.total →
        b.rating.closeness ≤ a.rating.closeness ∧ b.rating.score ≤ a.rating.score) := by
  rw [settings.polarities_repaired] at h
  obtain ⟨hp, hm⟩ := h.distances hr ha hb
  have hreacha := hra.reach hr ha
  have hreachb := hrb.reach hr hb
  obtain ⟨hpa, hma, hca, hsa⟩ := standing_spec hr ha
  obtain ⟨hpb, hmb, hcb, hsb⟩ := standing_spec hr hb
  obtain ⟨hua, hfa, hlea⟩ := share_mem hpa hma hra.2
  obtain ⟨hub, hfb, hleb⟩ := share_mem hpb hmb hrb.2
  rw [hsa, hsb, hca, hcb, hua.place_eq, hub.place_eq]
  refine ⟨inUnit_of_height_le hua hfa hlea, inUnit_of_height_le hub hfb hleb, ?_⟩
  unfold Standing.total at hside ⊢
  -- both sums count as zero, and both closenesses are undecided, or neither does
  by_cases hlt : a.toIdeal + a.toAntiIdeal < negligible
  · rw [share_of_lt hlt, share_of_lt (hside.1 hlt)]
    refine ⟨by omega, by omega, fun _ => ⟨?_, le_rfl⟩⟩
    exact (unsigned_undecided.le_iff unsigned_undecided).2 le_rfl
  · have hlt' := mt hside.2 hlt
    have hulp := hreacha.height_share_le_add_ulp hreachb hp hm hlt hlt'
    refine ⟨by exact_mod_cast hulp, scoreOf_le_add_one hua hlea hub hleb hulp, fun htotal => ?_⟩
    rw [(hpa.add hma).le_iff (hpb.add hmb)] at htotal
    have hle := hreacha.height_share_le hreachb hm htotal hlt hlt'
    exact ⟨(hub.le_iff hua).2 hle, scoreOf_mono hub hleb hua hlea hle⟩

end Standings

/-! ## Reversed orders -/

instance (p : Polarity) (x y : Binary64) : Decidable (p.AtLeast x y) :=
  match p with
  | .benefit => inferInstanceAs (Decidable (y ≤ x))
  | .cost => inferInstanceAs (Decidable (x ≤ y))

instance (polarities : ByCriterion Polarity) (a b : Metrics) :
    Decidable (Dominates polarities a b) :=
  decidable_of_iff (∀ c ∈ Criterion.all, (polarities.get c).AtLeast (a.get c) (b.get c))
    ⟨fun h c => h c (by cases c <;> decide), fun h c _ => h c⟩

instance (x : Standing) : Decidable x.InReach :=
  inferInstanceAs (Decidable (x.toIdeal.isFinite = true ∧ x.toAntiIdeal.isFinite = true))

/-- The second candidate is rated higher than the first, which dominates it. -/
def Overtaken (polarities : ByCriterion Polarity) (a b : Standing) : Prop :=
  a.InReach ∧ b.InReach ∧ Dominates polarities a.metrics b.metrics ∧
    a.rating.closeness < b.rating.closeness ∧ a.rating.score < b.rating.score

instance (polarities : ByCriterion Polarity) (a b : Standing) :
    Decidable (Overtaken polarities a b) := by
  unfold Overtaken
  infer_instance

/-- Three nodes: one that carries nothing, one with a pod, and one with many pods and no memory. -/
def bareToFull : List Node :=
  [⟨"bare", ⟨1, 1⟩, ⟨0, 0⟩, 0⟩, ⟨"pod", ⟨1, 1⟩, ⟨0, 0⟩, 1⟩, ⟨"full", ⟨1, 1⟩, ⟨0, 1⟩, 100⟩]

/-- Four nodes, of which two use almost the same share of their memory. -/
def twinsBetween : List Node :=
  [⟨"low", ⟨1, 18014398509481984⟩, ⟨0, 6546956792316601⟩, 0⟩,
    ⟨"high", ⟨1, 18014398509481984⟩, ⟨0, 28621442317632536⟩, 0⟩,
    ⟨"less", ⟨1, 18014398509481984⟩, ⟨0, 9968502048740572⟩, 0⟩,
    ⟨"more", ⟨1, 18014398509481984⟩, ⟨0, 9968502048740574⟩, 0⟩]

/-- Dominance alone does not order the ratings. Under faint weights the sum of one node counts as
zero and that of the other does not; under common ones the rounding of the sums moves the closeness
over the bound of a point. -/
theorem exists_overtaken :
    (∃ r, rank (fun _ => 1) (costs 7.06e-10 7.06e-10) emptyWorkload bareToFull = some r ∧
      ∃ a ∈ r.standings, ∃ b ∈ r.standings,
        Overtaken (costs 7.06e-10 7.06e-10).repaired.polarities a b ∧
          ¬(a.total < negligible ↔ b.total < negligible)) ∧
    ∃ r, rank (fun _ => 1) (costs 0 0.7645554949485039) emptyWorkload twinsBetween = some r ∧
      ∃ a ∈ r.standings, ∃ b ∈ r.standings,
        Overtaken (costs 0 0.7645554949485039).repaired.polarities a b ∧
          ¬a.total < negligible ∧ ¬b.total < negligible := by
  constructor
  · exact exists_of_any (by decide +kernel)
  · exact exists_of_any (by decide +kernel)

/-- Under common weights the bare node is rated no lower than the one with a pod. -/
theorem bare_rating_le :
    ∃ r, rank (fun _ => 1) (costs 1 1) emptyWorkload bareToFull = some r ∧
      ∃ a ∈ r.standings, ∃ b ∈ r.standings, a.rating.name = "bare" ∧ b.rating.name = "pod" ∧
        b.rating.closeness ≤ a.rating.closeness ∧ b.rating.score ≤ a.rating.score := by
  obtain ⟨r, hr, a, ha, b, hb, hbare, hpod, hra, hrb, hdom, hside, htotal⟩ :
      ∃ r, rank (fun _ => 1) (costs 1 1) emptyWorkload bareToFull = some r ∧
        ∃ a ∈ r.standings, ∃ b ∈ r.standings, a.rating.name = "bare" ∧ b.rating.name = "pod" ∧
          a.InReach ∧ b.InReach ∧
            Dominates (costs 1 1).repaired.polarities a.metrics b.metrics ∧
              (a.total < negligible ↔ b.total < negligible) ∧ a.total ≤ b.total :=
    exists_of_any (by decide +kernel)
  obtain ⟨-, -, -, -, hexact⟩ := Dominates.rating_le hr ha hb hra hrb hdom hside
  exact ⟨r, hr, a, ha, b, hb, hbare, hpod, hexact htotal⟩

/-! ## The order of the distances -/

/-- In every ranking the distances are in the order of dominance, without any tolerance: a
dominating candidate is no farther from the ideal and no nearer to the anti-ideal. -/
theorem rank_orders_distances (exp : Binary64 → Binary64) (settings : Settings)
    (workload : Workload) {nodes : List Node} (hne : nodes ≠ []) :
    ∃ r, rank exp settings workload nodes = some r ∧ r.standings.length = nodes.length ∧
      ∀ a ∈ r.standings, ∀ b ∈ r.standings,
        Dominates settings.repaired.polarities a.metrics b.metrics →
          a.toIdeal ≤ b.toIdeal ∧ b.toAntiIdeal ≤ a.toAntiIdeal := by
  obtain ⟨r, hr⟩ := exists_rank exp settings workload hne
  obtain ⟨f, hf, -⟩ := exists_standings_eq_map hr
  refine ⟨r, hr, by rw [hf, List.length_map], fun a ha b hb h => ?_⟩
  rw [settings.polarities_repaired] at h
  obtain ⟨hideal, hanti⟩ := h.distances hr ha hb
  obtain ⟨hpa, hma, -⟩ := standing_spec hr ha
  obtain ⟨hpb, hmb, -⟩ := standing_spec hr hb
  exact ⟨(hpa.le_iff hpb).2 hideal, (hmb.le_iff hma).2 hanti⟩

/-- Under weights whose squares are not finite the node with a pod and the full one are both at an
infinite distance from the ideal, and the order holds. -/
theorem distances_bareToFull :
    bareToFull ≠ [] ∧ ∃ r, rank (fun _ => 1) (costs 1e200 1e200) emptyWorkload bareToFull = some r ∧
      ∃ a ∈ r.standings, ∃ b ∈ r.standings,
        Dominates (costs 1e200 1e200).repaired.polarities a.metrics b.metrics ∧
          a.toIdeal = .infinity false ∧ b.toIdeal = .infinity false ∧ b.toAntiIdeal = 0 ∧
            a.toIdeal ≤ b.toIdeal ∧ b.toAntiIdeal ≤ a.toAntiIdeal := by
  have hne : bareToFull ≠ [] := by simp [bareToFull]
  obtain ⟨r, hr, -, horder⟩ :=
    rank_orders_distances (fun _ => 1) (costs 1e200 1e200) emptyWorkload hne
  obtain ⟨r', hr', a, ha, b, hb, hdom, hideal, hideal', hanti⟩ :
      ∃ r, rank (fun _ => 1) (costs 1e200 1e200) emptyWorkload bareToFull = some r ∧
        ∃ a ∈ r.standings, ∃ b ∈ r.standings,
          Dominates (costs 1e200 1e200).repaired.polarities a.metrics b.metrics ∧
            a.toIdeal = .infinity false ∧ b.toIdeal = .infinity false ∧ b.toAntiIdeal = 0 :=
    exists_of_any (by decide +kernel)
  obtain rfl : r = r' := Option.some.inj (hr.symm.trans hr')
  exact ⟨hne, r, hr, a, ha, b, hb, hdom, hideal, hideal', hanti, horder a ha b hb hdom⟩

end NodeRanking
