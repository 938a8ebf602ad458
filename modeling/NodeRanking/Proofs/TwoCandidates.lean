import NodeRanking.Proofs.Dominance

/-!
# Two candidates

Of two candidates one is the ideal and the other one the anti-ideal by each criterion, so either is
as far from the ideal as the other one is from the anti-ideal (`IsExtreme.distance_mirror`). Their
closenesses are the two shares of one sum, and where it is finite their scores lie on either side of
50 and add up to 100, give or take the one point that rounding may cost (`rank_two`).
-/

namespace NodeRanking

open Binary64

attribute [local irreducible] Binary64.one Binary64.limit Binary64.ulp

/-- The distances of two rows mirror each other. -/
theorem Extremes.IsExtreme.distance_mirror {polarities : ByCriterion Polarity} {e : Extremes}
    {a b : Row} (h : e.IsExtreme polarities [a, b]) (hfin : ∀ row ∈ [a, b], row.metrics.Finite) :
    distance a.metrics e.ideal = distance b.metrics e.antiIdeal ∧
      distance a.metrics e.antiIdeal = distance b.metrics e.ideal := by
  have ha := hfin a (by simp)
  have hb := hfin b (by simp)
  obtain ⟨hideal, hanti⟩ := h.finite hfin
  constructor
  · apply distance_eq_of_gap ha hideal hb hanti
    intro c
    have := h.place_add_place c
    omega
  · apply distance_eq_of_gap ha hanti hb hideal
    intro c
    have := h.place_add_place c
    omega

/-! ## Scores of mirrored points -/

section Scores

variable {p m : Binary64} (h : Reach p m) (hfin : p.isFinite = true)

include h hfin

/-- The scores of mirrored points lie on either side of the half. -/
theorem Reach.scores_around_half :
    50 ≤ scoreOf (share p m) ∧ scoreOf (share m p) ≤ 50 ∨
      50 ≤ scoreOf (share m p) ∧ scoreOf (share p m) ≤ 50 := by
  have h' := h.mirror hfin
  obtain ⟨hu, -, hle⟩ := share_mem h.toIdeal h.toAntiIdeal h.finite
  obtain ⟨hu', -, hle'⟩ := share_mem h'.toIdeal h'.toAntiIdeal h'.finite
  rcases le_total p.height m.height with hpm | hmp
  · exact .inl ⟨fifty_le_scoreOf hu hle (h.undecided_le_height_share hpm),
      scoreOf_le_fifty hu' hle' (h'.height_share_le_undecided hpm)⟩
  · exact .inr ⟨fifty_le_scoreOf hu' hle' (h'.undecided_le_height_share hmp),
      scoreOf_le_fifty hu hle (h.height_share_le_undecided hmp)⟩

/-- The scores of mirrored points add up to the top score, give or take one point. -/
theorem Reach.scores_add_up :
    99 ≤ scoreOf (share p m) + scoreOf (share m p) ∧
      scoreOf (share p m) + scoreOf (share m p) ≤ 101 := by
  have h' := h.mirror hfin
  obtain ⟨hu, -, hle⟩ := share_mem h.toIdeal h.toAntiIdeal h.finite
  obtain ⟨hu', -, hle'⟩ := share_mem h'.toIdeal h'.toAntiIdeal h'.finite
  obtain ⟨hadd, hadd'⟩ := h.height_share_add hfin
  exact scoreOf_add_mem hu hle hu' hle' hadd hadd'

end Scores

/-! ## Rankings of two -/

section Rankings

variable {exp : Binary64 → Binary64} {settings : Settings} {workload : Workload} {x y : Node}
  {r : Ranking} {a b : Standing}

/-- The standings of two candidates have their distances exchanged. -/
theorem exists_standings_pair (hr : rank exp settings workload [x, y] = some r) :
    ∃ a b, r.standings = [a, b] ∧ a.rating.name = x.name ∧ b.rating.name = y.name ∧
      a.toIdeal = b.toAntiIdeal ∧ a.toAntiIdeal = b.toIdeal := by
  obtain ⟨e, he, rfl⟩ := exists_isExtreme hr
  have hfin := finite_weightedRows exp settings workload [x, y]
  rw [weightedRows_eq_map] at he hfin
  obtain ⟨hideal, hanti⟩ := he.distance_mirror hfin
  rw [standings_rankingOf]
  exact ⟨_, _, rfl, rfl, rfl, hideal, hanti⟩

/-- What two finite candidates score whose distances are exchanged. -/
theorem Standing.InReach.scores (hr : rank exp settings workload [x, y] = some r)
    (ha : a ∈ r.standings) (hb : b ∈ r.standings) (h : a.InReach)
    (hideal : a.toIdeal = b.toAntiIdeal) (hanti : a.toAntiIdeal = b.toIdeal) :
    (50 ≤ a.rating.score ∧ b.rating.score ≤ 50 ∨ 50 ≤ b.rating.score ∧ a.rating.score ≤ 50) ∧
      99 ≤ a.rating.score + b.rating.score ∧ a.rating.score + b.rating.score ≤ 101 := by
  have hreach := h.reach hr ha
  obtain ⟨-, -, hca, hsa⟩ := standing_spec hr ha
  obtain ⟨-, -, hcb, hsb⟩ := standing_spec hr hb
  rw [hsa, hsb, hca, hcb, ← hideal, ← hanti]
  exact ⟨hreach.scores_around_half h.1, hreach.scores_add_up h.1⟩

end Rankings

/-- Two candidates mirror each other: the distances of either to the ideal and to the anti-ideal are
those of the other one to the anti-ideal and to the ideal, infinite ones too, and their closenesses
are shares of one sum. Where the distances are finite, one of them scores at least 50 and the other
one at most 50, and both scores add up to 99, 100 or 101. -/
theorem rank_two (exp : Binary64 → Binary64) (settings : Settings) (workload : Workload)
    (x y : Node) :
    ∃ r a b, rank exp settings workload [x, y] = some r ∧ r.standings = [a, b] ∧
      r.ratings = [a.rating, b.rating] ∧ a.rating.name = x.name ∧ b.rating.name = y.name ∧
      a.toIdeal = b.toAntiIdeal ∧ a.toAntiIdeal = b.toIdeal ∧ a.total = b.total ∧
      (∀ z ∈ [a, b], z.rating.closeness =
        if a.total < negligible then undecided else z.toAntiIdeal / a.total) ∧
      (a.InReach →
        (50 ≤ a.rating.score ∧ b.rating.score ≤ 50 ∨ 50 ≤ b.rating.score ∧ a.rating.score ≤ 50) ∧
        99 ≤ a.rating.score + b.rating.score ∧ a.rating.score + b.rating.score ≤ 101) := by
  obtain ⟨r, hr⟩ := exists_rank exp settings workload (List.cons_ne_nil x [y])
  obtain ⟨a, b, hab, hx, hy, hideal, hanti⟩ := exists_standings_pair hr
  have hratings : r.ratings = [a.rating, b.rating] := by rw [← map_rating_standings hr, hab]; rfl
  have htotal : a.total = b.total := by
    unfold Standing.total
    rw [hideal, hanti, Binary64.add_comm]
  refine ⟨r, a, b, hr, hab, hratings, hx, hy, hideal, hanti, htotal, ?_, fun h => ?_⟩
  · intro z hz
    have hsum : z.total = a.total := by
      rcases List.mem_pair.1 hz with rfl | rfl
      · rfl
      · exact htotal.symm
    obtain ⟨-, -, hcloseness, -⟩ := standing_spec hr (hab ▸ hz)
    rw [hcloseness, ← hsum]
    rfl
  · exact h.scores hr (by simp [hab]) (by simp [hab]) hideal hanti

/-- Two nodes, each of which is full by the criterion by which the other one is empty. -/
def crosswise : List Node := [⟨"pod", ⟨1, 1⟩, ⟨0, 0⟩, 1⟩, ⟨"memory", ⟨1, 1⟩, ⟨0, 1⟩, 0⟩]

/-- Under some weights the scores of these nodes miss 100 by the point that rounding may cost, and
under others they exceed it by as much. -/
theorem scores_crosswise :
    (∃ r a b, rank (fun _ => 1) (costs 0.09 0.31) emptyWorkload crosswise = some r ∧
      r.standings = [a, b] ∧ a.InReach ∧ a.toIdeal = b.toAntiIdeal ∧ a.toAntiIdeal = b.toIdeal ∧
        (50 ≤ a.rating.score ∧ b.rating.score ≤ 50 ∨ 50 ≤ b.rating.score ∧ a.rating.score ≤ 50) ∧
          a.rating.score + b.rating.score = 99) ∧
    ∃ r a b, rank (fun _ => 1) (costs 101 99) emptyWorkload crosswise = some r ∧
      r.standings = [a, b] ∧ a.InReach ∧ a.toIdeal = b.toAntiIdeal ∧ a.toAntiIdeal = b.toIdeal ∧
        (50 ≤ a.rating.score ∧ b.rating.score ≤ 50 ∨ 50 ≤ b.rating.score ∧ a.rating.score ≤ 50) ∧
          a.rating.score + b.rating.score = 101 := by
  have hpair : ∀ settings (sum : ℤ),
      (∃ r, rank (fun _ => 1) settings emptyWorkload crosswise = some r ∧
        (∀ z ∈ r.standings, z.InReach) ∧ (r.standings.map (·.rating.score)).sum = sum) →
      ∃ r a b, rank (fun _ => 1) settings emptyWorkload crosswise = some r ∧
        r.standings = [a, b] ∧ a.InReach ∧ a.toIdeal = b.toAntiIdeal ∧ a.toAntiIdeal = b.toIdeal ∧
          (50 ≤ a.rating.score ∧ b.rating.score ≤ 50 ∨
            50 ≤ b.rating.score ∧ a.rating.score ≤ 50) ∧
            a.rating.score + b.rating.score = sum := by
    rintro settings sum ⟨r', hr', hreach, hsum⟩
    obtain ⟨r, a, b, hr, hab, -, -, -, hideal, hanti, -, -, hscores⟩ :=
      rank_two (fun _ => 1) settings emptyWorkload ⟨"pod", ⟨1, 1⟩, ⟨0, 0⟩, 1⟩
        ⟨"memory", ⟨1, 1⟩, ⟨0, 1⟩, 0⟩
    obtain rfl : r = r' := Option.some.inj (hr.symm.trans hr')
    have ha : a.InReach := hreach a (by simp [hab])
    exact ⟨r, a, b, hr, hab, ha, hideal, hanti, (hscores ha).1, by simpa [hab] using hsum⟩
  constructor
  · exact hpair _ _ (exists_of_any (by decide +kernel))
  · exact hpair _ _ (exists_of_any (by decide +kernel))

end NodeRanking
