import NodeRanking.Proofs.Choice
import NodeRanking.Proofs.Text.Bytes

/-!
# The first candidate

Candidates stand in one order without ties: by a higher score, then by the bytes of the name, then
by position (`Candidate.Precedes`). Whatever the policy, an attempt books the workload on the node
that comes first in it and on no other (`place_books_first`). The scores are those that the policy
gives to the names, listed on a board or not, so nodes of one name only differ in their positions.
-/

namespace NodeRanking

/-- Whether a candidate comes before another one. -/
def Candidate.Precedes (c d : Candidate) : Prop :=
  d.score < c.score ∨ c.score = d.score ∧
    (Text.bytes c.name < Text.bytes d.name ∨ c.name = d.name ∧ c.index < d.index)

instance : DecidableRel Candidate.Precedes := fun c d =>
  inferInstanceAs (Decidable (d.score < c.score ∨ c.score = d.score ∧
    (Text.bytes c.name < Text.bytes d.name ∨ c.name = d.name ∧ c.index < d.index)))

namespace Candidate

variable {c d : Candidate}

theorem precedes_iff : c.Precedes d ↔ c.order < d.order := by
  have hlevel : precedence (c.name, c.score) = precedence (d.name, d.score) ↔
      c.name = d.name ∧ c.score = d.score := by
    rw [precedence_injective.eq_iff, Prod.mk.injEq]
  unfold Precedes order
  rw [Prod.Lex.toLex_lt_toLex, precedence_lt, hlevel, Text.bytes_lt_iff]
  grind

/-- Two candidates that come to stand alike have one position. -/
theorem index_eq_of_order_eq (h : c.order = d.order) : c.index = d.index :=
  congrArg (fun o => (ofLex o).2) h

end Candidate

section Choose

variable {score : String → Int} {nodes : List Node} {c : Candidate}

/-- The chosen candidate comes before that of every other position. -/
theorem precedes_of_choose? (h : choose? score nodes = some c) {j : ℕ} {other : Node}
    (hj : nodes[j]? = some other) (hne : j ≠ c.index) :
    c.Precedes ⟨j, other.name, score other.name⟩ := by
  rw [Candidate.precedes_iff]
  refine lt_of_le_of_ne (order_choose?_le h _ (candidate_mem hj)) fun heq => hne ?_
  exact (Candidate.index_eq_of_order_eq heq).symm

end Choose

/-- An attempt on at least one node finds the position that comes before every other one, names the
node there with the score that the policy gives to its name, and books the workload on that node
alone. -/
theorem place_books_first (policy : Policy) (attempt : ℕ) {nodes : List Node} (hne : nodes ≠ [])
    (w : Workload) :
    let score := policy.score (policy.prepare attempt w nodes)
    ∃ i node, nodes[i]? = some node ∧
      (∀ j other, nodes[j]? = some other → j ≠ i →
        Candidate.Precedes ⟨i, node.name, score node.name⟩ ⟨j, other.name, score other.name⟩) ∧
      (place policy attempt nodes w).1 = ⟨w.name, some (node.name, score node.name)⟩ ∧
      (place policy attempt nodes w).2[i]? = some (node.book w.request) ∧
      (∀ j, j ≠ i → (place policy attempt nodes w).2[j]? = nodes[j]?) := by
  intro score
  obtain ⟨⟨i, name, value⟩, hchoice, hplace⟩ := place_eq_choice policy nodes attempt hne w
  obtain ⟨node, hnode, rfl, rfl⟩ := mem_candidates (best?_mem hchoice)
  rw [hplace]
  refine ⟨i, node, hnode, fun j other hj hji => precedes_of_choose? hchoice hj hji, rfl, ?_,
    fun j hji => List.getElem?_modify_ne _ _ hji.symm⟩
  dsimp only
  rw [List.getElem?_modify_eq, hnode]
  rfl

/-! ## A board that misses candidates -/

/-- A policy whose board lists two names only, both below zero. -/
def grudging : Policy where
  name := "grudging"
  prepare := fun _ _ _ => some (.ofList [("c", -1), ("a", -3), ("c", -2)])
  score := Policy.boardScore

/-- Nodes that are listed by it, and nodes that are not, two of one name among them. -/
def mixedNodes : List Node :=
  ["c", "d", "b", "b", "a"].map fun name => ⟨name, ⟨1, 1⟩, ⟨0, 0⟩, 0⟩

/-- Names that are not listed count zero and so come before the listed ones; the smallest of them is
`b`, and its first node is booked. -/
theorem grudging_books_third :
    mixedNodes ≠ [] ∧
      (place grudging 0 mixedNodes ⟨"w", [⟨1, 2⟩]⟩).1 = ⟨"w", some ("b", 0)⟩ ∧
      (place grudging 0 mixedNodes ⟨"w", [⟨1, 2⟩]⟩).2[2]? = some ⟨"b", ⟨1, 1⟩, ⟨1, 2⟩, 1⟩ ∧
      ∀ j, j ≠ 2 → (place grudging 0 mixedNodes ⟨"w", [⟨1, 2⟩]⟩).2[j]? = mixedNodes[j]? := by
  have hne : mixedNodes ≠ [] := by decide
  obtain ⟨i, node, hnode, -, hdecision, hbooked, hothers⟩ :=
    place_books_first grudging 0 hne ⟨"w", [⟨1, 2⟩]⟩
  have hi : i = 2 := by
    by_contra h
    exact absurd (hothers 2 (Ne.symm h)) (by decide +kernel)
  subst hi
  obtain rfl : ⟨"b", ⟨1, 1⟩, ⟨0, 0⟩, 0⟩ = node := Option.some.inj hnode
  exact ⟨hne, hdecision, hbooked, hothers⟩

end NodeRanking
