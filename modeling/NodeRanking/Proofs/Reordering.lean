import NodeRanking.Proofs.Choice
import NodeRanking.Proofs.Ranking

/-!
# Placement on nodes in another order

Two runs of one queue, on a list of nodes and on the same nodes in another order, go side by side.

1. `Rearranged σ` relates the nodes of the two runs. A policy that prepares one board for both lists
   chooses one name in both, and where no two nodes have one name, that is one node
   (`choose?_rearranged`). So an attempt makes one decision and keeps the two lists related
   (`place_rearranged`).
2. By induction over the queue all decisions are the same, and the final nodes are the same in the
   other order (`placeFrom_rearranged`). The policy of this library is such a policy
   (`orderless_powerAware`).
-/

namespace NodeRanking

/-! ## Lists in another order -/

section Rearranged

variable {α : Type} {n : ℕ} {σ : Equiv.Perm (Fin n)} {xs ys : List α}

/-- The second list has at `i` what the first one has at `σ i`. -/
structure Rearranged (σ : Equiv.Perm (Fin n)) (xs ys : List α) : Prop where
  length_left : xs.length = n
  length_right : ys.length = n
  getElem? : ∀ i : Fin n, ys[i.val]? = xs[(σ i).val]?

theorem rearranged_permuted (xs : List α) (σ : Equiv.Perm (Fin xs.length)) :
    Rearranged σ xs (permuted xs σ) where
  length_left := rfl
  length_right := List.length_ofFn
  getElem? i := by
    unfold permuted
    simp

namespace Rearranged

variable (h : Rearranged σ xs ys)

include h

theorem eq_ofFn : ys = List.ofFn fun i => xs.get ((σ i).cast h.length_left.symm) := by
  apply List.ext_getElem?
  intro i
  rw [List.getElem?_ofFn]
  split
  case isTrue hi =>
    rw [h.getElem? ⟨i, hi⟩]
    simp
  case isFalse hi =>
    rw [List.getElem?_eq_none (by rw [h.length_right]; omega)]

theorem perm : xs.Perm ys := by
  have hofFn := σ.ofFn_comp_perm fun i => xs.get (i.cast h.length_left.symm)
  have hxs : (List.ofFn fun i => xs.get (i.cast h.length_left.symm)) = xs := by
    apply List.ext_getElem
    · rw [List.length_ofFn, h.length_left]
    · intro i hi hi'
      simp
  rw [hxs] at hofFn
  rw [h.eq_ofFn]
  exact hofFn.symm

/-- A change at one place of the first list is one at the matching place of the second. -/
theorem modify (f : α → α) (i : Fin n) : Rearranged σ (xs.modify (σ i) f) (ys.modify i f) where
  length_left := (List.length_modify ..).trans h.length_left
  length_right := (List.length_modify ..).trans h.length_right
  getElem? j := by
    rw [List.getElem?_modify, List.getElem?_modify, h.getElem? j]
    simp only [Fin.val_inj, σ.apply_eq_iff_eq]

end Rearranged

end Rearranged

/-! ## Two runs side by side -/

/-- One board serves nodes in any order. -/
def Policy.Orderless (policy : Policy) : Prop :=
  ∀ attempt w nodes nodes', nodes.Perm nodes' →
    policy.prepare attempt w nodes = policy.prepare attempt w nodes'

section Runs

variable {policy : Policy} {n : ℕ} {σ : Equiv.Perm (Fin n)} {nodes nodes' : List Node}

/-- Where no two nodes have one name, the same node is chosen in both lists. -/
theorem choose?_rearranged (h : Rearranged σ nodes nodes') (hnames : (nodes.map (·.name)).Nodup)
    {score : String → Int} {c c' : Candidate} (hc : choose? score nodes = some c)
    (hc' : choose? score nodes' = some c') :
    c'.name = c.name ∧ c'.score = c.score ∧ ∃ i : Fin n, c'.index = i ∧ c.index = σ i := by
  have hmem : ∀ e, e ∈ nodes'.map (fun node => (node.name, score node.name)) ↔
      e ∈ nodes.map fun node => (node.name, score node.name) := fun _ => (h.perm.map _).symm.mem_iff
  obtain ⟨hname, hscore⟩ := Prod.mk.injEq .. ▸
    ((IsTop.congr hmem).1 (isTop_choose? hc')).eq (isTop_choose? hc)
  obtain ⟨node, hnode, hnodename, -⟩ := mem_candidates (best?_mem hc)
  obtain ⟨node', hnode', hnodename', -⟩ := mem_candidates (best?_mem hc')
  have hlt : c'.index < n := h.length_right ▸ (List.getElem?_eq_some_iff.1 hnode').1
  refine ⟨hname, hscore, ⟨c'.index, hlt⟩, rfl, ?_⟩
  -- both places of the first list hold a node of the chosen name
  have hσ := h.getElem? ⟨c'.index, hlt⟩
  rw [hnode'] at hσ
  have hat : (nodes.map (·.name))[c.index]? = some c.name := by
    rw [List.getElem?_map, hnode, Option.map_some, hnodename]
  have hat' : (nodes.map (·.name))[(σ ⟨c'.index, hlt⟩).val]? = some c.name := by
    rw [List.getElem?_map, ← hσ, Option.map_some, ← hname, hnodename']
  have hin : c.index < (nodes.map (·.name)).length := (List.getElem?_eq_some_iff.1 hat).1
  exact (List.getElem?_inj hin hnames).1 (hat.trans hat'.symm)

/-- An attempt makes the same decision on both lists and keeps them related. -/
theorem place_rearranged (horder : policy.Orderless) (h : Rearranged σ nodes nodes')
    (hnames : (nodes.map (·.name)).Nodup) (attempt : ℕ) (w : Workload) :
    (place policy attempt nodes' w).1 = (place policy attempt nodes w).1 ∧
      Rearranged σ (place policy attempt nodes w).2 (place policy attempt nodes' w).2 := by
  by_cases hne : nodes = []
  · subst hne
    obtain rfl := List.nil_perm.1 h.perm
    exact ⟨rfl, h⟩
  have hne' : nodes' ≠ [] := fun hnil => hne (List.perm_nil.1 (hnil ▸ h.perm))
  obtain ⟨c, hc, hplace⟩ := place_eq_choice policy nodes attempt hne w
  obtain ⟨c', hc', hplace'⟩ := place_eq_choice policy nodes' attempt hne' w
  rw [← horder attempt w nodes nodes' h.perm] at hc'
  obtain ⟨hname, hscore, i, hi, hσ⟩ := choose?_rearranged h hnames hc hc'
  rw [hplace, hplace', hname, hscore, hi, hσ]
  exact ⟨rfl, h.modify (Node.book w.request) i⟩

theorem placeFrom_rearranged (horder : policy.Orderless) (h : Rearranged σ nodes nodes')
    (hnames : (nodes.map (·.name)).Nodup) (attempt : ℕ) (workloads : List Workload) :
    (placeFrom policy attempt nodes' workloads).1 = (placeFrom policy attempt nodes workloads).1 ∧
      Rearranged σ (placeFrom policy attempt nodes workloads).2
        (placeFrom policy attempt nodes' workloads).2 := by
  induction workloads generalizing attempt nodes nodes' with
  | nil => exact ⟨rfl, h⟩
  | cons w ws ih =>
    obtain ⟨hdecision, hnodes⟩ := place_rearranged horder h hnames attempt w
    rw [placeFrom_cons, placeFrom_cons]
    dsimp only
    rw [hdecision]
    have hrest := ih hnodes (by rwa [map_name_place]) (attempt + 1)
    exact ⟨congrArg (_ :: ·) hrest.1, hrest.2⟩

end Runs

/-! ## The policy of this library -/

theorem orderless_powerAware (exp : Binary64 → Binary64) (settings : Settings) :
    (Policy.powerAware exp settings).Orderless :=
  fun _ w _ _ hperm => board_perm exp settings w hperm

/-- Where no two nodes have one name, a queue is decided the same way on the nodes in any order, and
the final nodes are the same in that order. -/
theorem placeQueue_permute (exp : Binary64 → Binary64) (settings : Settings) {nodes : List Node}
    (hnames : (nodes.map (·.name)).Nodup) (σ : Equiv.Perm (Fin nodes.length))
    (workloads : List Workload) :
    (placeQueue (.powerAware exp settings) (permuted nodes σ) workloads).1 =
        (placeQueue (.powerAware exp settings) nodes workloads).1 ∧
      ∃ hlength : nodes.length =
          (placeQueue (.powerAware exp settings) nodes workloads).2.length,
        (placeQueue (.powerAware exp settings) (permuted nodes σ) workloads).2 =
          List.ofFn fun i =>
            (placeQueue (.powerAware exp settings) nodes workloads).2.get ((σ i).cast hlength) := by
  obtain ⟨hdecisions, hnodes⟩ := placeFrom_rearranged (orderless_powerAware exp settings)
    (rearranged_permuted nodes σ) hnames 0 workloads
  exact ⟨hdecisions, hnodes.length_left.symm, hnodes.eq_ofFn⟩

/-- Two empty nodes, the one with the larger name in front and with more memory requested. -/
def largerNameFirst : List Node := [⟨"b", ⟨4, 4⟩, ⟨0, 1⟩, 0⟩, ⟨"a", ⟨4, 4⟩, ⟨0, 0⟩, 0⟩]

/-- Two workloads on the two nodes in either order. -/
theorem placeQueue_largerNameFirst :
    (largerNameFirst.map (·.name)).Nodup ∧
      (placeQueue (.powerAware (fun _ => 1) (costs 1 1))
        (permuted largerNameFirst (finRotate largerNameFirst.length))
        [emptyWorkload, ⟨"full", [⟨0, 4⟩]⟩]).1 =
          [⟨"empty", some ("a", 100)⟩, ⟨"full", some ("a", 50)⟩] := by
  have hnames : (largerNameFirst.map (·.name)).Nodup := by decide
  obtain ⟨hdecisions, -⟩ := placeQueue_permute (fun _ => 1) (costs 1 1) hnames
    (finRotate largerNameFirst.length) [emptyWorkload, ⟨"full", [⟨0, 4⟩]⟩]
  exact ⟨hnames, hdecisions.trans (by decide +kernel)⟩

end NodeRanking
