import Mathlib
import NodeRanking.Selection

/-!
# Laws of choosing and ordering

1. A list sorted by a key is ascending (`pairwise_sortBy`), and where no two members are level it does
   not depend on the order it was given in (`sortBy_eq_of_perm`).
2. Of members with one key the earlier one stays in front, so sorting puts the positions in the one
   order by key and position (`sortBy_ofFn`, `strictMono_comp_iff_eq_sort`).
3. Where beating is having the smaller key, nothing has a smaller key than the member that is left
   (`key_bestFrom_le_of_pairwise`, `key_best?_le`), nor than the first member of a list that is
   sorted by the key (`key_head?_sortBy_le`).
-/

namespace NodeRanking

variable {α : Type}

/-! ## Sorting -/

section Sorting

variable {β : Type} [LinearOrder β] (key : α → β) {le : α → α → Bool}
  (hle : ∀ a b, le a b = true ↔ key a ≤ key b)

include hle

theorem pairwise_insertBy (x : α) {xs : List α} (h : xs.Pairwise fun a b => key a ≤ key b) :
    (insertBy le x xs).Pairwise fun a b => key a ≤ key b := by
  induction xs with
  | nil => simp [insertBy]
  | cons y ys ih =>
    obtain ⟨hy, hys⟩ := List.pairwise_cons.1 h
    unfold insertBy
    split
    case isTrue hxy =>
      refine List.pairwise_cons.2 ⟨fun z hz => ?_, h⟩
      rcases List.mem_cons.1 hz with rfl | hz
      · exact (hle x z).1 hxy
      · exact ((hle x y).1 hxy).trans (hy z hz)
    case isFalse hxy =>
      refine List.pairwise_cons.2 ⟨fun z hz => ?_, ih hys⟩
      rcases List.mem_cons.1 ((insertBy_perm le x ys).mem_iff.1 hz) with rfl | hz
      · exact (not_le.1 fun hzy => hxy ((hle z y).2 hzy)).le
      · exact hy z hz

theorem pairwise_sortBy (xs : List α) : (sortBy le xs).Pairwise fun a b => key a ≤ key b := by
  induction xs with
  | nil => exact .nil
  | cons x xs ih => exact pairwise_insertBy key hle x ih

/-- Where no two members are level, the order of the given list does not matter. -/
theorem sortBy_eq_of_perm {xs ys : List α} (hinj : ∀ a ∈ xs, ∀ b ∈ xs, key a = key b → a = b)
    (h : xs.Perm ys) : sortBy le xs = sortBy le ys := by
  have hperm : (sortBy le xs).Perm (sortBy le ys) :=
    (sortBy_perm le xs).trans (h.trans (sortBy_perm le ys).symm)
  refine hperm.eq_of_pairwise (fun a b ha hb hab hba => ?_) (pairwise_sortBy key hle xs)
    (pairwise_sortBy key hle ys)
  exact hinj a ((sortBy_perm le xs).mem_iff.1 ha) b
    ((sortBy_perm le xs).mem_iff.1 (hperm.mem_iff.2 hb)) (hab.antisymm hba)

end Sorting

/-! ## Sorting positions -/

section Positions

variable {β : Type}

theorem map_insertBy {f : α → β} {le : β → β → Bool} {le' : α → α → Bool} {x : α} {xs : List α}
    (h : ∀ y ∈ xs, le' x y = le (f x) (f y)) :
    (insertBy le' x xs).map f = insertBy le (f x) (xs.map f) := by
  induction xs with
  | nil => rfl
  | cons y ys ih =>
    rw [List.map_cons]
    unfold insertBy
    rw [h y List.mem_cons_self]
    split
    · rfl
    · rw [List.map_cons, ih fun z hz => h z (List.mem_cons_of_mem _ hz)]

/-- Sorting only ever asks whether an earlier member may stand before a later one. -/
theorem map_sortBy {f : α → β} {le : β → β → Bool} {le' : α → α → Bool} {xs : List α}
    (h : xs.Pairwise fun a b => le' a b = le (f a) (f b)) :
    (sortBy le' xs).map f = sortBy le (xs.map f) := by
  induction xs with
  | nil => rfl
  | cons x xs ih =>
    obtain ⟨hx, hxs⟩ := List.pairwise_cons.1 h
    have hmem : ∀ y ∈ sortBy le' xs, le' x y = le (f x) (f y) :=
      fun y hy => hx y ((sortBy_perm le' xs).mem_iff.1 hy)
    exact (map_insertBy hmem).trans (congrArg (insertBy le (f x)) (ih hxs))

variable {n : ℕ}

/-- The order of positions by the keys that stand there, of equal keys the earlier one first. -/
def positionOrder (keys : Fin n → β) (i : Fin n) : β ×ₗ ℕ := toLex (keys i, i.val)

theorem positionOrder_injective (keys : Fin n → β) : Function.Injective (positionOrder keys) :=
  fun _ _ h => Fin.ext (congrArg (fun o => (ofLex o).2) h)

variable [LinearOrder β]

theorem positionOrder_le_of_lt {keys : Fin n → β} {i j : Fin n} (h : i < j) :
    positionOrder keys i ≤ positionOrder keys j ↔ keys i ≤ keys j := by
  have hval : i.val ≤ j.val := h.le
  unfold positionOrder
  rw [Prod.Lex.toLex_le_toLex]
  dsimp only
  rw [and_iff_left hval]
  exact le_iff_lt_or_eq.symm

/-- The one permutation under which the positions ascend in their order. -/
theorem strictMono_comp_iff_eq_sort {keys : Fin n → β} {σ : Equiv.Perm (Fin n)} :
    StrictMono (positionOrder keys ∘ σ) ↔ σ = Tuple.sort (positionOrder keys) := by
  have hinj := positionOrder_injective keys
  have hsort : Monotone (positionOrder keys ∘ Tuple.sort (positionOrder keys)) :=
    Tuple.monotone_sort _
  constructor
  · intro h
    have heq := Tuple.unique_monotone h.monotone hsort
    exact Equiv.ext fun i => hinj (congrFun heq i)
  · rintro rfl
    exact hsort.strictMono_of_injective (hinj.comp (Equiv.injective _))

theorem sortBy_positions (keys : Fin n → β) :
    sortBy (fun i j => decide (positionOrder keys i ≤ positionOrder keys j)) (List.finRange n) =
      List.ofFn (Tuple.sort (positionOrder keys)) := by
  have hperm : (List.ofFn (Tuple.sort (positionOrder keys))).Perm (List.finRange n) := by
    rw [← List.ofFn_id]
    exact (Tuple.sort (positionOrder keys)).ofFn_comp_perm id
  refine ((sortBy_perm _ _).trans hperm.symm).eq_of_pairwise (fun i j _ _ hij hji => ?_)
    (pairwise_sortBy (positionOrder keys) (fun i j => decide_eq_true_iff) _)
    (List.pairwise_ofFn.2 fun i j hij => ?_)
  · exact positionOrder_injective keys (hij.antisymm hji)
  · exact Tuple.monotone_sort (positionOrder keys) hij.le

/-- Where order is by a key, a tuple is sorted by the order of its positions. -/
theorem sortBy_ofFn (key : α → β) {le : α → α → Bool} (hle : ∀ a b, le a b = true ↔ key a ≤ key b)
    (g : Fin n → α) :
    sortBy le (List.ofFn g) = List.ofFn (g ∘ Tuple.sort (positionOrder (key ∘ g))) := by
  have hagree : (List.finRange n).Pairwise fun i j =>
      decide (positionOrder (key ∘ g) i ≤ positionOrder (key ∘ g) j) = le (g i) (g j) := by
    refine (List.pairwise_lt_finRange n).imp fun hij => ?_
    rw [Bool.eq_iff_iff, decide_eq_true_iff, hle]
    exact positionOrder_le_of_lt hij
  rw [List.ofFn_eq_map, ← map_sortBy hagree, sortBy_positions, List.map_ofFn]

end Positions

/-! ## The best member -/

section Best

variable {β : Type} [LinearOrder β] (key : α → β) {beats : α → α → Bool}

/-- Nothing has a smaller key than the member that is left. Only a later member is ever compared
with an earlier one. -/
theorem key_bestFrom_le_of_pairwise {x : α} {xs : List α}
    (hbeats : (x :: xs).Pairwise fun a b => beats b a = true ↔ key b < key a) :
    ∀ y ∈ x :: xs, key (bestFrom beats x xs) ≤ key y := by
  induction xs generalizing x with
  | nil => simp [bestFrom]
  | cons y ys ih =>
    obtain ⟨hx, hrest⟩ := List.pairwise_cons.1 hbeats
    have hys := (List.pairwise_cons.1 hrest).2
    have hyx := hx y List.mem_cons_self
    rw [bestFrom_cons]
    -- the member at hand after one comparison has a key as small as both
    by_cases hlt : beats y x = true
    · rw [if_pos hlt]
      have hle := ih hrest
      intro z hz
      rcases List.mem_cons.1 hz with rfl | hz
      · exact (hle y List.mem_cons_self).trans (hyx.1 hlt).le
      · exact hle z hz
    · rw [if_neg hlt]
      have hle := ih (List.pairwise_cons.2 ⟨fun z hz => hx z (List.mem_cons_of_mem _ hz), hys⟩)
      intro z hz
      rcases List.mem_cons.1 hz with rfl | hz
      · exact hle z List.mem_cons_self
      · rcases List.mem_cons.1 hz with rfl | hz
        · exact (hle x List.mem_cons_self).trans (not_lt.1 fun h => hlt (hyx.2 h))
        · exact hle z (List.mem_cons_of_mem _ hz)

theorem key_bestFrom_le {x : α} {xs : List α}
    (hbeats : ∀ a ∈ x :: xs, ∀ b ∈ x :: xs, beats a b = true ↔ key a < key b) :
    ∀ y ∈ x :: xs, key (bestFrom beats x xs) ≤ key y :=
  key_bestFrom_le_of_pairwise key
    (List.pairwise_of_forall_mem_list fun a ha b hb => hbeats b hb a ha)

theorem key_best?_le {xs : List α}
    (hbeats : xs.Pairwise fun a b => beats b a = true ↔ key b < key a) {x : α}
    (h : best? beats xs = some x) : ∀ y ∈ xs, key x ≤ key y := by
  cases xs with
  | nil => simp
  | cons first rest =>
    rw [best?, Option.some.injEq] at h
    exact h ▸ key_bestFrom_le_of_pairwise key hbeats

/-- Where order is by the key, the first member of a sorted list has the smallest one. -/
theorem key_head?_sortBy_le {le : α → α → Bool} (hle : ∀ a b, le a b = true ↔ key a ≤ key b)
    {xs : List α} {x : α} (h : (sortBy le xs).head? = some x) :
    x ∈ xs ∧ ∀ y ∈ xs, key x ≤ key y := by
  have hpairwise := pairwise_sortBy key hle xs
  obtain ⟨rest, hsorted⟩ := List.head?_eq_some_iff.1 h
  have hmem : ∀ y, y ∈ xs ↔ y ∈ x :: rest := fun y => hsorted ▸ (sortBy_perm le xs).mem_iff.symm
  refine ⟨(hmem x).2 List.mem_cons_self, fun y hy => ?_⟩
  rw [hsorted] at hpairwise
  rcases List.mem_cons.1 ((hmem y).1 hy) with rfl | hy
  · exact le_rfl
  · exact (List.pairwise_cons.1 hpairwise).1 y hy

end Best

end NodeRanking
