/-!
# Choosing from and ordering a list

1. `bestFrom` and `best?` walk a list and keep the member at hand until a later one beats it, so of
   several unbeaten members the first is chosen.
2. `sortBy` orders a list by insertion; members that are level keep their order.
-/

namespace NodeRanking

variable {α : Type}

/-! ## The best member -/

/-- The member that is left when each later one takes the place of the one at hand if it beats it:
`beats x y` says that `x` beats `y`. -/
def bestFrom (beats : α → α → Bool) (first : α) (rest : List α) : α :=
  rest.foldl (fun held x => if beats x held then x else held) first

/-- The member of the list that is left, if there is any. -/
def best? (beats : α → α → Bool) : List α → Option α
  | [] => none
  | x :: xs => some (bestFrom beats x xs)

theorem bestFrom_cons (beats : α → α → Bool) (x y : α) (ys : List α) :
    bestFrom beats x (y :: ys) = bestFrom beats (if beats y x then y else x) ys := rfl

theorem bestFrom_mem (beats : α → α → Bool) (x : α) (xs : List α) :
    bestFrom beats x xs ∈ x :: xs := by
  induction xs generalizing x with
  | nil => simp [bestFrom]
  | cons y ys ih =>
    rw [bestFrom_cons]
    have := ih (if beats y x then y else x)
    split at this <;> simp_all only [List.mem_cons] <;> grind

theorem best?_eq_none_iff (beats : α → α → Bool) (xs : List α) :
    best? beats xs = none ↔ xs = [] := by
  cases xs <;> simp [best?]

theorem best?_mem {beats : α → α → Bool} {x : α} {xs : List α} (h : best? beats xs = some x) :
    x ∈ xs := by
  cases xs with
  | nil => simp [best?] at h
  | cons y ys =>
    rw [best?, Option.some.injEq] at h
    exact h ▸ bestFrom_mem beats y ys

/-! ## Sorting -/

/-- `x` put before the first member that it may stand before. -/
def insertBy (le : α → α → Bool) (x : α) : List α → List α
  | [] => [x]
  | y :: ys => if le x y then x :: y :: ys else y :: insertBy le x ys

/-- The list in the order of `le`; of two members that may stand either way the earlier one stays in
front. -/
def sortBy (le : α → α → Bool) (xs : List α) : List α := xs.foldr (insertBy le) []

theorem insertBy_perm (le : α → α → Bool) (x : α) (xs : List α) :
    (insertBy le x xs).Perm (x :: xs) := by
  induction xs with
  | nil => exact .refl _
  | cons y ys ih =>
    unfold insertBy
    split
    · exact .refl _
    · exact (ih.cons y).trans (.swap x y ys)

theorem sortBy_perm (le : α → α → Bool) (xs : List α) : (sortBy le xs).Perm xs := by
  induction xs with
  | nil => exact .refl _
  | cons x xs ih => exact (insertBy_perm le x _).trans (ih.cons x)

end NodeRanking
