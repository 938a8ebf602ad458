import NodeRanking.Proofs.Scoreboard
import NodeRanking.Proofs.Selection
import NodeRanking.Proofs.Text.Bytes

/-!
# The top entry

Of some entries of names and scores the top one has the highest score, and of several with that
score the smallest name. There is at most one (`IsTop.eq`), and it depends only on which entries
there are (`IsTop.congr`).

1. A board has the same top entry as the list that it was made of (`isTop_ofList`): a name keeps its
   highest score. `best?` finds it (`best?_ofList`).
2. Asking a board for each of its names gives back its entries (`mem_map_score`).
3. All that a board says is said of the list (`ofList_keeps_highest`).
-/

namespace NodeRanking

/-- The order of entries: a higher score comes first, and of equal scores the smaller name. -/
def precedence (e : String × Int) : Int ×ₗ String := toLex (-e.2, e.1)

theorem precedence_le {e f : String × Int} :
    precedence e ≤ precedence f ↔ f.2 < e.2 ∨ f.2 = e.2 ∧ e.1 ≤ f.1 := by
  unfold precedence
  rw [Prod.Lex.toLex_le_toLex]
  simp only [neg_lt_neg_iff, neg_inj]
  exact or_congr_right (and_congr_left' eq_comm)

theorem precedence_lt {e f : String × Int} :
    precedence e < precedence f ↔ f.2 < e.2 ∨ f.2 = e.2 ∧ e.1 < f.1 := by
  unfold precedence
  rw [Prod.Lex.toLex_lt_toLex]
  simp only [neg_lt_neg_iff, neg_inj]
  exact or_congr_right (and_congr_left' eq_comm)

theorem precedence_injective : Function.Injective precedence := by
  rintro ⟨n, s⟩ ⟨m, t⟩ h
  have h := congrArg ofLex h
  simp only [precedence, ofLex_toLex, Prod.mk.injEq, neg_inj] at h
  rw [h.1, h.2]

/-- The entry that comes before all others. -/
def IsTop (entries : List (String × Int)) (e : String × Int) : Prop :=
  e ∈ entries ∧ ∀ f ∈ entries, precedence e ≤ precedence f

namespace IsTop

variable {entries entries' : List (String × Int)} {e f : String × Int}

theorem eq (h : IsTop entries e) (h' : IsTop entries f) : e = f :=
  precedence_injective ((h.2 f h'.1).antisymm (h'.2 e h.1))

theorem congr (h : ∀ e, e ∈ entries ↔ e ∈ entries') : IsTop entries e ↔ IsTop entries' e := by
  unfold IsTop
  simp only [h]

theorem score_le (h : IsTop entries e) (hf : f ∈ entries) : f.2 ≤ e.2 := by
  rcases precedence_le.1 (h.2 f hf) with hlt | ⟨heq, -⟩
  · exact hlt.le
  · exact heq.le

end IsTop

namespace Scoreboard

variable {entries es : List (String × Int)} {n : String} {s : Int} {e : String × Int}

/-! ## The scores of a board -/

theorem Ascending.lookup_eq_some_iff (h : Ascending entries) :
    entries.lookup n = some s ↔ (n, s) ∈ entries := by
  have hmem : ∀ t, entries.lookup n = some t → (n, t) ∈ entries := by
    intro t ht
    obtain ⟨before, after, rfl, -⟩ := List.lookup_eq_some_iff.1 ht
    simp
  refine ⟨hmem s, fun hs => ?_⟩
  cases ht : entries.lookup n with
  | none => simpa using List.lookup_eq_none_iff.1 ht _ hs
  | some t => rw [h.eq_of_mem hs (hmem t ht)]

theorem Ascending.score_of_mem {board : Scoreboard} (h : Ascending board.entries)
    (hmem : (n, s) ∈ board.entries) : board.score n = s := by
  unfold score get?
  rw [h.lookup_eq_some_iff.2 hmem, Option.getD_some]

theorem score_of_not_mem {board : Scoreboard} (h : n ∉ board.entries.map (·.1)) :
    board.score n = unlisted := by
  have hnone : board.entries.lookup n = none := by
    rw [List.lookup_eq_none_iff]
    intro e he
    exact bne_iff_ne.2 fun heq => h (List.mem_map.2 ⟨e, he, heq.symm⟩)
  unfold score get?
  rw [hnone, Option.getD_none]

theorem get?_ofList_eq_some_iff : (ofList es).get? n = some s ↔ Highest es n s :=
  (ascending_ofList es).lookup_eq_some_iff.trans mem_ofList

theorem score_ofList (h : Highest es n s) : (ofList es).score n = s :=
  (ascending_ofList es).score_of_mem (mem_ofList.2 h)

/-- A board asked for each of its names. -/
theorem mem_map_score {names : List String} (hnames : ∀ n, n ∈ names ↔ ∃ s, (n, s) ∈ es) :
    e ∈ names.map (fun n => (n, (ofList es).score n)) ↔ e ∈ (ofList es).entries := by
  obtain ⟨n, s⟩ := e
  rw [mem_ofList]
  constructor
  · intro h
    obtain ⟨m, hm, heq⟩ := List.mem_map.1 h
    obtain ⟨t, ht⟩ := (hnames m).1 hm
    obtain ⟨u, -, hu⟩ := exists_highest ht
    rw [score_ofList hu] at heq
    obtain ⟨rfl, rfl⟩ := Prod.mk.injEq .. ▸ heq
    exact hu
  · intro h
    exact List.mem_map.2 ⟨n, (hnames n).2 ⟨s, h.1⟩, by rw [score_ofList h]⟩

/-! ## The top entry of a board -/

/-- Keeping only the highest score of every name keeps the top entry. -/
theorem isTop_ofList : IsTop (ofList es).entries e ↔ IsTop es e := by
  have hsub : ∀ f, f ∈ (ofList es).entries → f ∈ es := fun f hf => (mem_ofList.1 hf).1
  constructor
  · rintro ⟨hmem, hle⟩
    refine ⟨hsub e hmem, fun f hf => ?_⟩
    obtain ⟨t, hft, ht⟩ := exists_highest (n := f.1) (s := f.2) hf
    refine (hle (f.1, t) (mem_ofList.2 ht)).trans (precedence_le.2 ?_)
    exact hft.lt_or_eq.imp id fun heq => ⟨heq, le_rfl⟩
  · rintro ⟨hmem, hle⟩
    refine ⟨mem_ofList.2 ⟨hmem, fun t ht => ?_⟩, fun f hf => hle f (hsub f hf)⟩
    exact IsTop.score_le ⟨hmem, hle⟩ ht

theorem isTop_of_best? {board : Scoreboard} (h : Ascending board.entries)
    (hbest : board.best? = some e) : IsTop board.entries e := by
  refine ⟨best?_mem hbest, key_best?_le precedence ?_ hbest⟩
  -- of equal scores the earlier entry stays, and it has the smaller name
  refine h.imp fun {a b} hab => ?_
  rw [decide_eq_true_iff, precedence_lt]
  simp [hab.not_gt]

/-- A board finds the top entry of the list that it was made of. -/
theorem best?_ofList : (ofList es).best? = some e ↔ IsTop es e := by
  have htop {f : String × Int} (hf : (ofList es).best? = some f) : IsTop es f :=
    isTop_ofList.1 (isTop_of_best? (ascending_ofList es) hf)
  refine ⟨htop, fun h => ?_⟩
  cases hbest : (ofList es).best? with
  | none =>
    have hempty := (best?_eq_none_iff _ _).1 hbest
    exact absurd (hempty ▸ (isTop_ofList.2 h).1) List.not_mem_nil
  | some f => rw [(htop hbest).eq h]

theorem best?_ofList_eq_none_iff : (ofList es).best? = none ↔ es = [] := by
  have hnames : (ofList es).entries = [] ↔ es = [] := by
    simp only [List.eq_nil_iff_forall_not_mem, ← List.map_eq_nil_iff (f := Prod.fst)]
    simp only [mem_names_ofList]
  exact (best?_eq_none_iff _ _).trans hnames

/-- Which entry is the top one, by the bytes of the names. -/
theorem isTop_iff_bytes : IsTop es (n, s) ↔ (n, s) ∈ es ∧
    ∀ m t, (m, t) ∈ es → t < s ∨ t = s ∧ ¬Text.bytes m < Text.bytes n := by
  unfold IsTop
  simp only [Prod.forall, precedence_le, Text.bytes_lt_iff, not_lt]

/-- A board made of a list has the names of the list, each with the highest of its scores, whatever
the order of the list and however often it has an entry. It lists them by the bytes of the names,
and its best entry is, of those with the highest score, the one with the smallest name. -/
theorem ofList_keeps_highest (es : List (String × Int)) :
    (∀ n, n ∈ (ofList es).entries.map (·.1) ↔ n ∈ es.map (·.1)) ∧
    (∀ n s, (n, s) ∈ (ofList es).entries ↔ Highest es n s) ∧
    (∀ n s, (ofList es).get? n = some s ↔ Highest es n s) ∧
    (∀ es', (∀ e, e ∈ es' ↔ e ∈ es) → ofList es' = ofList es) ∧
    ((ofList es).entries.Pairwise fun a b => Text.bytes a.1 < Text.bytes b.1) ∧
    ((ofList es).best? = none ↔ es = []) ∧
    ∀ n s, (ofList es).best? = some (n, s) ↔ (n, s) ∈ es ∧
      ∀ m t, (m, t) ∈ es → t < s ∨ t = s ∧ ¬Text.bytes m < Text.bytes n := by
  refine ⟨fun _ => mem_names_ofList, fun _ _ => mem_ofList, fun _ _ => get?_ofList_eq_some_iff,
    fun _ h => ofList_congr h, ?_, best?_ofList_eq_none_iff, fun _ _ => ?_⟩
  · exact (ascending_ofList es).imp fun hab => Text.bytes_lt_iff.2 hab
  · exact best?_ofList.trans isTop_iff_bytes

/-- Names that come more than once, negative scores, and a tie for the highest one. -/
theorem ofList_keeps_highest_tied :
    (∀ e : String × Int, e ∈ [("a", -1), ("b", -3), ("b", -1), ("a", -5), ("a", -1)] ↔
      e ∈ [("b", -3), ("a", -5), ("b", -1), ("a", -1)]) ∧
    ofList [("a", -1), ("b", -3), ("b", -1), ("a", -5), ("a", -1)] =
      ofList [("b", -3), ("a", -5), ("b", -1), ("a", -1)] ∧
    (ofList [("b", -3), ("a", -5), ("b", -1), ("a", -1)]).best? = some ("a", -1) := by
  have hmem : ∀ e : String × Int, e ∈ [("a", -1), ("b", -3), ("b", -1), ("a", -5), ("a", -1)] ↔
      e ∈ [("b", -3), ("a", -5), ("b", -1), ("a", -1)] := by
    intro e
    simp only [List.mem_cons, List.not_mem_nil, or_false]
    tauto
  obtain ⟨-, -, -, hcongr, -⟩ := ofList_keeps_highest [("b", -3), ("a", -5), ("b", -1), ("a", -1)]
  exact ⟨hmem, hcongr _ hmem, by decide⟩

end Scoreboard

end NodeRanking
