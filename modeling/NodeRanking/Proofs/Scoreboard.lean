import Mathlib
import NodeRanking.Scoreboard

/-!
# Laws of scoreboards

A board lists the names of its entries in ascending order, each with the highest of its scores
(`ascending_ofList`, `mem_ofList`), so it depends only on which entries there are
(`ofList_congr`), not on their order or number.
-/

namespace NodeRanking

namespace Scoreboard

variable {entries entries' : List (String × Int)} {name n : String} {score s : Int}

/-- Every name comes once, and the names ascend. -/
def Ascending (entries : List (String × Int)) : Prop := entries.Pairwise fun a b => a.1 < b.1

/-- The highest score of a name among the entries. -/
def Highest (entries : List (String × Int)) (name : String) (score : Int) : Prop :=
  (name, score) ∈ entries ∧ ∀ s, (name, s) ∈ entries → s ≤ score

theorem Highest.congr (h : ∀ e, e ∈ entries ↔ e ∈ entries') :
    Highest entries n s ↔ Highest entries' n s := by
  unfold Highest
  simp only [h]

theorem exists_highest (h : (n, s) ∈ entries) : ∃ t, s ≤ t ∧ Highest entries n t := by
  obtain ⟨t, ht, hmax⟩ := (entries.toFinset.filter (·.1 = n)).exists_max_image (·.2)
    ⟨(n, s), by simp [h]⟩
  simp only [Finset.mem_filter, List.mem_toFinset, and_imp, Prod.forall] at ht hmax
  obtain ⟨hmem, rfl⟩ := ht
  exact ⟨t.2, hmax _ s h rfl, hmem, fun s' hs' => hmax _ s' hs' rfl⟩

/-! ## Ascending entries -/

theorem Ascending.eq_of_mem (h : Ascending entries) {t : Int} (hs : (n, s) ∈ entries)
    (ht : (n, t) ∈ entries) : s = t := by
  induction entries with
  | nil => simp at hs
  | cons e rest ih =>
    obtain ⟨he, hrest⟩ := List.pairwise_cons.1 h
    rcases List.mem_cons.1 hs with rfl | hs <;> rcases List.mem_cons.1 ht with heq | ht
    · exact (congrArg Prod.snd heq).symm
    · exact absurd (he _ ht) (lt_irrefl n)
    · exact absurd (he _ hs) (heq ▸ lt_irrefl n)
    · exact ih hrest hs ht

theorem Ascending.mem_iff_highest (h : Ascending entries) :
    (n, s) ∈ entries ↔ Highest entries n s := by
  constructor
  · intro hs
    exact ⟨hs, fun t ht => (h.eq_of_mem ht hs).le⟩
  · exact And.left

theorem Ascending.names_nodup (h : Ascending entries) : (entries.map (·.1)).Nodup :=
  List.pairwise_map.2 (h.imp fun hlt => ne_of_lt hlt)

/-- Ascending entries are determined by their members. -/
theorem Ascending.ext (h : Ascending entries) (h' : Ascending entries')
    (hmem : ∀ e, e ∈ entries ↔ e ∈ entries') : entries = entries' := by
  have nodup : ∀ {es : List (String × Int)}, Ascending es → es.Nodup := fun hes =>
    hes.imp fun hab hne => absurd (hne ▸ hab) (lt_irrefl _)
  have hperm : entries.Perm entries' := (List.perm_ext_iff_of_nodup (nodup h) (nodup h')).2 hmem
  exact hperm.eq_of_pairwise (fun _ _ _ _ hab hba => absurd (hab.trans hba) (lt_irrefl _)) h h'

/-! ## Entering a score -/

theorem fst_of_mem_insertMax {e : String × Int} (h : e ∈ insertMax name score entries) :
    e.1 = name ∨ ∃ f ∈ entries, f.1 = e.1 := by
  induction entries with
  | nil => exact .inl (by rw [List.mem_singleton.1 h])
  | cons head rest ih =>
    obtain ⟨m, t⟩ := head
    unfold insertMax at h
    split_ifs at h with hlt heq
    · rcases List.mem_cons.1 h with rfl | h
      · exact .inl rfl
      · exact .inr ⟨e, h, rfl⟩
    · rcases List.mem_cons.1 h with rfl | h
      · exact .inl heq.symm
      · exact .inr ⟨e, List.mem_cons_of_mem _ h, rfl⟩
    · rcases List.mem_cons.1 h with rfl | h
      · exact .inr ⟨(m, t), List.mem_cons_self, rfl⟩
      · rcases ih h with h | ⟨f, hf, hfe⟩
        · exact .inl h
        · exact .inr ⟨f, List.mem_cons_of_mem _ hf, hfe⟩

theorem Ascending.insertMax (h : Ascending entries) (name : String) (score : Int) :
    Ascending (insertMax name score entries) := by
  induction entries with
  | nil => exact List.pairwise_singleton _ _
  | cons head rest ih =>
    obtain ⟨m, t⟩ := head
    obtain ⟨hm, hrest⟩ := List.pairwise_cons.1 h
    unfold Scoreboard.insertMax
    split_ifs with hlt heq
    · refine List.pairwise_cons.2 ⟨fun e he => ?_, h⟩
      rcases List.mem_cons.1 he with rfl | he
      · exact hlt
      · exact hlt.trans (hm e he)
    · exact List.pairwise_cons.2 ⟨hm, hrest⟩
    · refine List.pairwise_cons.2 ⟨fun e he => ?_, ih hrest⟩
      have hmname : m < name := lt_of_le_of_ne (not_lt.1 hlt) (Ne.symm heq)
      rcases fst_of_mem_insertMax he with hname | ⟨f, hf, hfe⟩
      · exact hname ▸ hmname
      · exact hfe ▸ hm f hf

theorem highest_cons_max {m : String} {t u : Int} {rest : List (String × Int)} :
    Highest ((m, max t u) :: rest) n s ↔ Highest ((m, u) :: (m, t) :: rest) n s := by
  unfold Highest
  rcases le_total t u with h | h <;> grind

theorem mem_insertMax (h : Ascending entries) :
    (n, s) ∈ insertMax name score entries ↔ Highest ((name, score) :: entries) n s := by
  induction entries with
  | nil =>
    unfold insertMax Highest
    grind
  | cons head rest ih =>
    obtain ⟨m, t⟩ := head
    obtain ⟨hm, hrest⟩ := List.pairwise_cons.1 h
    have hins := h.insertMax name score
    unfold insertMax at hins ⊢
    split_ifs at hins ⊢ with hlt heq
    · exact hins.mem_iff_highest
    · subst heq
      rw [hins.mem_iff_highest, highest_cons_max]
    · -- the head keeps its score: its name is neither the new one nor one of the rest
      have hne : ∀ s, (m, s) ∉ rest := fun s hs => absurd (hm _ hs) (lt_irrefl m)
      rw [List.mem_cons, ih hrest]
      unfold Highest
      grind

/-! ## Boards -/

/-- Keeping only the highest score of every name loses no highest score. -/
theorem highest_append (h : ∀ n s, (n, s) ∈ entries ↔ Highest entries' n s)
    (es : List (String × Int)) : Highest (entries ++ es) n s ↔ Highest (entries' ++ es) n s := by
  constructor
  · rintro ⟨hmem, hle⟩
    refine ⟨?_, fun t ht => ?_⟩
    · rcases List.mem_append.1 hmem with hmem | hmem
      · exact List.mem_append_left _ ((h n s).1 hmem).1
      · exact List.mem_append_right _ hmem
    · rcases List.mem_append.1 ht with ht | ht
      · obtain ⟨u, htu, hu⟩ := exists_highest ht
        exact htu.trans (hle u (List.mem_append_left _ ((h n u).2 hu)))
      · exact hle t (List.mem_append_right _ ht)
  · rintro ⟨hmem, hle⟩
    refine ⟨?_, fun t ht => ?_⟩
    · rcases List.mem_append.1 hmem with hmem | hmem
      · refine List.mem_append_left _ ((h n s).2 ⟨hmem, fun t ht => ?_⟩)
        exact hle t (List.mem_append_left _ ht)
      · exact List.mem_append_right _ hmem
    · rcases List.mem_append.1 ht with ht | ht
      · exact hle t (List.mem_append_left _ ((h n t).1 ht).1)
      · exact hle t (List.mem_append_right _ ht)

/-- From ascending entries on, the fold keeps the highest score of every name seen so far. -/
theorem foldl_insertMax (h : Ascending entries) (es : List (String × Int)) :
    Ascending (es.foldl (fun board e => insertMax e.1 e.2 board) entries) ∧
      ∀ n s, (n, s) ∈ es.foldl (fun board e => insertMax e.1 e.2 board) entries ↔
        Highest (entries ++ es) n s := by
  induction es generalizing entries with
  | nil =>
    rw [List.append_nil]
    exact ⟨h, fun n s => h.mem_iff_highest⟩
  | cons e es ih =>
    obtain ⟨hasc, hmem⟩ := ih (h.insertMax e.1 e.2)
    have hins : ∀ n s, (n, s) ∈ insertMax e.1 e.2 entries ↔ Highest (e :: entries) n s :=
      fun _ _ => mem_insertMax h
    refine ⟨hasc, fun n s => (hmem n s).trans ((highest_append hins es).trans ?_)⟩
    apply Highest.congr
    intro f
    simp only [List.cons_append, List.mem_cons, List.mem_append]
    tauto

theorem ascending_ofList (es : List (String × Int)) : Ascending (ofList es).entries :=
  (foldl_insertMax (.nil : Ascending []) es).1

theorem mem_ofList {es : List (String × Int)} :
    (n, s) ∈ (ofList es).entries ↔ Highest es n s :=
  (foldl_insertMax (.nil : Ascending []) es).2 n s

/-- A board has the names of its entries: the highest score of a name is one of its scores. -/
theorem mem_names_ofList {es : List (String × Int)} :
    n ∈ (ofList es).entries.map (·.1) ↔ n ∈ es.map (·.1) := by
  constructor
  · intro hn
    obtain ⟨e, he, rfl⟩ := List.mem_map.1 hn
    exact List.mem_map.2 ⟨e, (mem_ofList.1 he).1, rfl⟩
  · intro hn
    obtain ⟨e, he, rfl⟩ := List.mem_map.1 hn
    obtain ⟨t, -, ht⟩ := exists_highest (n := e.1) (s := e.2) he
    exact List.mem_map.2 ⟨(e.1, t), mem_ofList.2 ht, rfl⟩

/-- A board depends only on which entries there are. -/
theorem ofList_congr {es es' : List (String × Int)} (h : ∀ e, e ∈ es ↔ e ∈ es') :
    ofList es = ofList es' := by
  have hentries : (ofList es).entries = (ofList es').entries := by
    apply (ascending_ofList es).ext (ascending_ofList es')
    rintro ⟨n, s⟩
    rw [mem_ofList, mem_ofList, Highest.congr h]
  exact congrArg Scoreboard.mk hentries

end Scoreboard

end NodeRanking
