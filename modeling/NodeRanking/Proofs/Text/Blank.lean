import Mathlib.Data.List.TakeWhile
import NodeRanking.Proofs.Decimal.Digits
import NodeRanking.Text.Blank

/-!
# The ends of a text

1. `Text.trim` takes blanks off both ends and nothing else: what it leaves stands between two blank
   texts (`exists_trim`), and of a text between blanks that has none at its own ends it leaves that
   text (`trim_append`).
2. `Text.dropSuffix?` is the inverse of appending (`dropSuffix?_eq_some_iff`). Which suffixes without
   characters of some kind a text has is decided behind its last character of that kind
   (`isSuffixOf_append`).
-/

namespace NodeRanking

namespace Text

variable {cs ds lead body tail suffix : List Char} {p : Char → Bool} {c d : Char}

/-! ## Blanks -/

/-- A text of blanks alone. -/
def Blank (cs : List Char) : Prop := ∀ c ∈ cs, isBlank c = true

theorem blank_nil : Blank [] := by
  intro c hc
  exact absurd hc List.not_mem_nil

theorem Blank.append (h : Blank cs) (h' : Blank ds) : Blank (cs ++ ds) := by
  intro c hc
  exact (List.mem_append.1 hc).elim (h c) (h' c)

theorem Blank.reverse (h : Blank cs) : Blank cs.reverse := fun c hc => h c (List.mem_reverse.1 hc)

theorem blank_takeWhile (cs : List Char) : Blank (cs.takeWhile isBlank) :=
  fun _ hc => List.mem_takeWhile_imp hc

theorem exists_trimStart (cs : List Char) : ∃ lead, Blank lead ∧ cs = lead ++ trimStart cs :=
  ⟨cs.takeWhile isBlank, blank_takeWhile cs, List.takeWhile_append_dropWhile.symm⟩

theorem exists_trimEnd (cs : List Char) : ∃ tail, Blank tail ∧ cs = trimEnd cs ++ tail := by
  refine ⟨(cs.reverse.takeWhile isBlank).reverse, (blank_takeWhile _).reverse, ?_⟩
  unfold trimEnd
  rw [← List.reverse_append, List.takeWhile_append_dropWhile, List.reverse_reverse]

/-- Trimming takes off nothing but blanks. -/
theorem exists_trim (cs : List Char) :
    ∃ lead tail, Blank lead ∧ Blank tail ∧ cs = lead ++ (trim cs ++ tail) := by
  obtain ⟨lead, hlead, hstart⟩ := exists_trimStart cs
  obtain ⟨tail, htail, hend⟩ := exists_trimEnd (trimStart cs)
  refine ⟨lead, tail, hlead, htail, ?_⟩
  unfold trim
  rw [← hend, ← hstart]

/-- Trimming takes off all blanks at the ends. -/
theorem trim_append (hlead : Blank lead) (htail : Blank tail) (hne : body ≠ [])
    (hstart : Stops isBlank body) (hend : Stops isBlank body.reverse) :
    trim (lead ++ (body ++ tail)) = body := by
  have hfront : trimStart (lead ++ (body ++ tail)) = body ++ tail :=
    dropWhile_append_of_stops hlead (hstart.append hne tail)
  unfold trim trimEnd
  rw [hfront, List.reverse_append, dropWhile_append_of_stops htail.reverse hend,
    List.reverse_reverse]

theorem isBlank_of_isDigit (h : Digits.isDigit c = true) : isBlank c = false := by
  have hrange : 48 ≤ c.toNat ∧ c.toNat ≤ 57 := by
    simpa [Digits.isDigit, Char.le_def, UInt32.le_iff_toNat_le] using h
  unfold isBlank blankRanges
  simp
  omega

/-! ## Suffixes -/

theorem dropSuffix?_append (suffix cs : List Char) :
    dropSuffix? suffix (cs ++ suffix) = some cs := by
  unfold dropSuffix?
  rw [if_pos (List.isSuffixOf_iff_suffix.2 (List.suffix_append cs suffix))]
  simp

theorem dropSuffix?_eq_some_iff : dropSuffix? suffix cs = some ds ↔ cs = ds ++ suffix := by
  constructor
  · intro h
    unfold dropSuffix? at h
    split_ifs at h with hsuffix
    obtain ⟨front, rfl⟩ := List.isSuffixOf_iff_suffix.1 hsuffix
    obtain rfl : front = ds := by simpa using h
    rfl
  · rintro rfl
    exact dropSuffix?_append suffix ds

/-- Of the suffixes without characters of some kind, a text that goes on behind such a character ends
in those that its last part ends in. -/
theorem isSuffixOf_append (hsuffix : ∀ c ∈ suffix, p c = false) (hd : p d = true)
    (cs last : List Char) : suffix.isSuffixOf (cs ++ [d] ++ last) = suffix.isSuffixOf last := by
  rw [Bool.eq_iff_iff, List.isSuffixOf_iff_suffix, List.isSuffixOf_iff_suffix]
  constructor
  · intro h
    rcases List.suffix_or_suffix_of_suffix h (List.suffix_append (cs ++ [d]) last) with h' | h'
    · exact h'
    · obtain ⟨t, rfl⟩ := h'
      obtain ⟨s, hs⟩ := h
      rw [← List.append_assoc, List.append_left_inj] at hs
      rcases List.eq_nil_or_concat t with rfl | ⟨t, e, rfl⟩
      · exact List.suffix_rfl
      · -- a longer suffix would reach back to that character
        rw [List.concat_eq_append, ← List.append_assoc] at hs
        obtain rfl : e = d := List.singleton_inj.1 (List.append_inj' hs rfl).2
        exact absurd (hsuffix e (by simp)) (by simp [hd])
  · exact fun h => h.trans (List.suffix_append _ _)

theorem dropSuffix?_eq_none (hsuffix : ∀ c ∈ suffix, p c = false) (hd : p d = true)
    (cs : List Char) {last : List Char} (h : suffix.isSuffixOf last = false) :
    dropSuffix? suffix (cs ++ [d] ++ last) = none := by
  unfold dropSuffix?
  rw [isSuffixOf_append hsuffix hd, h, if_neg Bool.false_ne_true]

end Text

end NodeRanking
