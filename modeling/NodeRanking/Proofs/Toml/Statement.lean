import NodeRanking.Proofs.Toml.Number
import NodeRanking.Toml.Document

/-!
# Statements written in TOML

`States cs statements` says that a text consists of these statements. A header on a line of its own
adds one (`States.header`), and so does a key with a value that reads back (`States.assign`); an
empty line adds none (`States.newLine`).
-/

namespace NodeRanking

namespace Toml

attribute [local irreducible] Binary64.one Binary64.limit

variable {cs rest : List Char}

/-! ## Keys -/

/-- A name that can be a key without quotes. -/
def IsBareKey (name : String) : Prop := name.toList ≠ [] ∧ name.toList.all isBare = true

instance (name : String) : Decidable (IsBareKey name) := inferInstanceAs (Decidable (_ ∧ _))

theorem IsBareKey.isBare {name : String} (h : IsBareKey name) :
    ∀ c ∈ name.toList, isBare c = true :=
  List.all_eq_true.1 h.2

theorem IsBareKey.exists_eq_cons {name : String} (h : IsBareKey name) :
    ∃ c cs, name.toList = c :: cs ∧ Toml.isBare c = true := by
  obtain ⟨c, cs, hcons⟩ := List.exists_cons_of_ne_nil h.1
  exact ⟨c, cs, hcons, h.isBare c (by simp [hcons])⟩

theorem isBlank_of_isBare {c : Char} (hc : isBare c = true) : isBlank c = false :=
  isBlank_of_kind hc (by decide) (by decide)

theorem skipBlanks_of_stops (h : Text.Stops isBlank cs) : skipBlanks cs = cs := by
  have hnone : ∀ c ∈ ([] : List Char), isBlank c = true := by simp
  exact Text.dropWhile_append_of_stops hnone h

theorem keyPart?_bare {name : String} (hname : IsBareKey name) (hrest : Text.Stops isBare rest) :
    keyPart? (name.toList ++ rest) = some (name, rest) := by
  have hne := hname.1
  have hbare := hname.isBare
  have htake := Text.takeWhile_append_of_stops hbare hrest
  have hdrop := Text.dropWhile_append_of_stops hbare hrest
  have hquoted : lineText? (name.toList ++ rest) = none := by
    obtain ⟨c, cs, hcons, hc⟩ := hname.exists_eq_cons
    have hdouble : c ≠ '"' := Text.ne_of_kind hc (by decide)
    have hsingle : c ≠ '\'' := Text.ne_of_kind hc (by decide)
    simp [hcons, lineText?, hdouble, hsingle]
  simp [keyPart?, hquoted, htake, hdrop, hne]

/-- A key of one part, in front of anything but a point. -/
theorem key?_bare {name : String} (hname : IsBareKey name) (hrest : Text.Stops isBare rest)
    (hpoint : (skipBlanks rest).head? ≠ some '.') :
    key? (name.toList ++ rest) = some ([name], skipBlanks rest) := by
  obtain ⟨c, cs, hcons, hc⟩ := hname.exists_eq_cons
  have hblank : Text.Stops isBlank (name.toList ++ rest) := by
    simpa [hcons] using isBlank_of_isBare hc
  obtain ⟨count, hcount⟩ : ∃ count, depthLimit = count + 1 :=
    Nat.exists_eq_succ_of_ne_zero (by decide)
  rw [key?, hcount, keyUpTo?, skipBlanks_of_stops hblank, keyPart?_bare hname hrest]
  cases hskip : skipBlanks rest with
  | nil => simp [hskip]
  | cons c cs =>
    have hc : c ≠ '.' := by simpa [hskip] using hpoint
    simp [hskip, hc]

/-! ## Values -/

/-- The text of a value reads back on a line of its own, with a blank in front of it. -/
def Writes (text : String) (d : Data) : Prop :=
  ∀ fuel rest, value? (fuel + 1) depthLimit (skipBlanks (' ' :: (text.toList ++ '\n' :: rest))) =
    some (d, '\n' :: rest)

theorem value?_eq_scalar? {c : Char} (hc : c ≠ '[' ∧ c ≠ '\x7b') (fuel depth : ℕ)
    (cs : List Char) : value? (fuel + 1) depth (c :: cs) = scalar? (c :: cs) := by
  obtain ⟨hlist, htable⟩ := hc
  simp [value?, hlist, htable]

theorem writes_number (x : Binary64) : Writes (Settings.numbers.write x) (.float x) := by
  intro fuel rest
  have hrest : Text.Stops continuesNumber ('\n' :: rest) := by
    simp
    decide
  obtain ⟨c, cs, hstart, hc, hscalar⟩ := scalar?_write x hrest
  obtain ⟨-, hopen, hblank⟩ := of_startsNumber hc
  have hskip : skipBlanks (' ' :: c :: cs) = c :: cs := by
    simp [skipBlanks, List.dropWhile_cons, hblank]
    decide
  rw [hstart, hskip, value?_eq_scalar? hopen, hscalar]

/-- A name of printable characters without a quote or backslash, and not empty. -/
def IsPlainName (name : String) : Prop :=
  name.toList ≠ [] ∧ (name.toList.all fun c => isPrintable c && c ≠ '"' && c ≠ '\\') = true

instance (name : String) : Decidable (IsPlainName name) := inferInstanceAs (Decidable (_ ∧ _))

theorem IsPlainName.isPlain {name : String} (h : IsPlainName name) :
    ∀ c ∈ name.toList, isPrintable c = true ∧ c ≠ '"' ∧ c ≠ '\\' := by
  intro c hc
  simpa [and_assoc] using List.all_eq_true.1 h.2 c hc

theorem basicLine_append {s : List Char} (hs : ∀ c ∈ s, isPrintable c = true ∧ c ≠ '"' ∧ c ≠ '\\')
    {fuel : ℕ} (hfuel : s.length < fuel) :
    basicLine fuel (s ++ '"' :: rest) = some (s, rest) := by
  induction s generalizing fuel with
  | nil =>
    obtain ⟨fuel, rfl⟩ := Nat.exists_eq_succ_of_ne_zero (Nat.ne_of_gt hfuel)
    rfl
  | cons c s ih =>
    obtain ⟨fuel, rfl⟩ := Nat.exists_eq_succ_of_ne_zero (Nat.ne_zero_of_lt hfuel)
    obtain ⟨hprint, hquote, hback⟩ := hs c (by simp)
    have hrest := ih (fun c hc => hs c (by simp [hc])) (by simpa using hfuel)
    rw [List.cons_append, basicLine]
    · simp [hprint, hrest]
    · exact hquote
    · exact hback

theorem writes_quoted {name : String} (hname : IsPlainName name) :
    Writes (Settings.quoted name) (.text name) := by
  intro fuel rest
  obtain ⟨c, cs, hcons⟩ := List.exists_cons_of_ne_nil hname.1
  have hquote : c ≠ '"' := (hname.isPlain c (by simp [hcons])).2.1
  have hline : basicLine ((name.toList ++ '"' :: '\n' :: rest).length + 1)
      (name.toList ++ '"' :: '\n' :: rest) = some (name.toList, '\n' :: rest) :=
    basicLine_append hname.isPlain (by simp)
  have htext : (Settings.quoted name).toList ++ '\n' :: rest =
      '"' :: (name.toList ++ '"' :: '\n' :: rest) := by
    simp [Settings.quoted]
  have hread : text? ('"' :: (name.toList ++ '"' :: '\n' :: rest)) = some (name, '\n' :: rest) := by
    have hone : text? ('"' :: (name.toList ++ '"' :: '\n' :: rest)) =
        lineText? ('"' :: (name.toList ++ '"' :: '\n' :: rest)) := by
      simp [text?, hcons, hquote]
    rw [hone, lineText?, hline]
    simp
  have hskip : skipBlanks (' ' :: '"' :: (name.toList ++ '"' :: '\n' :: rest)) =
      '"' :: (name.toList ++ '"' :: '\n' :: rest) := rfl
  rw [htext, hskip, value?_eq_scalar? (by decide), scalar?, hread]
  rfl

/-! ## Lines -/

/-- A header on a line of its own. -/
theorem statement?_header {name : String} (hname : IsBareKey name) (rest : List Char) :
    statement? ('[' :: (name.toList ++ ']' :: '\n' :: rest)) = some (.table [name], rest) := by
  have hkey : key? (name.toList ++ ']' :: '\n' :: rest) = some ([name], ']' :: '\n' :: rest) :=
    key?_bare hname (Text.stops_cons.2 rfl) (by simp [skipBlanks, isBlank])
  obtain ⟨c, cs, hcons, hbare⟩ := hname.exists_eq_cons
  have hc : c ≠ '[' := Text.ne_of_kind hbare (by decide)
  rw [hcons, List.cons_append] at hkey ⊢
  have hend : finishLine ('\n' :: rest) = some rest := rfl
  rw [statement?]
  · simp [hkey, after?, hend]
  · exact fun _ h => absurd (List.cons.inj h).1 hc

/-- A key with its value on a line of its own. -/
theorem statement?_assign {name text : String} {d : Data} (hname : IsBareKey name)
    (htext : Writes text d) (rest : List Char) :
    statement? (name.toList ++ ' ' :: '=' :: ' ' :: (text.toList ++ '\n' :: rest)) =
      some (.assign [name] d, rest) := by
  have hkey : key? (name.toList ++ ' ' :: '=' :: ' ' :: (text.toList ++ '\n' :: rest)) =
      some ([name], '=' :: ' ' :: (text.toList ++ '\n' :: rest)) :=
    key?_bare hname (Text.stops_cons.2 rfl) (by simp [skipBlanks, isBlank])
  obtain ⟨c, cs, hcons, hbare⟩ := hname.exists_eq_cons
  have hc : c ≠ '[' := Text.ne_of_kind hbare (by decide)
  rw [hcons, List.cons_append] at hkey ⊢
  have hvalue := htext (2 * (skipBlanks (' ' :: (text.toList ++ '\n' :: rest))).length) rest
  have hend : finishLine ('\n' :: rest) = some rest := rfl
  rw [statement?]
  · simp [hkey, after?, hvalue, hend]
  · exact fun _ h => absurd (List.cons.inj h).1 hc
  · exact fun _ h => absurd (List.cons.inj h).1 hc

/-! ## Texts of several lines -/

/-- The text consists of these statements, and all of it is read with any fuel beyond its length. -/
def States (cs : List Char) (statements : List Statement) : Prop :=
  ∀ fuel, cs.length < fuel → statements? fuel cs = some statements

theorem states_nil : States [] [] := by
  intro fuel hfuel
  obtain ⟨fuel, rfl⟩ := Nat.exists_eq_succ_of_ne_zero (Nat.ne_zero_of_lt hfuel)
  rfl

theorem States.newLine {statements : List Statement} (h : States cs statements) :
    States ('\n' :: cs) statements := by
  intro fuel hfuel
  have hrest := h fuel (by simp at hfuel; omega)
  obtain ⟨fuel, rfl⟩ := Nat.exists_eq_succ_of_ne_zero (Nat.ne_zero_of_lt hfuel)
  rw [statements?] at hrest ⊢
  simpa [skipTrivia] using hrest

/-- One more statement in front, which does not start like a blank, a line end or a comment. -/
theorem States.cons {c : Char} {statement : Statement} {statements : List Statement}
    (hc : c ≠ '\r' ∧ c ≠ '\n' ∧ isBlank c = false ∧ c ≠ '#')
    (hfirst : statement? (c :: cs) = some (statement, rest)) (hlength : rest.length ≤ cs.length)
    (h : States rest statements) : States (c :: cs) (statement :: statements) := by
  intro fuel hfuel
  obtain ⟨fuel, rfl⟩ := Nat.exists_eq_succ_of_ne_zero (Nat.ne_zero_of_lt hfuel)
  obtain ⟨hreturn, hfeed, hblank, hcomment⟩ := hc
  have hrest := h fuel (by simp at hfuel; omega)
  have hskip : skipTrivia false (c :: cs) = some (c :: cs) := by
    simp [skipTrivia, hreturn, hfeed, hblank, hcomment]
  rw [statements?, hskip]
  simp [hfirst, hrest]

theorem States.header {name : String} {statements : List Statement} (hname : IsBareKey name)
    (h : States rest statements) :
    States ('[' :: (name.toList ++ ']' :: '\n' :: rest)) (.table [name] :: statements) :=
  h.cons (by decide) (statement?_header hname rest) (by simp; omega)

theorem States.assign {name text : String} {d : Data} {statements : List Statement}
    (hname : IsBareKey name) (htext : Writes text d) (h : States rest statements) :
    States (name.toList ++ ' ' :: '=' :: ' ' :: (text.toList ++ '\n' :: rest))
      (.assign [name] d :: statements) := by
  have hfirst := statement?_assign hname htext rest
  obtain ⟨c, cs, hcons, hbare⟩ := hname.exists_eq_cons
  rw [hcons, List.cons_append] at hfirst ⊢
  refine h.cons ⟨?_, ?_, isBlank_of_isBare hbare, ?_⟩ hfirst (by simp; omega)
  · exact Text.ne_of_kind hbare (by decide)
  · exact Text.ne_of_kind hbare (by decide)
  · exact Text.ne_of_kind hbare (by decide)

end Toml

end NodeRanking
