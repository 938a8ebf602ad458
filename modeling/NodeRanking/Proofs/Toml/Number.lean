import NodeRanking.Proofs.Decimal.Layout
import NodeRanking.Settings.Document
import NodeRanking.Toml.Statement

/-!
# Numbers written in TOML

A number that is written positionally, or as a word, is read back as the same number
(`scalar?_write`). Its text is no date and no time either: the run of digits at its start ends in a
point (`moment?_eq_none`).
-/

namespace NodeRanking

namespace Toml

open Decimal

attribute [local irreducible] Binary64.one Binary64.limit

theorem isBlank_of_kind {p : Char → Bool} {c : Char} (hc : p c = true) (hspace : p ' ' = false)
    (htab : p '\t' = false) : isBlank c = false := by
  have hne : c ≠ ' ' := Text.ne_of_kind hc hspace
  have hne' : c ≠ '\t' := Text.ne_of_kind hc htab
  simp [isBlank, hne, hne']

/-! ## Runs of digits -/

/-- Whether a character continues a run of digits, or a number behind its fraction. -/
def continuesNumber (c : Char) : Bool := Digits.isDigit c || c = '_' || c = 'e' || c = 'E'

variable {ds rest : List Char}

theorem moreDigits_append (hds : ∀ c ∈ ds, Digits.isDigit c = true)
    (hdigit : Text.Stops Digits.isDigit rest) (hline : Text.Stops (· = '_') rest) :
    moreDigits Digits.isDigit (ds ++ rest) = (ds, rest) := by
  induction ds with
  | nil =>
    cases rest with
    | nil => rfl
    | cons c cs =>
      have hc : Digits.isDigit c = false := Text.stops_cons.1 hdigit
      have hne : c ≠ '_' := by simpa using Text.stops_cons.1 hline
      rw [List.nil_append, moreDigits]
      · simp [hc]
      · exact fun _ _ h => absurd h hne
  | cons d ds ih =>
    have hd : Digits.isDigit d = true := hds d (by simp)
    rw [List.cons_append, moreDigits]
    · simp [hd, ih fun c hc => hds c (by simp [hc])]
    · exact fun _ _ h => absurd h (Text.ne_of_kind hd rfl)

theorem digits?_append (hne : ds ≠ []) (hds : ∀ c ∈ ds, Digits.isDigit c = true)
    (hdigit : Text.Stops Digits.isDigit rest) (hline : Text.Stops (· = '_') rest) :
    digits? Digits.isDigit (ds ++ rest) = some (ds, rest) := by
  obtain ⟨d, ds, rfl⟩ := List.exists_cons_of_ne_nil hne
  have hmore : moreDigits Digits.isDigit (ds ++ rest) = (ds, rest) :=
    moreDigits_append (fun c hc => hds c (by simp [hc])) hdigit hline
  simp [digits?, hds d (by simp), hmore]

/-! ## Binary numbers -/

variable {d : Decimal} {whole fraction : List Char}

theorem decimal?_positional (h : Positional whole fraction d) (negative : Bool) (cs : List Char) :
    decimal? (signText negative ++ (whole ++ '.' :: cs)) =
      some ((signText negative, whole), '.' :: cs) := by
  obtain ⟨c, ws, rfl⟩ := List.exists_cons_of_ne_nil h.whole_ne_nil
  have hdigits : digits? Digits.isDigit (c :: (ws ++ '.' :: cs)) = some (c :: ws, '.' :: cs) :=
    digits?_append (by simp) h.isDigit_whole (Text.stops_cons.2 rfl) (by simp)
  have hc : Digits.isDigit c = true := h.isDigit_whole c (by simp)
  have hminus : c ≠ '-' := Text.ne_of_kind hc rfl
  have hplus : c ≠ '+' := Text.ne_of_kind hc rfl
  by_cases hzero : c = '0'
  · subst hzero
    obtain rfl : ws = [] := by simpa using h.eq_of_head?
    cases negative <;> rfl
  · cases negative with
    | true => simp [signText, decimal?, hzero, hdigits]
    | false => simp [signText, decimal?, hminus, hplus, hzero, hdigits]

theorem tail?_positional (h : Positional whole fraction d) (hrest : Text.Stops continuesNumber rest) :
    tail? ('.' :: (fraction ++ rest)) = some ('.' :: fraction, rest) := by
  have hdigit : Text.Stops Digits.isDigit rest := hrest.mono (by simp +contextual [continuesNumber])
  have hline : Text.Stops (· = '_') rest := hrest.mono (by simp [continuesNumber])
  have hfraction : fraction? ('.' :: (fraction ++ rest)) = some ('.' :: fraction, rest) := by
    rw [fraction?, digits?_append h.fraction_ne_nil h.isDigit_fraction hdigit hline]
    rfl
  have hexponent : exponent? rest = none := by
    cases rest with
    | nil => rfl
    | cons c cs =>
      have hc : ¬ (c = 'e' ∨ c = 'E') := by
        rintro (rfl | rfl) <;> simp [continuesNumber] at hrest
      simp [exponent?, hc]
  simp [tail?, hfraction, hexponent]

theorem float?_positional (h : Positional whole fraction d) {negative : Bool}
    (hrest : Text.Stops continuesNumber rest) (hfin : (d.toBinary64 negative).isFinite = true) :
    float? (signText negative ++ (whole ++ '.' :: (fraction ++ rest))) =
      some (d.toBinary64 negative, rest) := by
  have hinf : d.toBinary64 negative ≠ .infinity false := by
    intro heq
    rw [heq] at hfin
    exact absurd hfin (by decide)
  have hliteral := ofLiteral?_positional h negative
  simp [float?, decimal?_positional h, tail?_positional h hrest, hliteral, hinf, guard]

/-! ## No moments -/

/-- A number of fixed width is so many digits at the start of a text. -/
theorem of_field?_eq_some {width low high n : ℕ} {cs after : List Char}
    (h : field? width low high cs = some (n, after)) :
    (cs.take width).length = width ∧ (∀ c ∈ cs.take width, Digits.isDigit c = true) ∧
      after = cs.drop width := by
  simp only [field?, guard, Option.bind_eq_bind] at h
  split_ifs at h with hdigits hrange
  · have hafter : cs.drop width = after := by simpa using (Prod.ext_iff.1 (Option.some.inj h)).2
    exact ⟨hdigits.1, List.all_eq_true.1 hdigits.2, hafter.symm⟩
  all_goals simp at h

theorem field?_eq_none {width low high : ℕ} {cs : List Char} (hw : 0 < width)
    (h : Text.Stops Digits.isDigit cs) : field? width low high cs = none := by
  by_contra hne
  obtain ⟨⟨n, after⟩, hsome⟩ := Option.ne_none_iff_exists'.1 hne
  obtain ⟨hlength, hdigits, -⟩ := of_field?_eq_some hsome
  cases cs with
  | nil =>
    rw [List.take_nil] at hlength
    exact absurd hlength hw.ne
  | cons c cs =>
    obtain ⟨k, rfl⟩ : ∃ k, width = k + 1 := ⟨width - 1, by omega⟩
    have hc : Digits.isDigit c = true := hdigits c (by simp)
    rw [Text.stops_cons.1 h] at hc
    exact absurd hc (by decide)

/-- A number of fixed width in front of a point leaves digits in front of it. -/
theorem exists_of_field? {width low high n : ℕ} {cs after : List Char}
    (hds : ∀ c ∈ ds, Digits.isDigit c = true)
    (h : field? width low high (ds ++ '.' :: cs) = some (n, after)) :
    ∃ ds', (∀ c ∈ ds', Digits.isDigit c = true) ∧ after = ds' ++ '.' :: cs := by
  obtain ⟨-, hdigits, rfl⟩ := of_field?_eq_some h
  have hwidth : width ≤ ds.length := by
    by_contra hlt
    have hpoint : '.' ∈ (ds ++ '.' :: cs).take width := by
      obtain ⟨k, hk⟩ : ∃ k, width = ds.length + (k + 1) := ⟨width - ds.length - 1, by omega⟩
      simp [hk, List.take_append]
    exact absurd (hdigits '.' hpoint) (by decide)
  refine ⟨ds.drop width, fun c hc => hds c (List.mem_of_mem_drop hc), ?_⟩
  rw [List.drop_append_of_le_length hwidth]

theorem after?_eq_none {c : Char} (hc : Digits.isDigit c = false ∧ c ≠ '.')
    (hds : ∀ c ∈ ds, Digits.isDigit c = true) (cs : List Char) :
    after? c (ds ++ '.' :: cs) = none := by
  cases ds with
  | nil => simp [after?, hc.2]
  | cons d ds =>
    have hne : d ≠ c := Text.ne_of_kind (hds d (by simp)) hc.1
    simp [after?, hne.symm]

/-- Behind a number of fixed width in front of a point there is no character but a digit or the
point. -/
theorem after?_of_field? {width low high n : ℕ} {c : Char} {cs after : List Char}
    (hc : Digits.isDigit c = false ∧ c ≠ '.') (hds : ∀ c ∈ ds, Digits.isDigit c = true)
    (h : field? width low high (ds ++ '.' :: cs) = some (n, after)) : after? c after = none := by
  obtain ⟨ds', hds', rfl⟩ := exists_of_field? hds h
  exact after?_eq_none hc hds' cs

/-- No moment starts with a run of digits that ends in a point. -/
theorem moment?_eq_none (hds : ∀ c ∈ ds, Digits.isDigit c = true) (cs : List Char) :
    moment? (ds ++ '.' :: cs) = none := by
  have hdate : date? (ds ++ '.' :: cs) = none := by
    unfold date?
    cases hyear : field? 4 0 9999 (ds ++ '.' :: cs) with
    | none => rfl
    | some result =>
      have hminus : after? '-' result.2 = none := after?_of_field? (by decide) hds hyear
      simp [hminus]
  have htime : time? (ds ++ '.' :: cs) = none := by
    unfold time?
    cases hhour : field? 2 0 23 (ds ++ '.' :: cs) with
    | none => rfl
    | some result =>
      have hcolon : after? ':' result.2 = none := after?_of_field? (by decide) hds hhour
      simp [hcolon]
  simp [moment?, hdate, htime]

/-- Nor does one start with anything but a digit. -/
theorem moment?_eq_none_of_stops {cs : List Char} (h : Text.Stops Digits.isDigit cs) :
    moment? cs = none := by
  have hyear : field? 4 0 9999 cs = none := field?_eq_none (by decide) h
  have hhour : field? 2 0 23 cs = none := field?_eq_none (by decide) h
  simp [moment?, date?, time?, hyear, hhour]

/-! ## All numbers of settings -/

/-- The text of a finite number: its sign, and its shortest decimal in positional notation. -/
theorem toList_write_finite (negative : Bool) {units : ℕ} (h : Binary64.Representable units) :
    (Settings.numbers.write (.finite negative units h)).toList =
      signText negative ++ positionalText true (shortest .up units h) := by
  simp [Layout.write, Layout.decimalText, Settings.numbers, signText]

/-- Whether a written number can start with this character. -/
def startsNumber (c : Char) : Bool := Digits.isDigit c || c = '-' || c = 'n' || c = 'i'

/-- A number starts neither like a text, a word, a list or a table, nor with a blank. -/
theorem of_startsNumber {c : Char} (hc : startsNumber c = true) :
    (c ≠ '"' ∧ c ≠ '\'' ∧ c ≠ 't' ∧ c ≠ 'f') ∧ (c ≠ '[' ∧ c ≠ '\x7b') ∧ isBlank c = false := by
  have hne {e : Char} (he : startsNumber e = false) : c ≠ e := Text.ne_of_kind hc he
  exact ⟨⟨hne rfl, hne rfl, hne rfl, hne rfl⟩, ⟨hne rfl, hne rfl⟩, isBlank_of_kind hc rfl rfl⟩

theorem scalar?_of_float? {c : Char} {cs : List Char} {x : Binary64} (hc : startsNumber c = true)
    (hmoment : moment? (c :: cs) = none) (hfloat : float? (c :: cs) = some (x, rest)) :
    scalar? (c :: cs) = some (.float x, rest) := by
  obtain ⟨⟨hdouble, hsingle, ht, hf⟩, -⟩ := of_startsNumber hc
  simp [scalar?, hdouble, hsingle, ht, hf, hmoment, hfloat]

/-- The start of a written finite number: a minus sign or a digit. -/
theorem exists_signText_append (negative : Bool) (h : Positional whole fraction d)
    (cs : List Char) :
    ∃ c cs', signText negative ++ (whole ++ cs) = c :: cs' ∧ startsNumber c = true := by
  obtain ⟨c, ws, rfl⟩ := List.exists_cons_of_ne_nil h.whole_ne_nil
  cases negative with
  | true => exact ⟨'-', _, rfl, by decide⟩
  | false => exact ⟨c, _, rfl, by simp [startsNumber, h.isDigit_whole c (by simp)]⟩

/-- A written number is read back, up to what follows it. -/
theorem scalar?_write (x : Binary64) (hrest : Text.Stops continuesNumber rest) :
    ∃ c cs, (Settings.numbers.write x).toList ++ rest = c :: cs ∧ startsNumber c = true ∧
      scalar? (c :: cs) = some (.float x, rest) := by
  have hword {c : Char} {cs : List Char} (hc : startsNumber c = true)
      (hdigit : Digits.isDigit c = false) (hfloat : float? (c :: cs) = some (x, rest)) :
      scalar? (c :: cs) = some (.float x, rest) :=
    scalar?_of_float? hc (moment?_eq_none_of_stops (Text.stops_cons.2 hdigit)) hfloat
  cases x with
  | nan => exact ⟨'n', _, rfl, by decide, hword (by decide) (by decide) rfl⟩
  | infinity negative =>
    cases negative with
    | true => exact ⟨'-', _, rfl, by decide, hword (by decide) (by decide) rfl⟩
    | false => exact ⟨'i', _, rfl, by decide, hword (by decide) (by decide) rfl⟩
  | finite negative units h =>
    obtain ⟨whole, fraction, htext, hpos⟩ :=
      exists_positional (exponent_shortest_of_digits_eq_zero .up h)
    have hreads := toBinary64_shortest .up h negative
    have hfloat := float?_positional hpos hrest (by rw [hreads]; rfl)
    have hmoment : moment? (signText negative ++ (whole ++ '.' :: (fraction ++ rest))) = none := by
      cases negative with
      | true => exact moment?_eq_none_of_stops (by simp [signText]; decide)
      | false => exact moment?_eq_none hpos.isDigit_whole _
    obtain ⟨c, cs, hstart, hc⟩ := exists_signText_append negative hpos ('.' :: (fraction ++ rest))
    rw [hreads] at hfloat
    rw [hstart] at hmoment hfloat
    refine ⟨c, cs, ?_, hc, scalar?_of_float? hc hmoment hfloat⟩
    rw [toList_write_finite, htext, ← hstart]
    simp

end Toml

end NodeRanking
