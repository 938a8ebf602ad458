import Mathlib.Data.List.TakeWhile
import NodeRanking.Decimal.Literal
import NodeRanking.Proofs.Decimal.Digits

/-!
# The grammar of decimal literals

A literal is a sign, a mantissa and an exponent, of which only the mantissa has to be there
(`IsLiteral`). The reader takes a text apart from the left, by its first characters; each part is
read exactly where it is written (`exponent?_eq_some_iff`, `unsigned?_eq_some_iff`), and so is the
whole (`literal?_eq_some_iff`).
-/

namespace NodeRanking

namespace Decimal

/-! ## The grammar -/

/-- A sign that may be left out, and whether it is a minus. -/
inductive IsSign : List Char → Bool → Prop
  | none : IsSign [] false
  | plus : IsSign ['+'] false
  | minus : IsSign ['-'] true

/-- A run of digits, which may be empty. -/
def IsRun (ds : List Char) : Prop := ∀ c ∈ ds, Digits.isDigit c = true

/-- Digits with a point among, before or after them, or without one: the text, its digits, and the
number of those behind the point. -/
inductive IsMantissa : List Char → List Char → ℕ → Prop
  | whole {ds : List Char} : IsRun ds → ds ≠ [] → IsMantissa ds ds 0
  | pointed {ds es : List Char} : IsRun ds → IsRun es → ds ++ es ≠ [] →
      IsMantissa (ds ++ '.' :: es) (ds ++ es) es.length

/-- An exponent that may be left out, and its value. -/
inductive IsExponent : List Char → ℤ → Prop
  | none : IsExponent [] 0
  | some {c : Char} {sign ds : List Char} {negative : Bool} : c = 'e' ∨ c = 'E' →
      IsSign sign negative → IsRun ds → ds ≠ [] →
      IsExponent (c :: (sign ++ ds)) (if negative then -(Digits.value ds : ℤ) else Digits.value ds)

/-- A literal with its sign and its decimal. -/
inductive IsLiteral : List Char → Bool → Decimal → Prop
  | mk {sign mantissa digits exponent : List Char} {negative : Bool} {places : ℕ} {e : ℤ} :
      IsSign sign negative → IsMantissa mantissa digits places → IsExponent exponent e →
      IsLiteral (sign ++ (mantissa ++ exponent)) negative ⟨Digits.value digits, e - places⟩

/-! ## Characters of a literal -/

def isSign (c : Char) : Bool := c = '+' || c = '-'

/-- Whether a character can stand in a literal. -/
def isNumeric (c : Char) : Bool :=
  Digits.isDigit c || c = '.' || c = 'e' || c = 'E' || isSign c

theorem isNumeric_of_isDigit {c : Char} (h : Digits.isDigit c = true) : isNumeric c = true := by
  simp [isNumeric, h]

variable {cs sign mantissa digits exponent ds : List Char} {negative : Bool} {places : ℕ} {e : ℤ}
  {d : Decimal}

theorem IsRun.isNumeric (h : IsRun ds) : ∀ c ∈ ds, isNumeric c = true :=
  fun c hc => isNumeric_of_isDigit (h c hc)

theorem IsSign.isNumeric (h : IsSign sign negative) : ∀ c ∈ sign, isNumeric c = true := by
  cases h <;> simp [Decimal.isNumeric, isSign]

theorem IsMantissa.isNumeric (h : IsMantissa mantissa digits places) :
    ∀ c ∈ mantissa, isNumeric c = true := by
  intro c hc
  cases h with
  | whole hds _ => exact hds.isNumeric c hc
  | pointed hds hes _ =>
    rcases List.mem_append.1 hc with hc | hc
    · exact hds.isNumeric c hc
    rcases List.mem_cons.1 hc with rfl | hc
    · rfl
    · exact hes.isNumeric c hc

theorem IsExponent.isNumeric (h : IsExponent exponent e) : ∀ c ∈ exponent, isNumeric c = true := by
  intro c hc
  cases h with
  | none => exact absurd hc List.not_mem_nil
  | some hmark hsign hds _ =>
    rcases List.mem_cons.1 hc with rfl | hc
    · rcases hmark with rfl | rfl <;> rfl
    rcases List.mem_append.1 hc with hc | hc
    · exact hsign.isNumeric c hc
    · exact hds.isNumeric c hc

theorem IsLiteral.isNumeric (h : IsLiteral cs negative d) : ∀ c ∈ cs, isNumeric c = true := by
  obtain ⟨hsign, hmantissa, hexponent⟩ := h
  intro c hc
  rcases List.mem_append.1 hc with hc | hc
  · exact hsign.isNumeric c hc
  rcases List.mem_append.1 hc with hc | hc
  · exact hmantissa.isNumeric c hc
  · exact hexponent.isNumeric c hc

theorem IsMantissa.ne_nil (h : IsMantissa mantissa digits places) : mantissa ≠ [] := by
  cases h with
  | whole _ hne => exact hne
  | pointed _ _ _ => simp

theorem IsLiteral.ne_nil (h : IsLiteral cs negative d) : cs ≠ [] := by
  obtain ⟨-, hmantissa, -⟩ := h
  simp [hmantissa.ne_nil]

/-! ## Signs -/

theorem exists_isSign (cs : List Char) :
    ∃ sign, IsSign sign (splitSign cs).1 ∧ cs = sign ++ (splitSign cs).2 := by
  unfold splitSign
  split
  · exact ⟨['-'], .minus, rfl⟩
  · exact ⟨['+'], .plus, rfl⟩
  · exact ⟨[], .none, rfl⟩

theorem IsSign.splitSign_append (h : IsSign sign negative) (hcs : Text.Stops isSign cs) :
    splitSign (sign ++ cs) = (negative, cs) := by
  cases h with
  | plus => rfl
  | minus => rfl
  | none =>
    rw [List.nil_append]
    unfold splitSign
    split
    · exact absurd (Text.stops_cons.1 hcs) (by decide)
    · exact absurd (Text.stops_cons.1 hcs) (by decide)
    · rfl

theorem isSign_of_isDigit {c : Char} (h : Digits.isDigit c = true) : isSign c = false := by
  have hplus : c ≠ '+' := Text.ne_of_kind h rfl
  have hminus : c ≠ '-' := Text.ne_of_kind h rfl
  simp [isSign, hplus, hminus]

theorem IsRun.stops_isSign (h : IsRun ds) (hne : ds ≠ []) : Text.Stops isSign ds := by
  obtain ⟨c, cs, rfl⟩ := List.exists_cons_of_ne_nil hne
  exact Text.stops_cons.2 (isSign_of_isDigit (h c (by simp)))

theorem IsMantissa.stops_isSign (h : IsMantissa mantissa digits places) :
    Text.Stops isSign mantissa := by
  cases h with
  | whole hds hne => exact hds.stops_isSign hne
  | @pointed ds es hds _ _ =>
    by_cases hne : ds = []
    · subst hne
      exact Text.stops_cons.2 rfl
    · exact (hds.stops_isSign hne).append hne _

/-! ## Exponents -/

theorem IsExponent.stops_isDigit (h : IsExponent exponent e) :
    Text.Stops Digits.isDigit exponent := by
  cases h with
  | none => exact Text.stops_nil
  | some hmark _ _ _ => exact Text.stops_cons.2 (by rcases hmark with rfl | rfl <;> rfl)

/-- What is read as an exponent is what is written as one. -/
theorem exponent?_eq_some_iff : exponent? cs = some e ↔ IsExponent cs e := by
  constructor
  · intro h
    cases cs with
    | nil =>
      obtain rfl : 0 = e := by simpa [exponent?] using h
      exact .none
    | cons c cs =>
      obtain ⟨sign, hsign, hcs⟩ := exists_isSign cs
      unfold exponent? at h
      dsimp only at h
      split_ifs at h with hmark hds hnegative
      all_goals
        obtain rfl := Option.some.inj h
        have hrun : IsRun (splitSign cs).2 := fun c hc => List.all_eq_true.1 hds.2 c hc
        have hexponent := IsExponent.some hmark hsign hrun hds.1
        simpa [← hcs, hnegative] using hexponent
  · intro h
    cases h with
    | none => rfl
    | some hmark hsign hds hne =>
      have hall : _ := List.all_eq_true.2 hds
      simp only [exponent?, hmark, hsign.splitSign_append (hds.stops_isSign hne), hne, hall,
        ne_eq, not_false_eq_true, and_self, if_true]

/-! ## Literals -/

theorem isRun_split (cs : List Char) : IsRun (Digits.split cs).1 :=
  fun _ hc => List.mem_takeWhile_imp hc

/-- What is read as a decimal without a sign is what is written as one. -/
theorem unsigned?_eq_some_iff : unsigned? cs = some d ↔
    ∃ mantissa digits places exponent e, cs = mantissa ++ exponent ∧
      IsMantissa mantissa digits places ∧ IsExponent exponent e ∧
      d = ⟨Digits.value digits, e - places⟩ := by
  constructor
  · intro h
    have hsplit := Digits.split_append cs
    have hwhole := isRun_split cs
    unfold unsigned? at h
    generalize Digits.split cs = parts at h hsplit hwhole
    obtain ⟨whole, rest⟩ := parts
    subst hsplit
    dsimp only at h hwhole
    unfold splitFraction at h
    split at h
    case h_1 rest' =>
      have hsplit' := Digits.split_append rest'
      have hfraction := isRun_split rest'
      generalize Digits.split rest' = parts at h hsplit' hfraction
      obtain ⟨fraction, exponent⟩ := parts
      subst hsplit'
      dsimp only at h hfraction
      split_ifs at h with hempty
      obtain ⟨e, he, rfl⟩ := Option.map_eq_some_iff.1 h
      exact ⟨_, _, _, exponent, e, by simp,
        .pointed hwhole hfraction (by simpa using hempty), exponent?_eq_some_iff.1 he, rfl⟩
    case h_2 =>
      dsimp only at h
      split_ifs at h with hempty
      obtain ⟨e, he, rfl⟩ := Option.map_eq_some_iff.1 h
      exact ⟨_, _, _, rest, e, rfl, .whole hwhole (by simpa using hempty),
        exponent?_eq_some_iff.1 he, by simp⟩
  · rintro ⟨mantissa, digits, places, exponent, e, rfl, hmantissa, hexponent, rfl⟩
    have he := exponent?_eq_some_iff.2 hexponent
    have hstops := hexponent.stops_isDigit
    cases hmantissa with
    | whole hds hne =>
      have hpoint : splitFraction exponent = ([], exponent) := by
        cases hexponent with
        | none => rfl
        | some hmark _ _ _ => rcases hmark with rfl | rfl <;> rfl
      simp [unsigned?, Digits.split_append_of_stops hds hstops, hpoint, hne, he]
    | @pointed ds es hds hes hne =>
      have hwhole : Digits.split (ds ++ '.' :: (es ++ exponent)) = (ds, '.' :: (es ++ exponent)) :=
        Digits.split_append_of_stops hds (Text.stops_cons.2 rfl)
      have hne' : ¬(ds = [] ∧ es = []) := by simpa using hne
      simp [unsigned?, hwhole, splitFraction, Digits.split_append_of_stops hes hstops, hne', he]

/-- What is read as a literal is what is written as one. -/
theorem literal?_eq_some_iff : literal? cs = some (negative, d) ↔ IsLiteral cs negative d := by
  constructor
  · intro h
    obtain ⟨sign, hsign, hcs⟩ := exists_isSign cs
    unfold literal? at h
    generalize splitSign cs = parts at h hsign hcs
    obtain ⟨negative', rest⟩ := parts
    obtain ⟨d', hd', heq⟩ := Option.map_eq_some_iff.1 h
    obtain ⟨rfl, rfl⟩ := Prod.mk.injEq .. ▸ heq
    obtain ⟨_, _, _, _, _, rfl, hmantissa, hexponent, rfl⟩ := unsigned?_eq_some_iff.1 hd'
    subst hcs
    exact .mk hsign hmantissa hexponent
  · rintro ⟨hsign, hmantissa, hexponent⟩
    have hunsigned := unsigned?_eq_some_iff.2 ⟨_, _, _, _, _, rfl, hmantissa, hexponent, rfl⟩
    unfold literal?
    rw [hsign.splitSign_append (hmantissa.stops_isSign.append hmantissa.ne_nil _)]
    dsimp only
    rw [hunsigned, Option.map_some]

end Decimal

end NodeRanking
