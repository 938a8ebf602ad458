import NodeRanking.Amount
import NodeRanking.Proofs.Binary64.Line
import NodeRanking.Proofs.Decimal.Literal
import NodeRanking.Proofs.Text.Blank

/-!
# Spellings of amounts

The units are those of `suffixes`, and that of a number without a suffix (`IsUnit`). A text spells a
number of a unit when it is a literal and the unit, with blanks anywhere but inside of them
(`Spells`). It is read in the first unit of the table that it ends with: units have no characters of
literals and none ends in an earlier one, so that is the unit that was written
(`splitUnit?_append`), and what is left of the text is the literal (`exists_spells_iff`). So the
amount of a text is the product of the number that it spells and the size of its unit
(`ofText?_eq_some_iff`), and a text that spells nothing has none (`exists_spells_of_ofText?`).
-/

namespace NodeRanking

open Binary64

namespace Amount

variable {resource : Resource} {unit cs : List Char} {size : ℕ} {c : Char} {raw : String}
  {negative : Bool} {d : Decimal} {a : UInt64}

/-! ## Units -/

/-- The suffixes that amounts of a resource may have, and the base units that each stands for. -/
def suffixes : Resource → List (List Char × ℕ)
  | .cpu => [(['m'], 1)]
  | .memory =>
    [(['K', 'i'], 2 ^ 10), (['M', 'i'], 2 ^ 20), (['G', 'i'], 2 ^ 30), (['T', 'i'], 2 ^ 40),
      (['k'], 10 ^ 3), (['K'], 10 ^ 3), (['M'], 10 ^ 6), (['G'], 10 ^ 9), (['T'], 10 ^ 12)]

/-- The base units that a number without a suffix counts: thousandths of a core, and bytes. -/
def plainSize : Resource → ℕ
  | .cpu => 1000
  | .memory => 1

/-- A suffix or none, and the base units in it. -/
def IsUnit (resource : Resource) (unit : List Char) (size : ℕ) : Prop :=
  (unit, size) ∈ suffixes resource ∨ unit = [] ∧ size = plainSize resource

/-- The reader knows these units and no other, and tries the empty one last. -/
theorem units_eq (resource : Resource) :
    units resource = suffixes resource ++ [([], plainSize resource)] := by
  cases resource <;> rfl

theorem mem_units_iff : (unit, size) ∈ units resource ↔ IsUnit resource unit size := by
  rw [units_eq, List.mem_append, List.mem_singleton, Prod.mk.injEq]
  rfl

/-- Whether a character can stand in front of a unit. -/
def precedesUnit (c : Char) : Bool := Decimal.isNumeric c || Text.isBlank c

/-- Units have no characters that stand in front of units. -/
theorem precedesUnit_eq_false (h : (unit, size) ∈ units resource) :
    ∀ c ∈ unit, precedesUnit c = false := by
  have hall : ((units resource).all fun u => u.1.all fun c => !precedesUnit c) = true := by
    cases resource <;> rfl
  simp only [List.all_eq_true, Bool.not_eq_true'] at hall
  exact hall _ h

theorem isBlank_eq_false (h : (unit, size) ∈ units resource) :
    ∀ c ∈ unit, Text.isBlank c = false :=
  fun c hc => (Bool.or_eq_false_iff.1 (precedesUnit_eq_false h c hc)).2

/-- No unit has more base units than a binary number counts one by one. -/
theorem size_le (h : IsUnit resource unit size) : 0 < size ∧ size ≤ 2 ^ 53 := by
  have hall : ∀ u ∈ units resource, 0 < u.2 ∧ u.2 ≤ 2 ^ 53 := by
    cases resource <;> decide
  exact hall _ (mem_units_iff.2 h)

/-- No unit ends in one that stands in front of it in the table. -/
theorem find?_units (h : (unit, size) ∈ units resource) :
    (units resource).find? (fun u => u.1.isSuffixOf unit) = some (unit, size) := by
  have hall : ∀ u ∈ units resource,
      (units resource).find? (fun v => v.1.isSuffixOf u.1) = some u := by
    cases resource <;> decide
  exact hall _ h

/-- Behind a literal and blanks the unit of a text is the one that was written. -/
theorem splitUnit?_append (h : (unit, size) ∈ units resource) (hc : precedesUnit c = true)
    (cs : List Char) : splitUnit? resource (cs ++ [c] ++ unit) = some (cs ++ [c], size) := by
  have hfind := find?_units h
  have hclear : ∀ u ∈ units resource, ∀ c ∈ u.1, precedesUnit c = false :=
    fun _ hu => precedesUnit_eq_false hu
  unfold splitUnit?
  -- the units before the one that was written are passed over, whatever the table
  generalize units resource = us at hfind hclear
  induction us with
  | nil => simp at hfind
  | cons u us ih =>
    obtain ⟨v, k⟩ := u
    rw [List.find?_cons] at hfind
    rw [List.findSome?_cons]
    dsimp only at hfind ⊢
    cases hv : v.isSuffixOf unit with
    | true =>
      rw [hv] at hfind
      obtain ⟨rfl, rfl⟩ := Prod.mk.injEq .. ▸ Option.some.inj hfind
      rw [Text.dropSuffix?_append, Option.map_some]
    | false =>
      rw [hv] at hfind
      rw [Text.dropSuffix?_eq_none (hclear (v, k) (by simp)) hc cs hv, Option.map_none]
      exact ih hfind fun w hw => hclear w (List.mem_cons_of_mem _ hw)

theorem dropUnit_eq_some_iff {front : List Char} {size' : ℕ} :
    (Text.dropSuffix? unit cs).map (·, size) = some (front, size') ↔
      cs = front ++ unit ∧ size = size' := by
  simp [Option.map_eq_some_iff, Text.dropSuffix?_eq_some_iff]

theorem of_splitUnit? {front : List Char} (h : splitUnit? resource cs = some (front, size)) :
    ∃ unit, (unit, size) ∈ units resource ∧ cs = front ++ unit := by
  obtain ⟨⟨unit, size'⟩, hmem, hunit⟩ := List.exists_of_findSome?_eq_some h
  obtain ⟨hcs, rfl⟩ := dropUnit_eq_some_iff.1 hunit
  exact ⟨unit, hmem, hcs⟩

/-! ## Literals with a unit -/

theorem isBlank_of_isNumeric (h : Decimal.isNumeric c = true) : Text.isBlank c = false := by
  simp only [Decimal.isNumeric, Decimal.isSign, Bool.or_eq_true, decide_eq_true_eq] at h
  rcases h with (((h | rfl) | rfl) | rfl) | rfl | rfl
  · exact Text.isBlank_of_isDigit h
  all_goals rfl

/-- A literal is not changed by the blanks around it. -/
theorem trim_literal {literal lead tail : List Char} (h : Decimal.IsLiteral literal negative d)
    (hlead : Text.Blank lead) (htail : Text.Blank tail) :
    Text.trim (lead ++ (literal ++ tail)) = literal := by
  have hclear : ∀ c ∈ literal, Text.isBlank c = false :=
    fun c hc => isBlank_of_isNumeric (h.isNumeric c hc)
  exact Text.trim_append hlead htail h.ne_nil (Text.stops_of_forall hclear)
    (Text.stops_of_forall fun c hc => hclear c (List.mem_reverse.1 hc))

/-- A text that is a literal and a unit, with blanks before, between and behind them. -/
structure Spells (resource : Resource) (raw : String) (negative : Bool) (d : Decimal)
    (unit : List Char) (size : ℕ) : Prop where
  isUnit : IsUnit resource unit size
  exists_parts : ∃ lead literal gap tail, raw.toList = lead ++ (literal ++ (gap ++ (unit ++ tail))) ∧
    Text.Blank lead ∧ Text.Blank gap ∧ Text.Blank tail ∧ Decimal.IsLiteral literal negative d

theorem Spells.mem_units (h : Spells resource raw negative d unit size) :
    (unit, size) ∈ units resource := mem_units_iff.2 h.isUnit

/-- What is left of a spelling without the blanks at its ends. -/
theorem Spells.exists_trim (h : Spells resource raw negative d unit size) :
    ∃ literal gap, Text.trim raw.toList = literal ++ gap ++ unit ∧ Text.Blank gap ∧
      Decimal.IsLiteral literal negative d := by
  obtain ⟨lead, literal, gap, tail, hraw, hlead, hgap, htail, hliteral⟩ := h.exists_parts
  by_cases hunit : unit = []
  · -- without a unit the blanks in front of it are at the end
    subst hunit
    refine ⟨literal, [], ?_, Text.blank_nil, hliteral⟩
    rw [hraw, List.nil_append, trim_literal hliteral hlead (hgap.append htail)]
    simp
  · refine ⟨literal, gap, ?_, hgap, hliteral⟩
    have hend : Text.Stops Text.isBlank (literal ++ gap ++ unit).reverse := by
      rw [List.reverse_append]
      refine Text.Stops.append (Text.stops_of_forall fun c hc => ?_) (by simpa using hunit) _
      exact isBlank_eq_false h.mem_units c (List.mem_reverse.1 hc)
    have hstart : Text.Stops Text.isBlank (literal ++ gap ++ unit) := by
      rw [List.append_assoc]
      refine Text.Stops.append (Text.stops_of_forall fun c hc => ?_) hliteral.ne_nil _
      exact isBlank_of_isNumeric (hliteral.isNumeric c hc)
    have hparts : raw.toList = lead ++ (literal ++ gap ++ unit ++ tail) := by
      rw [hraw]
      simp only [List.append_assoc]
    rw [hparts, Text.trim_append hlead htail (by simp [hunit]) hstart hend]

/-- The reader finds the unit and the literal of a spelling. -/
theorem Spells.exists_split (h : Spells resource raw negative d unit size) :
    ∃ cs, splitUnit? resource (Text.trim raw.toList) = some (cs, size) ∧
      Decimal.literal? (Text.trim cs) = some (negative, d) := by
  obtain ⟨literal, gap, htrim, hgap, hliteral⟩ := h.exists_trim
  refine ⟨literal ++ gap, ?_, ?_⟩
  · obtain ⟨cs, c, hcs⟩ := (List.eq_nil_or_concat (literal ++ gap)).resolve_left
      (by simp [hliteral.ne_nil])
    have hc : precedesUnit c = true := by
      have hmem : c ∈ literal ++ gap := by simp [hcs]
      rcases List.mem_append.1 hmem with hmem | hmem
      · exact Bool.or_eq_true_iff.2 (.inl (hliteral.isNumeric c hmem))
      · exact Bool.or_eq_true_iff.2 (.inr (hgap c hmem))
    rw [List.concat_eq_append] at hcs
    rw [htrim, hcs]
    exact splitUnit?_append h.mem_units hc cs
  · have hgap' := trim_literal hliteral Text.blank_nil hgap
    rw [List.nil_append] at hgap'
    rw [hgap']
    exact Decimal.literal?_eq_some_iff.2 hliteral

/-- What the reader takes for a unit and a literal is a spelling. -/
theorem exists_spells_iff : (∃ unit, Spells resource raw negative d unit size) ↔
    ∃ cs, splitUnit? resource (Text.trim raw.toList) = some (cs, size) ∧
      Decimal.literal? (Text.trim cs) = some (negative, d) := by
  constructor
  · rintro ⟨unit, h⟩
    exact h.exists_split
  · rintro ⟨cs, hsplit, hliteral⟩
    obtain ⟨unit, hunit, hcs⟩ := of_splitUnit? hsplit
    obtain ⟨lead, tail, hlead, htail, hraw⟩ := Text.exists_trim raw.toList
    obtain ⟨lead', gap, hlead', hgap, hfront⟩ := Text.exists_trim cs
    refine ⟨unit, mem_units_iff.1 hunit, lead ++ lead', Text.trim cs, gap, tail, ?_,
      hlead.append hlead', hgap, htail, Decimal.literal?_eq_some_iff.1 hliteral⟩
    rw [hraw, hcs]
    conv_lhs => rw [hfront]
    simp only [List.append_assoc]

/-! ## The amount of a spelling -/

theorem numeral?_eq_some_iff {x : Binary64} : numeral? cs = some x ↔
    ∃ negative d, Decimal.literal? (Text.trim cs) = some (negative, d) ∧
      d.toBinary64 negative = x ∧ Nonnegative x := by
  unfold numeral? Binary64.ofLiteral?
  rw [Option.filter_eq_some_iff, Option.map_eq_some_iff, nonnegative_iff]
  constructor
  · rintro ⟨⟨⟨negative, d⟩, hliteral, hx⟩, hnonneg⟩
    exact ⟨negative, d, hliteral, hx, hnonneg⟩
  · rintro ⟨negative, d, hliteral, hx, hnonneg⟩
    exact ⟨⟨(negative, d), hliteral, hx⟩, hnonneg⟩

theorem ofText?_eq_some_iff : ofText? resource raw = some a ↔
    ∃ cs size negative d, splitUnit? resource (Text.trim raw.toList) = some (cs, size) ∧
      Decimal.literal? (Text.trim cs) = some (negative, d) ∧
      Nonnegative (d.toBinary64 negative) ∧
      ofNumber? (d.toBinary64 negative * Binary64.ofNat size) = some a := by
  unfold ofText?
  simp only [Option.bind_eq_bind, Option.bind_eq_some_iff, Prod.exists, numeral?_eq_some_iff]
  constructor
  · rintro ⟨cs, size, hsplit, -, ⟨negative, d, hliteral, rfl, hnonneg⟩, ha⟩
    exact ⟨cs, size, negative, d, hsplit, hliteral, hnonneg, ha⟩
  · rintro ⟨cs, size, negative, d, hsplit, hliteral, hnonneg, ha⟩
    exact ⟨cs, size, hsplit, _, ⟨negative, d, hliteral, rfl, hnonneg⟩, ha⟩

/-- The amount of a spelling is that of the product of its number and its unit. -/
theorem Spells.ofText?_eq_some_iff (h : Spells resource raw negative d unit size) :
    ofText? resource raw = some a ↔ Nonnegative (d.toBinary64 negative) ∧
      ofNumber? (d.toBinary64 negative * Binary64.ofNat size) = some a := by
  obtain ⟨cs, hsplit, hliteral⟩ := h.exists_split
  rw [Amount.ofText?_eq_some_iff]
  constructor
  · rintro ⟨cs', size', negative', d', hsplit', hliteral', hnonneg, ha⟩
    obtain ⟨rfl, rfl⟩ := Prod.mk.injEq .. ▸ Option.some.inj (hsplit.symm.trans hsplit')
    obtain ⟨rfl, rfl⟩ := Prod.mk.injEq .. ▸ Option.some.inj (hliteral.symm.trans hliteral')
    exact ⟨hnonneg, ha⟩
  · rintro ⟨hnonneg, ha⟩
    exact ⟨cs, size, negative, d, hsplit, hliteral, hnonneg, ha⟩

/-- A text that has an amount is parsed as it, also in a document. -/
theorem parse_of_some (h : ofText? resource raw = some a) :
    parse resource raw = .ok a ∧ ofData resource (.text raw) = .ok a := by
  have hparse : parse resource raw = .ok a := by
    unfold parse
    rw [h]
    rfl
  exact ⟨hparse, congrArg (Except.mapError Fault.inDocument) hparse⟩

/-- A text that has none is refused with all that it says. -/
theorem parse_of_none (h : ofText? resource raw = none) :
    parse resource raw = .error (.amount raw) ∧
      ofData resource (.text raw) = .error (Fault.amount raw).inDocument := by
  have hparse : parse resource raw = .error (.amount raw) := by
    unfold parse
    rw [h]
    rfl
  exact ⟨hparse, congrArg (Except.mapError Fault.inDocument) hparse⟩

/-- Only spellings have an amount. -/
theorem exists_spells_of_ofText? (h : ofText? resource raw = some a) :
    ∃ negative d unit size, Spells resource raw negative d unit size ∧
      Nonnegative (d.toBinary64 negative) := by
  obtain ⟨cs, size, negative, d, hsplit, hliteral, hnonneg, -⟩ := ofText?_eq_some_iff.1 h
  obtain ⟨unit, hspells⟩ := exists_spells_iff.2 ⟨cs, hsplit, hliteral⟩
  exact ⟨negative, d, unit, size, hspells, hnonneg⟩

end Amount

end NodeRanking
