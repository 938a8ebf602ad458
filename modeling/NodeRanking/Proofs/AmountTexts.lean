import NodeRanking.Proofs.Amount.Number
import NodeRanking.Proofs.Amount.Spelling
import NodeRanking.Proofs.Decimal.Value

/-!
# The texts of amounts

1. A text is an amount of a resource when it spells a number that is finite and not below zero, and
   the product with its unit is not too large (`ofText?_accepts`). No text ends in two units, so it
   does not matter in which order units are tried (`splitBy?_perm`).
2. Of two numbers of one unit the smaller one is an amount wherever the larger one is, and not a
   larger amount (`ofText?_mono`): every step from the digits to the amount keeps the order.
-/

namespace NodeRanking

open Binary64

attribute [local irreducible] Binary64.one Binary64.limit

namespace Amount

variable {resource : Resource} {raw raw' : String} {negative negative' : Bool} {d d' : Decimal}
  {unit cs : List Char} {size : ℕ}

/-! ## Units in any order -/

/-- The number in front of the first unit of a table that a text ends with, and the base units in
that unit. -/
def splitBy? (table : List (List Char × ℕ)) (cs : List Char) : Option (List Char × ℕ) :=
  table.findSome? fun (unit, size) => (Text.dropSuffix? unit cs).map (·, size)

theorem splitUnit?_eq (resource : Resource) (cs : List Char) :
    splitUnit? resource cs = splitBy? (suffixes resource ++ [([], plainSize resource)]) cs := by
  rw [← units_eq]
  rfl

/-- No text ends in two suffixes. -/
theorem eq_of_suffixes {u v : List Char × ℕ} (hu : u ∈ suffixes resource)
    (hv : v ∈ suffixes resource) (hcs : u.1 <:+ cs) (hcs' : v.1 <:+ cs) : u = v := by
  have hall : ∀ u ∈ suffixes resource, ∀ v ∈ suffixes resource, u.1 <:+ v.1 → u = v := by
    cases resource <;> decide
  rcases List.suffix_or_suffix_of_suffix hcs hcs' with h | h
  · exact hall u hu v hv h
  · exact (hall v hv u hu h).symm

/-- A table of which a text ends in at most one unit gives that one, wherever it stands. -/
theorem splitBy?_eq_some_iff {table : List (List Char × ℕ)} {front : List Char}
    (h : ∀ u ∈ table, ∀ v ∈ table, u.1 <:+ cs → v.1 <:+ cs → u = v) :
    splitBy? table cs = some (front, size) ↔ ∃ unit, (unit, size) ∈ table ∧ cs = front ++ unit := by
  constructor
  · intro hfound
    obtain ⟨⟨unit, size'⟩, hmem, heq⟩ := List.exists_of_findSome?_eq_some hfound
    obtain ⟨hcs, rfl⟩ := dropUnit_eq_some_iff.1 heq
    exact ⟨unit, hmem, hcs⟩
  · rintro ⟨unit, hmem, hcs⟩
    cases hfound : splitBy? table cs with
    | none =>
      have hsome : (Text.dropSuffix? unit cs).map (·, size) = some (front, size) :=
        dropUnit_eq_some_iff.2 ⟨hcs, rfl⟩
      have hnone := List.findSome?_eq_none_iff.1 hfound _ hmem
      exact absurd (hsome.symm.trans hnone) (Option.some_ne_none _)
    | some found =>
      obtain ⟨⟨unit', size'⟩, hmem', heq⟩ := List.exists_of_findSome?_eq_some hfound
      obtain ⟨hcs', hsize⟩ := dropUnit_eq_some_iff.1 heq
      obtain ⟨rfl, rfl⟩ := Prod.mk.injEq .. ▸ h _ hmem _ hmem' ⟨front, hcs.symm⟩ ⟨found.1, hcs'.symm⟩
      have hfront : front = found.1 := List.append_cancel_right (hcs.symm.trans hcs')
      rw [hfront, hsize]

/-- Suffixes may be tried in any order. -/
theorem splitBy?_perm {table : List (List Char × ℕ)} (h : table.Perm (suffixes resource))
    (cs : List Char) :
    splitBy? (table ++ [([], plainSize resource)]) cs = splitUnit? resource cs := by
  have hsuffixes : splitBy? table cs = splitBy? (suffixes resource) cs := by
    apply Option.ext
    rintro ⟨front, size⟩
    rw [splitBy?_eq_some_iff fun u hu v hv => eq_of_suffixes (h.mem_iff.1 hu) (h.mem_iff.1 hv),
      splitBy?_eq_some_iff fun u hu v hv => eq_of_suffixes hu hv]
    simp only [h.mem_iff]
  rw [splitUnit?_eq]
  unfold splitBy? at hsuffixes ⊢
  rw [List.findSome?_append, List.findSome?_append, hsuffixes]

/-! ## Which texts are amounts -/

/-- The texts of amounts, but for a bound from above: a number that is finite and not below zero,
with a unit or without one. -/
def IsAmountText (resource : Resource) (raw : String) : Prop :=
  ∃ negative d unit size, Spells resource raw negative d unit size ∧
    Nonnegative (d.toBinary64 negative)

theorem ofText?_eq_none (h : ¬IsAmountText resource raw) : ofText? resource raw = none := by
  cases ha : ofText? resource raw with
  | none => rfl
  | some a => exact absurd (exists_spells_of_ofText? ha) h

/-- The base units in a unit are a number from zero on. -/
theorem nonnegative_size (h : IsUnit resource unit size) :
    Nonnegative (Binary64.ofNat size) ∧ (Binary64.ofNat size).height = size * one := by
  have hle := (size_le h).2
  refine ⟨nonnegative_of_unsigned ?_ (unsigned_ofNat size), height_ofNat_of_le hle⟩
  exact isFinite_ofNat (hle.trans (show 2 ^ 53 ≤ UInt64.size by decide))

/-- A product with a unit is no larger than a bound of the exact product that is on the grid. -/
theorem height_mul_size_le {x : Binary64} (h : IsUnit resource unit size)
    (hx : x.isFinite = true) {bound : ℕ} (hbound : OnGrid bound) (hle : x.height * size ≤ bound) :
    (x * Binary64.ofNat size).height ≤ bound := by
  obtain ⟨hsize, hheight⟩ := nonnegative_size h
  rw [height_mul hx hsize.1, hheight, ← Nat.mul_assoc]
  exact (min_le_left _ _).trans
    (nearest_le Binary64.one_pos hbound (Nat.mul_le_mul_right one hle))

/-- Where the exact product is rounded to less than `2 ^ 64`, there is an amount. -/
theorem Spells.exists_of_exact (h : Spells resource raw negative d unit size)
    (hx : Nonnegative (d.toBinary64 negative))
    (hlt : roundHalfUp ((d.toBinary64 negative).height * size) one < UInt64.size) :
    ∃ a, ofText? resource raw = some a := by
  obtain ⟨hsize, -⟩ := nonnegative_size h.isUnit
  have hexact : (d.toBinary64 negative).height * size ≤ UInt64.size * one := by
    have herr := (roundHalfUp_error ((d.toBinary64 negative).height * size) Binary64.one_pos).2
    have hmul := Nat.mul_le_mul_left one (Nat.succ_le_of_lt hlt)
    rw [Nat.mul_succ, Nat.mul_comm one UInt64.size] at hmul
    omega
  have hheight := height_mul_size_le h.isUnit hx.1 onGrid_wordSize_mul_one hexact
  have hproduct : Nonnegative (d.toBinary64 negative * Binary64.ofNat size) := by
    refine ⟨isFinite_iff.2 ⟨mul_ne_nan hx.1 hsize.1, hheight.trans_lt wordSize_mul_one_lt⟩, ?_⟩
    exact (mul_mono_right hsize hx.2 (le_self (ne_nan_of_isFinite hx.1)) hx.1).1
  obtain ⟨a, ha⟩ := exists_of_height_le hproduct hheight
  exact ⟨a, h.ofText?_eq_some_iff.2 ⟨hx, ha⟩⟩

/-- Where the product is rounded to less than `2 ^ 64`, that is the amount. -/
theorem Spells.exists_same (h : Spells resource raw negative d unit size)
    (hx : Nonnegative (d.toBinary64 negative))
    (hlt : (d.toBinary64 negative * Binary64.ofNat size).round < ceiling) :
    ∃ a, ofText? resource raw = some a ∧
      (d.toBinary64 negative * Binary64.ofNat size).round.Same (Binary64.ofNat a.toNat) := by
  obtain ⟨hsize, -⟩ := nonnegative_size h.isUnit
  have h0 := (mul_mono_right hsize hx.2 (le_self (ne_nan_of_isFinite hx.1)) hx.1).1
  obtain ⟨a, ha, hsame⟩ := exists_same_of_lt_ceiling h0 hlt
  exact ⟨a, h.ofText?_eq_some_iff.2 ⟨hx, ha⟩, hsame⟩

/-- A text that spells no number from zero on is refused, and the fault says the whole text. One that
spells such a number of a unit is an amount as long as the product of both is rounded to less than
`2 ^ 64`, whether the product is taken exactly or as a binary number. No text ends in two suffixes,
so these may be tried in any order. -/
theorem ofText?_accepts (resource : Resource) (raw : String) :
    (¬IsAmountText resource raw →
      parse resource raw = .error (.amount raw) ∧
        ofData resource (.text raw) = .error (Fault.amount raw).inDocument) ∧
    (∀ negative d unit size, Spells resource raw negative d unit size →
      Nonnegative (d.toBinary64 negative) →
      (roundHalfUp ((d.toBinary64 negative).height * size) one < UInt64.size →
        ∃ a, parse resource raw = .ok a) ∧
      ((d.toBinary64 negative * Binary64.ofNat size).round < ceiling →
        ∃ a, parse resource raw = .ok a ∧ ofData resource (.text raw) = .ok a ∧
          (d.toBinary64 negative * Binary64.ofNat size).round.Same (Binary64.ofNat a.toNat))) ∧
    (∀ cs, ∀ u ∈ suffixes resource, ∀ v ∈ suffixes resource, u ≠ v → u.1 <:+ cs → ¬v.1 <:+ cs) ∧
    ∀ table cs, table.Perm (suffixes resource) →
      splitBy? (table ++ [([], plainSize resource)]) cs = splitUnit? resource cs := by
  refine ⟨fun h => parse_of_none (ofText?_eq_none h),
    fun negative d unit size h hx => ⟨fun hlt => ?_, fun hlt => ?_⟩,
    fun cs u hu v hv hne hcs hcs' => hne (eq_of_suffixes hu hv hcs hcs'),
    fun table cs h => splitBy?_perm h cs⟩
  · obtain ⟨a, ha⟩ := h.exists_of_exact hx hlt
    exact ⟨a, (parse_of_some ha).1⟩
  · obtain ⟨a, ha, hsame⟩ := h.exists_same hx hlt
    obtain ⟨hparse, hread⟩ := parse_of_some ha
    exact ⟨a, hparse, hread, hsame⟩

/-- A text with two units, and one with a sign, a point, an exponent and blanks. -/
theorem ofText?_accepts_gibibytes :
    (¬IsAmountText .memory " 5MiKi" ∧ parse .memory " 5MiKi" = .error (.amount " 5MiKi")) ∧
    ((Spells .memory "\t+1.5e1 Gi " false ⟨15, 0⟩ ['G', 'i'] (2 ^ 30) ∧
        Nonnegative (Decimal.toBinary64 false ⟨15, 0⟩)) ∧
      (roundHalfUp ((Decimal.toBinary64 false ⟨15, 0⟩).height * 2 ^ 30) one < UInt64.size ∧
        ∃ a, parse .memory "\t+1.5e1 Gi " = .ok a) ∧
      (Decimal.toBinary64 false ⟨15, 0⟩ * Binary64.ofNat (2 ^ 30)).round < ceiling ∧
        ∃ a, ofData .memory (.text "\t+1.5e1 Gi ") = .ok a) ∧
    ((['K', 'i'], 2 ^ 10) ∈ suffixes .memory ∧ (['M', 'i'], 2 ^ 20) ∈ suffixes .memory ∧
      ['K', 'i'] <:+ ['5', 'M', 'i', 'K', 'i'] ∧ ¬['M', 'i'] <:+ ['5', 'M', 'i', 'K', 'i']) ∧
    (suffixes .memory).reverse.Perm (suffixes .memory) ∧
      splitBy? ((suffixes .memory).reverse ++ [([], 1)]) ['1', 'K', 'i'] =
        splitUnit? .memory ['1', 'K', 'i'] := by
  have hnone : ¬IsAmountText .memory " 5MiKi" := by
    rintro ⟨negative, d, unit, size, h, -⟩
    obtain ⟨cs, hsplit, hliteral⟩ := h.exists_split
    have hmega : splitUnit? .memory (Text.trim " 5MiKi".toList) = some (['5', 'M', 'i'], 1024) := by
      decide
    obtain ⟨rfl, -⟩ := Prod.mk.injEq .. ▸ Option.some.inj (hmega.symm.trans hsplit)
    have hno : Decimal.literal? (Text.trim ['5', 'M', 'i']) = none := by decide
    exact absurd (hno.symm.trans hliteral) (by simp)
  have hspace : Text.Blank [' '] := List.forall_mem_singleton.2 rfl
  have hspells : Spells .memory "\t+1.5e1 Gi " false ⟨15, 0⟩ ['G', 'i'] (2 ^ 30) :=
    ⟨.inl (by decide), ['\t'], "+1.5e1".toList, [' '], [' '], by decide,
      List.forall_mem_singleton.2 rfl, hspace, hspace,
      Decimal.literal?_eq_some_iff.1 (by decide)⟩
  have hnumber : (Decimal.toBinary64 false ⟨15, 0⟩).isFinite = true ∧
      0 ≤ Decimal.toBinary64 false ⟨15, 0⟩ ∧
      roundHalfUp ((Decimal.toBinary64 false ⟨15, 0⟩).height * 2 ^ 30) one < UInt64.size ∧
      (Decimal.toBinary64 false ⟨15, 0⟩ * Binary64.ofNat (2 ^ 30)).round < ceiling := by
    decide +kernel
  obtain ⟨hfin, h0, hexact, hproduct⟩ := hnumber
  have hki : (['K', 'i'], 2 ^ 10) ∈ suffixes .memory := by decide
  have hmi : (['M', 'i'], 2 ^ 20) ∈ suffixes .memory := by decide
  have hsuffix : ['K', 'i'] <:+ ['5', 'M', 'i', 'K', 'i'] := ⟨['5', 'M', 'i'], rfl⟩
  have hperm : (suffixes .memory).reverse.Perm (suffixes .memory) := List.reverse_perm _
  obtain ⟨hrefused, -, hunique, horder⟩ := ofText?_accepts .memory " 5MiKi"
  obtain ⟨-, haccepted, -⟩ := ofText?_accepts .memory "\t+1.5e1 Gi "
  obtain ⟨hreads, hreads'⟩ := haccepted _ _ _ _ hspells ⟨hfin, h0⟩
  obtain ⟨a, -, ha, -⟩ := hreads' hproduct
  exact ⟨⟨hnone, (hrefused hnone).1⟩, ⟨⟨hspells, hfin, h0⟩, ⟨hexact, hreads hexact⟩, hproduct, a, ha⟩,
    ⟨hki, hmi, hsuffix, hunique _ _ hki _ hmi (by decide) hsuffix⟩, hperm, horder _ _ hperm⟩

/-! ## The order of amounts -/

theorem zero_le_toBinary64 (h : 0 ≤ Decimal.signedValue negative d) :
    0 ≤ d.toBinary64 negative := by
  have hzero : Decimal.signedValue false ⟨0, 0⟩ ≤ Decimal.signedValue negative d := by
    simpa [Decimal.signedValue, Decimal.value] using h
  have hle := Decimal.toBinary64_mono hzero
  rwa [Decimal.toBinary64_whole] at hle

/-- Of two numbers of one unit, the smaller one not below zero: where the larger one has an amount,
the smaller one has one that is at most as large. -/
theorem ofText?_mono (h : Spells resource raw negative d unit size)
    (h' : Spells resource raw' negative' d' unit size) (h0 : 0 ≤ Decimal.signedValue negative d)
    (hle : Decimal.signedValue negative d ≤ Decimal.signedValue negative' d') {b : UInt64}
    (hb : ofText? resource raw' = some b) : ∃ a, ofText? resource raw = some a ∧ a ≤ b := by
  obtain ⟨hx', hproduct'⟩ := h'.ofText?_eq_some_iff.1 hb
  have hx0 := zero_le_toBinary64 h0
  have hxle := Decimal.toBinary64_mono hle
  have hx : Nonnegative (d.toBinary64 negative) :=
    ⟨isFinite_of_place_mem (le_iff.1 hxle).1 isFinite_zero hx'.1 (le_iff.1 hx0).2.2
      (le_iff.1 hxle).2.2, hx0⟩
  obtain ⟨hsize, -⟩ := nonnegative_size h.isUnit
  obtain ⟨hproduct0, hproduct⟩ := mul_mono_right hsize hx0 hxle hx'.1
  obtain ⟨a, ha, hab⟩ := ofNumber?_mono hproduct0 hproduct hproduct'
  exact ⟨a, h.ofText?_eq_some_iff.2 ⟨hx, ha⟩, hab⟩

/-- Two numbers that are nearest to the same binary one, in other spellings. -/
theorem ofText?_mono_close :
    (Spells .memory " 15e-1 Ki" false ⟨15, -1⟩ ['K', 'i'] 1024 ∧
      Spells .memory "1.5000000000000000001Ki" false ⟨15000000000000000001, -19⟩ ['K', 'i'] 1024 ∧
      0 ≤ Decimal.signedValue false ⟨15, -1⟩ ∧
      Decimal.signedValue false ⟨15, -1⟩ ≤
        Decimal.signedValue false ⟨15000000000000000001, -19⟩ ∧
      ofText? .memory "1.5000000000000000001Ki" = some 1536) ∧
    ∃ a, ofText? .memory " 15e-1 Ki" = some a ∧ a ≤ 1536 := by
  have hspace : Text.Blank [' '] := List.forall_mem_singleton.2 rfl
  have hsmall : Spells .memory " 15e-1 Ki" false ⟨15, -1⟩ ['K', 'i'] 1024 :=
    ⟨.inl (by decide), [' '], "15e-1".toList, [' '], [], by decide, hspace, hspace, Text.blank_nil,
      Decimal.literal?_eq_some_iff.1 (by decide)⟩
  have hlarge : Spells .memory "1.5000000000000000001Ki" false ⟨15000000000000000001, -19⟩
      ['K', 'i'] 1024 :=
    ⟨.inl (by decide), [], "1.5000000000000000001".toList, [], [], by decide, Text.blank_nil,
      Text.blank_nil, Text.blank_nil, Decimal.literal?_eq_some_iff.1 (by decide)⟩
  have h0 : 0 ≤ Decimal.signedValue false ⟨15, -1⟩ := by
    norm_num [Decimal.signedValue, Decimal.value]
  have hle : Decimal.signedValue false ⟨15, -1⟩ ≤
      Decimal.signedValue false ⟨15000000000000000001, -19⟩ := by
    norm_num [Decimal.signedValue, Decimal.value]
  have hread : ofText? .memory "1.5000000000000000001Ki" = some 1536 := by decide +kernel
  exact ⟨⟨hsmall, hlarge, h0, hle, hread⟩, ofText?_mono hsmall hlarge h0 hle hread⟩

end Amount

end NodeRanking
