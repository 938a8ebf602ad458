import NodeRanking.Json.Printer
import NodeRanking.Json.Lexeme
import NodeRanking.Proofs.Decimal.Digits

/-!
# Reading the lexemes that a printer writes

`Spells cs ts` says that a text has these tokens, wherever it stands. `IsLexeme` says that a piece
of text is one lexeme in front of what follows it: a character of punctuation, a quoted string
(`isLexeme_quote`), a whole number (`isLexeme_toDigits`), `null`.
-/

namespace NodeRanking

namespace Json

/-! ## Tokens of a text -/

/-- The text has these tokens: wherever it starts, and with any fuel that its length allows. -/
def Spells (cs : List Char) (ts : List Token) : Prop :=
  ∀ fuel mark, cs.length ≤ fuel → (lexFrom fuel mark cs).map Lexeme.token = ts

/-- The piece is one lexeme, given what follows it. -/
structure IsLexeme (piece : List Char) (token : Token) (rest : List Char) : Prop where
  head : ∃ c ∈ piece.head?, isSpace c = false
  scan : ∀ mark, ∃ stop, scanToken mark (piece ++ rest) = some (token, stop, rest)

theorem spells_nil : Spells [] [.finish] := by
  intro fuel mark _
  cases fuel <;> rfl

theorem Spells.space {cs : List Char} {ts : List Token} {c : Char} (hc : isSpace c = true)
    (h : Spells cs ts) : Spells (c :: cs) ts := by
  intro fuel mark hfuel
  cases fuel with
  | zero => simp at hfuel
  | succ fuel =>
    rw [lexFrom, if_pos hc]
    exact h fuel _ (by simpa using hfuel)

theorem Spells.spaces {cs spaces : List Char} {ts : List Token}
    (hs : ∀ c ∈ spaces, isSpace c = true) (h : Spells cs ts) : Spells (spaces ++ cs) ts := by
  induction spaces with
  | nil => exact h
  | cons c spaces ih =>
    have htail : Spells (spaces ++ cs) ts := ih fun d hd => hs d (by simp [hd])
    exact htail.space (hs c (by simp))

theorem IsLexeme.spells {piece rest : List Char} {token : Token} {ts : List Token}
    (hp : IsLexeme piece token rest) (h : Spells rest ts) :
    Spells (piece ++ rest) (token :: ts) := by
  intro fuel mark hfuel
  obtain ⟨c, hc, hspace⟩ := hp.head
  obtain ⟨stop, hscan⟩ := hp.scan mark
  cases piece with
  | nil => simp at hc
  | cons d ds =>
    obtain rfl : d = c := by simpa using hc
    cases fuel with
    | zero => simp at hfuel
    | succ fuel =>
      have hrest : rest.length ≤ fuel := by
        simp only [List.cons_append, List.length_cons, List.length_append] at hfuel
        omega
      rw [List.cons_append] at hscan ⊢
      simp only [lexFrom, hspace, hscan, Bool.false_eq_true, if_false, List.map_cons,
        h fuel stop hrest]

/-! ## Punctuation and words -/

theorem isLexeme_punctuation {c : Char} {token : Token} (rest : List Char)
    (hspace : isSpace c = false) (hquote : c ≠ '"') (hc : punctuation? c = some token) :
    IsLexeme [c] token rest where
  head := ⟨c, rfl, hspace⟩
  scan := by
    intro mark
    refine ⟨mark.along 1, ?_⟩
    rw [List.singleton_append, scanToken]
    · simp only [hc]
    · exact fun h => hquote h

theorem isLexeme_null (rest : List Char) : IsLexeme "null".toList (.scalar .null) rest where
  head := ⟨'n', rfl, rfl⟩
  scan := by
    intro mark
    exact ⟨mark.along 4, rfl⟩

/-! ## Strings -/

/-- The piece stands for one character. -/
def StandsFor (piece : Piece) (c : Char) : Prop :=
  ∀ rest, join? (piece :: rest) = (join? rest).map (c :: ·)

theorem standsFor_char (c : Char) : StandsFor (.char c) c := by
  intro rest
  simp [join?]

theorem standsFor_unit {c : Char} (hc : c.toNat < 0xd800) : StandsFor (.unit c.toNat) c := by
  intro rest
  have hlead : isLeading c.toNat = false := by
    simp [isLeading]
    omega
  have htrail : isTrailing c.toNat = false := by
    simp [isTrailing]
    omega
  rcases rest with _ | ⟨_ | m, rest⟩ <;> simp [join?, hlead, htrail]

theorem hexValue_byteDigits {n : Nat} (hn : n < 0x20) :
    Text.hexValue? (['0', '0'] ++ Text.byteDigits n) = some n := by
  have h : ∀ m < 0x20, Text.hexValue? (['0', '0'] ++ Text.byteDigits m) = some m := by decide
  exact h n hn

/-- The three ways in which a character is written. -/
theorem escape_cases (c : Char) :
    (∃ e, escaped? e = some c ∧ escape c = ['\\', e]) ∨
      (c.toNat < 0x20 ∧ escape c = ['\\', 'u', '0', '0'] ++ Text.byteDigits c.toNat) ∨
      (c ≠ '"' ∧ c ≠ '\\' ∧ 0x20 ≤ c.toNat ∧ escape c = [c]) := by
  unfold escape
  split_ifs with hq hb h8 hc hn hr ht hlow
  · exact .inl ⟨'"', by rw [hq]; rfl, rfl⟩
  · exact .inl ⟨'\\', by rw [hb]; rfl, rfl⟩
  · exact .inl ⟨'b', by rw [h8]; rfl, rfl⟩
  · exact .inl ⟨'f', by rw [hc]; rfl, rfl⟩
  · exact .inl ⟨'n', by rw [hn]; rfl, rfl⟩
  · exact .inl ⟨'r', by rw [hr]; rfl, rfl⟩
  · exact .inl ⟨'t', by rw [ht]; rfl, rfl⟩
  · exact .inr (.inl ⟨hlow, rfl⟩)
  · exact .inr (.inr ⟨hq, hb, by omega, rfl⟩)

/-- Reading goes on behind a written character. -/
theorem exists_scanString_escape (c : Char) (cs : List Char) (mark : Mark) :
    ∃ piece mark', StandsFor piece c ∧ scanString mark (escape c ++ cs) =
      (scanString mark' cs).map fun (pieces, stop, rest) => (piece :: pieces, stop, rest) := by
  rcases escape_cases c with ⟨e, he, hc⟩ | ⟨hlow, hc⟩ | ⟨hq, hb, hlow, hc⟩
  · refine ⟨.char c, mark.along 2, standsFor_char c, ?_⟩
    have hu : e ≠ 'u' := by
      rintro rfl
      simp [escaped?] at he
    rw [hc, List.cons_append, List.cons_append, List.nil_append, scanString]
    · cases scanString (mark.along 2) cs <;> simp [he]
    · exact fun _ _ _ _ _ h => absurd h hu
  · refine ⟨.unit c.toNat, mark.along 6, standsFor_unit (by omega), ?_⟩
    have hhex := hexValue_byteDigits hlow
    rw [hc]
    simp only [Text.byteDigits, List.cons_append, List.nil_append, scanString] at hhex ⊢
    cases scanString (mark.along 6) cs <;> simp [hhex]
  · refine ⟨.char c, mark.after c, standsFor_char c, ?_⟩
    rw [hc, List.singleton_append, scanString]
    · have hplain : ¬ (c.toNat < 0x20 ∨ c = '\\') := by
        rintro (h | h)
        · omega
        · exact hb h
      rw [if_neg hplain]
      cases scanString (mark.after c) cs <;> rfl
    · exact hq
    · exact fun _ _ _ _ _ h => absurd h hb
    · exact fun _ _ h => absurd h hb

/-- A written string is read up to its closing quote. -/
theorem exists_scanString (s rest : List Char) (mark : Mark) :
    ∃ pieces stop, join? pieces = some s ∧
      scanString mark (s.flatMap escape ++ '"' :: rest) = some (pieces, stop, rest) := by
  induction s generalizing mark with
  | nil => exact ⟨[], mark.along 1, by simp [join?], by simp [scanString]⟩
  | cons c s ih =>
    obtain ⟨piece, mark', hpiece, hstep⟩ :=
      exists_scanString_escape c (s.flatMap escape ++ '"' :: rest) mark
    obtain ⟨pieces, stop, hjoin, hscan⟩ := ih mark'
    refine ⟨piece :: pieces, stop, ?_, ?_⟩
    · rw [hpiece, hjoin]
      rfl
    · rw [List.flatMap_cons, List.append_assoc, hstep, hscan]
      rfl

theorem toList_quote (s : String) : (quote s).toList = '"' :: (s.toList.flatMap escape ++ ['"']) := by
  simp [quote]

theorem isLexeme_quote (s : String) (rest : List Char) :
    IsLexeme (quote s).toList (.string (some s)) rest where
  head := ⟨'"', by simp [toList_quote], rfl⟩
  scan := by
    intro mark
    obtain ⟨pieces, stop, hjoin, hscan⟩ := exists_scanString s.toList rest (mark.along 1)
    refine ⟨stop, ?_⟩
    rw [toList_quote, List.cons_append, List.append_assoc, List.singleton_append]
    simp [scanToken, hscan, hjoin]

/-! ## Whole numbers -/

/-- Whether a character continues a number behind a digit of its whole part. -/
def continuesNumber (c : Char) : Bool := Digits.isDigit c || c = '.' || c = 'e' || c = 'E'

/-- A digit is neither punctuation nor the start of a word, and no blank. -/
theorem not_special_of_isDigit {c : Char} (hc : Digits.isDigit c = true) :
    isSpace c = false ∧ c ≠ '"' ∧ c ≠ '-' ∧ punctuation? c = none ∧
      ∀ cs, (words.find? fun w => w.1.isPrefixOf (c :: cs)) = none := by
  have hne {e : Char} (he : Digits.isDigit e = false) : c ≠ e := Text.ne_of_kind hc he
  have hspace : isSpace c = false := by
    simp only [isSpace, Bool.or_eq_false_iff, decide_eq_false_iff_not]
    exact ⟨⟨⟨hne rfl, hne rfl⟩, hne rfl⟩, hne rfl⟩
  have hpunct : punctuation? c = none := by
    unfold punctuation?
    split
    all_goals first
      | rfl
      | exact absurd hc (by decide)
  refine ⟨hspace, hne rfl, hne rfl, hpunct, ?_⟩
  intro cs
  have ht : 't' ≠ c := (hne rfl).symm
  have hf : 'f' ≠ c := (hne rfl).symm
  have hn : 'n' ≠ c := (hne rfl).symm
  simp [words, List.isPrefixOf, ht, hf, hn]

theorem scanFraction_of_stops {rest : List Char} (h : Text.Stops continuesNumber rest) :
    Number.scanFraction rest = some ([], 0, rest) := by
  cases rest with
  | nil => rfl
  | cons c cs =>
    have hpoint : c ≠ '.' := by
      rintro rfl
      simp [continuesNumber] at h
    rw [Number.scanFraction]
    exact fun _ h => absurd h (by simp [hpoint])

theorem scanExponent_of_stops {rest : List Char} (h : Text.Stops continuesNumber rest) :
    Number.scanExponent rest = some (none, 0, rest) := by
  cases rest with
  | nil => rfl
  | cons c cs =>
    have hletter : ¬ (c = 'e' ∨ c = 'E') := by
      rintro (rfl | rfl) <;> simp [continuesNumber] at h
    rw [Number.scanExponent, if_neg hletter]

/-- The digits of a number are scanned as a whole number without sign, fraction and exponent. -/
theorem scan_toDigits (n : Nat) {rest : List Char} (hrest : Text.Stops continuesNumber rest) :
    Number.scan (Nat.toDigits 10 n ++ rest) =
      some (⟨false, Nat.toDigits 10 n, [], none⟩, (Nat.toDigits 10 n).length, rest) := by
  have hstops : Text.Stops Digits.isDigit rest := by
    refine hrest.mono ?_
    intro c hc
    simp [continuesNumber, hc]
  have hsplit := Digits.split_toDigits n hstops
  have hfirst : (Nat.toDigits 10 n).head? = some '0' → (Nat.toDigits 10 n).length = 1 := by
    intro hzero
    by_cases hn : n = 0
    · rw [hn]
      rfl
    · exact absurd hzero (Digits.head?_toDigits_ne_zero hn)
  obtain ⟨c, ds, hds, hc⟩ := Digits.exists_toDigits_eq_cons n
  rw [hds] at hsplit hfirst ⊢
  rw [List.cons_append] at hsplit ⊢
  obtain ⟨-, -, hminus, -, -⟩ := not_special_of_isDigit hc
  unfold Number.scan
  split
  next negative cs hsign =>
    obtain ⟨rfl, rfl⟩ : negative = false ∧ cs = c :: (ds ++ rest) := by
      split at hsign
      next heq => exact absurd (List.cons.inj heq).1 hminus
      next => simpa [eq_comm] using hsign
    have hguard : c = '0' → ds = [] := by simpa using hfirst
    have hpass : (guard (c = '0' → ds = []) : Option Unit) = some () := if_pos hguard
    simp [hsplit, hpass, scanFraction_of_stops hrest, scanExponent_of_stops hrest]

theorem isLexeme_toDigits {n : Nat} (hn : n ≤ Number.wordTop) {rest : List Char}
    (hrest : Text.Stops continuesNumber rest) :
    IsLexeme (Nat.toDigits 10 n) (.scalar (.integer n)) rest := by
  have hscan := scan_toDigits n hrest
  have hdata : Number.toData ⟨false, Nat.toDigits 10 n, [], none⟩ = .integer n := by
    simp [Number.toData, hn]
  obtain ⟨c, ds, hds, hc⟩ := Digits.exists_toDigits_eq_cons n
  rw [hds] at hscan hdata ⊢
  obtain ⟨hspace, hquote, -, hpunct, hwords⟩ := not_special_of_isDigit hc
  refine ⟨⟨c, rfl, hspace⟩, ?_⟩
  intro mark
  refine ⟨mark.along (c :: ds).length, ?_⟩
  rw [List.cons_append] at hscan ⊢
  rw [scanToken]
  · simp [hpunct, hwords, hscan, hdata]
  · exact hquote

end Json

end NodeRanking
