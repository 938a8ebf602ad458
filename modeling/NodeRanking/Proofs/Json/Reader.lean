import NodeRanking.Json.Reader
import NodeRanking.Proofs.Json.Lexeme

/-!
# Reading what a printer writes

A printed value, without blanks or over several lines, spells its tokens (`spells_compact`,
`spells_prettyAt`), and from these tokens the value is read back (`exists_readValue`). What is read
back is `Marked`: the value with a place on every item and member.

Values here are `Exact`: they hold no number but whole ones of 64 bits.
-/

namespace NodeRanking

namespace Json

/-! ## Values that are written exactly -/

mutual

/-- The value holds only nulls, texts, whole numbers of 64 bits, lists and records. -/
def Exact : Data → Prop
  | .null => True
  | .integer n => 0 ≤ n ∧ n ≤ Number.wordTop
  | .text _ => True
  | .list items => ExactItems items
  | .record members => ExactMembers members
  | _ => False

/-- All items of a list are exact. -/
def ExactItems : List Data → Prop
  | [] => True
  | item :: rest => Exact item ∧ ExactItems rest

/-- All members of a record are exact. -/
def ExactMembers : List (String × Data) → Prop
  | [] => True
  | (_, value) :: rest => Exact value ∧ ExactMembers rest

end

mutual

/-- The tokens of a value. -/
def tokens : Data → List Token
  | .text s => [.string (some s)]
  | .list items => .openList :: (itemTokens items ++ [.closeList])
  | .record members => .openRecord :: (memberTokens members ++ [.closeRecord])
  | value => [.scalar value]

/-- The tokens of items with commas between them. -/
def itemTokens : List Data → List Token
  | [] => []
  | [item] => tokens item
  | item :: rest => tokens item ++ .comma :: itemTokens rest

/-- The tokens of members with commas between them. -/
def memberTokens : List (String × Data) → List Token
  | [] => []
  | [(name, value)] => .string (some name) :: .colon :: tokens value
  | (name, value) :: rest =>
    .string (some name) :: .colon :: (tokens value ++ .comma :: memberTokens rest)

end

/-! ## Printing -/

variable {cs : List Char} {ts : List Token} {c : Char} {token : Token}

theorem not_space_of_punctuation (hc : punctuation? c = some token) :
    isSpace c = false ∧ c ≠ '"' ∧ continuesNumber c = false := by
  unfold punctuation? at hc
  split at hc
  all_goals first
    | decide
    | simp at hc

theorem Spells.punctuation (h : Spells cs ts) (hc : punctuation? c = some token) :
    Spells (c :: cs) (token :: ts) := by
  obtain ⟨hspace, hquote, -⟩ := not_space_of_punctuation hc
  exact (isLexeme_punctuation cs hspace hquote hc).spells h

theorem stops_of_punctuation (cs : List Char) (hc : punctuation? c = some token) :
    Text.Stops continuesNumber (c :: cs) :=
  Text.stops_cons.2 (not_space_of_punctuation hc).2.2

theorem spells_integer {n : Int} (hn : Exact (.integer n)) (hcs : Text.Stops continuesNumber cs)
    (h : Spells cs ts) : Spells ((toString n).toList ++ cs) (.scalar (.integer n) :: ts) := by
  obtain ⟨hzero, htop⟩ := hn
  obtain ⟨k, rfl⟩ := Int.eq_ofNat_of_zero_le hzero
  have htext : (toString (k : Int)).toList = Nat.toDigits 10 k := by
    show (toString k).toList = _
    rw [Nat.toString_eq_ofList_toDigits, String.toList_ofList]
  rw [htext]
  exact (isLexeme_toDigits (by omega) hcs).spells h

mutual

theorem spells_compact (d : Data) (hd : Exact d) {cs : List Char} {ts : List Token}
    (hcs : Text.Stops continuesNumber cs) (h : Spells cs ts) :
    Spells ((compact d).toList ++ cs) (tokens d ++ ts) := by
  cases d with
  | null => exact (isLexeme_null cs).spells h
  | text s => exact (isLexeme_quote s cs).spells h
  | integer n => exact spells_integer hd hcs h
  | list items =>
    have hclose : Spells (']' :: cs) (.closeList :: ts) := h.punctuation rfl
    have hitems := spells_compactItems items hd (stops_of_punctuation cs rfl) hclose
    have hopen : Spells ('[' :: _) (.openList :: _) := hitems.punctuation rfl
    simpa [compact, tokens] using hopen
  | record members =>
    have hclose : Spells ('\x7d' :: cs) (.closeRecord :: ts) := h.punctuation rfl
    have hmembers := spells_compactMembers members hd (stops_of_punctuation cs rfl) hclose
    have hopen : Spells ('\x7b' :: _) (.openRecord :: _) := hmembers.punctuation rfl
    simpa [compact, tokens] using hopen
  | _ => exact hd.elim

theorem spells_compactItems (items : List Data) (hd : ExactItems items) {cs : List Char}
    {ts : List Token} (hcs : Text.Stops continuesNumber cs) (h : Spells cs ts) :
    Spells ((compactItems items).toList ++ cs) (itemTokens items ++ ts) := by
  match items with
  | [] => exact h
  | [item] => exact spells_compact item hd.1 hcs h
  | item :: next :: rest =>
    have hrest := spells_compactItems (next :: rest) hd.2 hcs h
    have hcomma : Spells (',' :: _) (.comma :: _) := hrest.punctuation rfl
    have hitem := spells_compact item hd.1 (stops_of_punctuation _ rfl) hcomma
    simpa [compactItems, itemTokens] using hitem

theorem spells_compactMembers (members : List (String × Data)) (hd : ExactMembers members)
    {cs : List Char} {ts : List Token} (hcs : Text.Stops continuesNumber cs) (h : Spells cs ts) :
    Spells ((compactMembers members).toList ++ cs) (memberTokens members ++ ts) := by
  match members with
  | [] => exact h
  | [(name, value)] =>
    have hvalue := spells_compact value hd.1 hcs h
    have hcolon : Spells (':' :: _) (.colon :: _) := hvalue.punctuation rfl
    have hmember := (isLexeme_quote name _).spells hcolon
    simpa [compactMembers, memberTokens] using hmember
  | (name, value) :: next :: rest =>
    have hrest := spells_compactMembers (next :: rest) hd.2 hcs h
    have hcomma : Spells (',' :: _) (.comma :: _) := hrest.punctuation rfl
    have hvalue := spells_compact value hd.1 (stops_of_punctuation _ rfl) hcomma
    have hcolon : Spells (':' :: _) (.colon :: _) := hvalue.punctuation rfl
    have hmember := (isLexeme_quote name _).spells hcolon
    simpa [compactMembers, memberTokens] using hmember

end

theorem isSpace_of_mem_newLine {level : Nat} (hc : c ∈ (newLine level).toList) :
    isSpace c = true := by
  have hmem : c = '\n' ∨ c = ' ' := by
    simp [newLine] at hc
    tauto
  rcases hmem with rfl | rfl <;> decide

/-- A new line says nothing. -/
theorem Spells.newLine (level : Nat) (h : Spells cs ts) :
    Spells ((newLine level).toList ++ cs) ts :=
  h.spaces fun _ hc => isSpace_of_mem_newLine hc

theorem stops_newLine (level : Nat) (cs : List Char) :
    Text.Stops continuesNumber ((newLine level).toList ++ cs) := by
  simp [newLine, continuesNumber]
  decide

mutual

theorem spells_prettyAt (level : Nat) (d : Data) (hd : Exact d) {cs : List Char} {ts : List Token}
    (hcs : Text.Stops continuesNumber cs) (h : Spells cs ts) :
    Spells ((prettyAt level d).toList ++ cs) (tokens d ++ ts) := by
  cases d with
  | null => exact (isLexeme_null cs).spells h
  | text s => exact (isLexeme_quote s cs).spells h
  | integer n => exact spells_integer hd hcs h
  | list items =>
    have hclose : Spells (']' :: cs) (.closeList :: ts) := h.punctuation rfl
    cases items with
    | nil =>
      have hopen : Spells ('[' :: _) (.openList :: _) := hclose.punctuation rfl
      simpa [prettyAt, tokens, itemTokens] using hopen
    | cons item items =>
      have hitems := spells_prettyItems (level + 1) (item :: items) hd
        (stops_newLine level _) (hclose.newLine level)
      have hopen : Spells ('[' :: _) (.openList :: _) := hitems.punctuation rfl
      simpa [prettyAt, tokens] using hopen
  | record members =>
    have hclose : Spells ('\x7d' :: cs) (.closeRecord :: ts) := h.punctuation rfl
    cases members with
    | nil =>
      have hopen : Spells ('\x7b' :: _) (.openRecord :: _) := hclose.punctuation rfl
      simpa [prettyAt, tokens, memberTokens] using hopen
    | cons member members =>
      have hmembers := spells_prettyMembers (level + 1) (member :: members) hd
        (stops_newLine level _) (hclose.newLine level)
      have hopen : Spells ('\x7b' :: _) (.openRecord :: _) := hmembers.punctuation rfl
      simpa [prettyAt, tokens] using hopen
  | _ => exact hd.elim

theorem spells_prettyItems (level : Nat) (items : List Data) (hd : ExactItems items)
    {cs : List Char} {ts : List Token} (hcs : Text.Stops continuesNumber cs) (h : Spells cs ts) :
    Spells ((prettyItems level items).toList ++ cs) (itemTokens items ++ ts) := by
  match items with
  | [] => exact h
  | [item] =>
    have hitem := spells_prettyAt level item hd.1 hcs h
    simpa [prettyItems, itemTokens] using hitem.newLine level
  | item :: next :: rest =>
    have hrest := spells_prettyItems level (next :: rest) hd.2 hcs h
    have hcomma : Spells (',' :: _) (.comma :: _) := hrest.punctuation rfl
    have hitem := spells_prettyAt level item hd.1 (stops_of_punctuation _ rfl) hcomma
    simpa [prettyItems, itemTokens] using hitem.newLine level

theorem spells_prettyMembers (level : Nat) (members : List (String × Data))
    (hd : ExactMembers members) {cs : List Char} {ts : List Token}
    (hcs : Text.Stops continuesNumber cs) (h : Spells cs ts) :
    Spells ((prettyMembers level members).toList ++ cs) (memberTokens members ++ ts) := by
  match members with
  | [] => exact h
  | [(name, value)] =>
    have hvalue := spells_prettyAt level value hd.1 hcs h
    have hcolon : Spells (':' :: ' ' :: _) (.colon :: _) := (hvalue.space rfl).punctuation rfl
    have hmember := (isLexeme_quote name _).spells hcolon
    simpa [prettyMembers, memberTokens] using hmember.newLine level
  | (name, value) :: next :: rest =>
    have hrest := spells_prettyMembers level (next :: rest) hd.2 hcs h
    have hcomma : Spells (',' :: _) (.comma :: _) := hrest.punctuation rfl
    have hvalue := spells_prettyAt level value hd.1 (stops_of_punctuation _ rfl) hcomma
    have hcolon : Spells (':' :: ' ' :: _) (.colon :: _) := (hvalue.space rfl).punctuation rfl
    have hmember := (isLexeme_quote name _).spells hcolon
    simpa [prettyMembers, memberTokens] using hmember.newLine level

end

/-! ## Reading -/

mutual

/-- The second value is the first one with a place on every item and member. -/
inductive Marked : Data → Data → Prop
  | null : Marked .null .null
  | integer (n : Int) : Marked (.integer n) (.integer n)
  | text (s : String) : Marked (.text s) (.text s)
  | list {items items' : List Data} (h : MarkedItems items items') :
      Marked (.list items) (.list items')
  | record {members members' : List (String × Data)} (h : MarkedMembers members members') :
      Marked (.record members) (.record members')

/-- The items of a list with places on them. -/
inductive MarkedItems : List Data → List Data → Prop
  | nil : MarkedItems [] []
  | cons {item item' : Data} {rest rest' : List Data} (leave : Mark) (h : Marked item item')
      (hrest : MarkedItems rest rest') : MarkedItems (item :: rest) (.located leave item' :: rest')

/-- The members of a record with places on them. -/
inductive MarkedMembers : List (String × Data) → List (String × Data) → Prop
  | nil : MarkedMembers [] []
  | cons {name : String} {value value' : Data} {rest rest' : List (String × Data)} (leave : Mark)
      (h : Marked value value') (hrest : MarkedMembers rest rest') :
      MarkedMembers ((name, value) :: rest) ((name, .located leave value') :: rest')

end

/-- The first of some lexemes, by its token. -/
theorem exists_eq_cons {lexemes : List Lexeme}
    (h : lexemes.map Lexeme.token = token :: ts) :
    ∃ start stop rest, lexemes = ⟨token, start, stop⟩ :: rest ∧ rest.map Lexeme.token = ts := by
  obtain ⟨⟨t, start, stop⟩, rest, rfl, rfl, hrest⟩ := List.map_eq_cons_iff.1 h
  exact ⟨start, stop, rest, rfl, hrest⟩

/-- No value starts with a closing bracket. -/
theorem exists_tokens_eq_cons (d : Data) :
    ∃ token ts, tokens d = token :: ts ∧ token ≠ .closeList := by
  cases d <;> simp [tokens]

theorem exists_itemTokens_eq_cons (item : Data) (items : List Data) :
    ∃ token ts, itemTokens (item :: items) = token :: ts ∧ token ≠ .closeList := by
  obtain ⟨token, ts, htokens, hne⟩ := exists_tokens_eq_cons item
  cases items <;> simp [itemTokens, htokens, hne]

theorem exists_memberTokens_eq_cons (member : String × Data) (members : List (String × Data)) :
    ∃ ts, memberTokens (member :: members) = .string (some member.1) :: .colon :: ts := by
  cases members <;> simp [memberTokens]

/-! ### Steps of the reader, by the tokens that it meets -/

section Steps

variable {fuel : Nat} {start stop : Mark} {lexemes inner rest : List Lexeme}
  {after : Option (List Lexeme)} {name : String} {v : Data} {vs : List Data}
  {ms : List (String × Data)}

/-- Behind an opening bracket items are read, unless the list is closed at once. -/
theorem readValue_openList {first : Lexeme} (hfirst : first.token ≠ .closeList)
    (hread : readItems fuel (first :: inner) = (vs, after)) :
    readValue (fuel + 1) (⟨.openList, start, stop⟩ :: first :: inner) = (.list vs, after) := by
  rw [readValue, hread]
  intro start' stop' rest' heq
  apply hfirst
  rw [(List.cons.inj heq).1]

/-- Behind an opening brace members are read, unless the record is closed at once. -/
theorem readValue_openRecord {first : Lexeme} (hfirst : first.token ≠ .closeRecord)
    (hread : readMembers fuel (first :: inner) = (ms, after)) :
    readValue (fuel + 1) (⟨.openRecord, start, stop⟩ :: first :: inner) = (.record ms, after) := by
  rw [readValue, hread]
  intro start' stop' rest' heq
  apply hfirst
  rw [(List.cons.inj heq).1]

theorem readItems_closeList
    (hread : readValue fuel lexemes = (v, some (⟨.closeList, start, stop⟩ :: rest))) :
    readItems (fuel + 1) lexemes = ([.located stop v], some rest) := by
  rw [readItems, hread]
  rfl

theorem readItems_comma
    (hread : readValue fuel lexemes = (v, some (⟨.comma, start, stop⟩ :: inner)))
    (hrest : readItems fuel inner = (vs, after)) :
    readItems (fuel + 1) lexemes =
      (.located (leaveList (⟨.comma, start, stop⟩ :: inner)) v :: vs, after) := by
  rw [readItems, hread]
  simp only [hrest]

variable {start' stop' start'' stop'' : Mark}

theorem readMembers_closeRecord
    (hread : readValue fuel lexemes = (v, some (⟨.closeRecord, start, stop⟩ :: rest))) :
    readMembers (fuel + 1) (⟨.string (some name), start', stop'⟩ :: ⟨.colon, start'', stop''⟩ ::
      lexemes) = ([(name, .located stop v)], some rest) := by
  rw [readMembers, hread]
  rfl

theorem readMembers_comma
    (hread : readValue fuel lexemes = (v, some (⟨.comma, start, stop⟩ :: inner)))
    (hrest : readMembers fuel inner = (ms, after)) :
    readMembers (fuel + 1) (⟨.string (some name), start', stop'⟩ :: ⟨.colon, start'', stop''⟩ ::
      lexemes) = ((name, .located start v) :: ms, after) := by
  rw [readMembers, hread]
  simp only [hrest]
  rfl

end Steps

mutual

/-- From the tokens of a value the value is read, up to whatever follows it. -/
theorem exists_readValue (d : Data) (hd : Exact d) {fuel : Nat} {lexemes : List Lexeme}
    {ts : List Token} (hfuel : 2 * (tokens d).length ≤ fuel)
    (hlex : lexemes.map Lexeme.token = tokens d ++ ts) :
    ∃ v rest, readValue fuel lexemes = (v, some rest) ∧ Marked d v ∧
      rest.map Lexeme.token = ts := by
  obtain ⟨token, ts', htokens, -⟩ := exists_tokens_eq_cons d
  have hpos : 0 < (tokens d).length := by simp [htokens]
  obtain ⟨fuel, rfl⟩ := Nat.exists_eq_succ_of_ne_zero (n := fuel) (by omega)
  cases d with
  | null =>
    obtain ⟨start, stop, rest, rfl, hrest⟩ := exists_eq_cons hlex
    exact ⟨.null, rest, rfl, .null, hrest⟩
  | integer n =>
    obtain ⟨start, stop, rest, rfl, hrest⟩ := exists_eq_cons hlex
    exact ⟨.integer n, rest, rfl, .integer n, hrest⟩
  | text s =>
    obtain ⟨start, stop, rest, rfl, hrest⟩ := exists_eq_cons hlex
    exact ⟨.text s, rest, rfl, .text s, hrest⟩
  | list items =>
    simp only [tokens, List.cons_append, List.append_assoc, List.nil_append] at hlex
    obtain ⟨start, stop, inner, rfl, hinner⟩ := exists_eq_cons hlex
    cases items with
    | nil =>
      obtain ⟨start', stop', rest, rfl, hrest⟩ := exists_eq_cons hinner
      exact ⟨.list [], rest, rfl, .list .nil, hrest⟩
    | cons item items =>
      have hneed : 2 * (itemTokens (item :: items)).length + 1 ≤ fuel := by
        simp only [tokens, List.length_cons, List.length_append, List.length_nil] at hfuel
        omega
      obtain ⟨vs, rest, hread, hmarked, hrest⟩ :=
        exists_readItems (item :: items) hd (by simp) hneed hinner
      obtain ⟨first, ts', hitems, hfirst⟩ := exists_itemTokens_eq_cons item items
      rw [hitems, List.cons_append] at hinner
      obtain ⟨start', stop', inner, rfl, -⟩ := exists_eq_cons hinner
      exact ⟨.list vs, rest, readValue_openList hfirst hread, .list hmarked, hrest⟩
  | record members =>
    simp only [tokens, List.cons_append, List.append_assoc, List.nil_append] at hlex
    obtain ⟨start, stop, inner, rfl, hinner⟩ := exists_eq_cons hlex
    cases members with
    | nil =>
      obtain ⟨start', stop', rest, rfl, hrest⟩ := exists_eq_cons hinner
      exact ⟨.record [], rest, rfl, .record .nil, hrest⟩
    | cons member members =>
      have hneed : 2 * (memberTokens (member :: members)).length + 1 ≤ fuel := by
        simp only [tokens, List.length_cons, List.length_append, List.length_nil] at hfuel
        omega
      obtain ⟨vs, rest, hread, hmarked, hrest⟩ :=
        exists_readMembers (member :: members) hd (by simp) hneed hinner
      obtain ⟨ts', hmembers⟩ := exists_memberTokens_eq_cons member members
      rw [hmembers, List.cons_append] at hinner
      obtain ⟨start', stop', inner, rfl, -⟩ := exists_eq_cons hinner
      exact ⟨.record vs, rest, readValue_openRecord (by simp) hread, .record hmarked, hrest⟩
  | _ => exact hd.elim

/-- From the tokens of items and a closing bracket the items are read. -/
theorem exists_readItems (items : List Data) (hd : ExactItems items) (hne : items ≠ [])
    {fuel : Nat} {lexemes : List Lexeme} {ts : List Token}
    (hfuel : 2 * (itemTokens items).length + 1 ≤ fuel)
    (hlex : lexemes.map Lexeme.token = itemTokens items ++ .closeList :: ts) :
    ∃ vs rest, readItems fuel lexemes = (vs, some rest) ∧ MarkedItems items vs ∧
      rest.map Lexeme.token = ts := by
  obtain ⟨fuel, rfl⟩ := Nat.exists_eq_succ_of_ne_zero (n := fuel) (by omega)
  match items with
  | [] => exact absurd rfl hne
  | [item] =>
    simp only [itemTokens] at hlex hfuel
    have hneed : 2 * (tokens item).length ≤ fuel := by omega
    obtain ⟨v, after, hread, hmarked, hafter⟩ := exists_readValue item hd.1 hneed hlex
    obtain ⟨start, stop, rest, rfl, hrest⟩ := exists_eq_cons hafter
    exact ⟨_, rest, readItems_closeList hread, .cons stop hmarked .nil, hrest⟩
  | item :: next :: items =>
    simp only [itemTokens, List.append_assoc, List.cons_append] at hlex
    have hneed : 2 * (tokens item).length ≤ fuel ∧
        2 * (itemTokens (next :: items)).length + 1 ≤ fuel := by
      simp only [itemTokens, List.length_append, List.length_cons] at hfuel ⊢
      omega
    obtain ⟨v, after, hread, hmarked, hafter⟩ := exists_readValue item hd.1 hneed.1 hlex
    obtain ⟨start, stop, inner, rfl, hinner⟩ := exists_eq_cons hafter
    obtain ⟨vs, rest, hreads, hmarkeds, hrest⟩ :=
      exists_readItems (next :: items) hd.2 (by simp) hneed.2 hinner
    exact ⟨_, rest, readItems_comma hread hreads, .cons _ hmarked hmarkeds, hrest⟩

/-- From the tokens of members and a closing brace the members are read. -/
theorem exists_readMembers (members : List (String × Data)) (hd : ExactMembers members)
    (hne : members ≠ []) {fuel : Nat} {lexemes : List Lexeme} {ts : List Token}
    (hfuel : 2 * (memberTokens members).length + 1 ≤ fuel)
    (hlex : lexemes.map Lexeme.token = memberTokens members ++ .closeRecord :: ts) :
    ∃ vs rest, readMembers fuel lexemes = (vs, some rest) ∧ MarkedMembers members vs ∧
      rest.map Lexeme.token = ts := by
  obtain ⟨fuel, rfl⟩ := Nat.exists_eq_succ_of_ne_zero (n := fuel) (by omega)
  match members with
  | [] => exact absurd rfl hne
  | [(name, value)] =>
    simp only [memberTokens, List.cons_append] at hlex
    have hneed : 2 * (tokens value).length ≤ fuel := by
      simp only [memberTokens, List.length_cons] at hfuel
      omega
    obtain ⟨start, stop, behind, rfl, hbehind⟩ := exists_eq_cons hlex
    obtain ⟨start', stop', inner, rfl, hinner⟩ := exists_eq_cons hbehind
    obtain ⟨v, after, hread, hmarked, hafter⟩ := exists_readValue value hd.1 hneed hinner
    obtain ⟨start'', stop'', rest, rfl, hrest⟩ := exists_eq_cons hafter
    exact ⟨_, rest, readMembers_closeRecord hread, .cons stop'' hmarked .nil, hrest⟩
  | (name, value) :: next :: members =>
    simp only [memberTokens, List.append_assoc, List.cons_append] at hlex
    have hneed : 2 * (tokens value).length ≤ fuel ∧
        2 * (memberTokens (next :: members)).length + 1 ≤ fuel := by
      simp only [memberTokens, List.length_append, List.length_cons] at hfuel ⊢
      omega
    obtain ⟨start, stop, behind, rfl, hbehind⟩ := exists_eq_cons hlex
    obtain ⟨start', stop', inner, rfl, hinner⟩ := exists_eq_cons hbehind
    obtain ⟨v, after, hread, hmarked, hafter⟩ := exists_readValue value hd.1 hneed.1 hinner
    obtain ⟨start'', stop'', behind, rfl, hbehind⟩ := exists_eq_cons hafter
    obtain ⟨vs, rest, hreads, hmarkeds, hrest⟩ :=
      exists_readMembers (next :: members) hd.2 (by simp) hneed.2 hbehind
    exact ⟨_, rest, readMembers_comma hread hreads, .cons start'' hmarked hmarkeds, hrest⟩

end

/-- A text that spells the tokens of a value and nothing else is a complete document of it. -/
theorem exists_document {d : Data} (hd : Exact d) {s : String}
    (h : Spells s.toList (tokens d ++ [.finish])) :
    ∃ v, Document.ofText s = ⟨v, true⟩ ∧ Marked d v := by
  have hlex : (lex s).map Lexeme.token = tokens d ++ [.finish] :=
    h s.length Mark.start (Nat.le_of_eq String.length_toList)
  have hlength : (tokens d).length + 1 = (lex s).length := by
    simpa using (congrArg List.length hlex).symm
  have hneed : 2 * (tokens d).length ≤ 2 * (lex s).length := by omega
  obtain ⟨v, after, hread, hmarked, hafter⟩ := exists_readValue d hd hneed hlex
  obtain ⟨start, stop, rest, rfl, hrest⟩ := exists_eq_cons hafter
  obtain rfl : rest = [] := by simpa using hrest
  refine ⟨v, ?_, hmarked⟩
  simp only [Document.ofText, hread]

theorem exists_document_compact {d : Data} (hd : Exact d) :
    ∃ v, Document.ofText (compact d) = ⟨v, true⟩ ∧ Marked d v := by
  apply exists_document hd
  simpa using spells_compact d hd (by simp) spells_nil

theorem exists_document_pretty {d : Data} (hd : Exact d) :
    ∃ v, Document.ofText (pretty d) = ⟨v, true⟩ ∧ Marked d v := by
  apply exists_document hd
  simpa [pretty] using spells_prettyAt 0 d hd (by simp) spells_nil

end Json

end NodeRanking
