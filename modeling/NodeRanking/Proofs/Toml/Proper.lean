import Mathlib.Data.List.Nodup
import NodeRanking.Proofs.Data.Decode
import NodeRanking.Toml.Document

/-!
# What a text of TOML stands for

A text stands for a record in which no name comes twice, and neither does it in any record inside
(`proper_document?`). Every value that is read is `Proper`, and every statement keeps the
table under construction so (`properMembers_apply`).
-/

namespace NodeRanking

namespace Toml

/-- A value without those forms that only other formats have, and with no name twice in a record. -/
inductive Proper : Data → Prop
  | bool (b : Bool) : Proper (.bool b)
  | integer (n : Int) : Proper (.integer n)
  | float (x : Binary64) : Proper (.float x)
  | text (s : String) : Proper (.text s)
  | moment : Proper .moment
  | list {items : List Data} (hitems : ∀ d ∈ items, Proper d) : Proper (.list items)
  | record {members : List (String × Data)} (hnames : (members.map Prod.fst).Nodup)
    (hvalues : ∀ m ∈ members, Proper m.2) : Proper (.record members)

namespace Proper

variable {d : Data} {members : List (String × Data)}

theorem isBare (h : Proper d) : d.IsBare := by
  cases h <;> trivial

theorem wellFormed (h : Proper d) : d.wellFormed = true := by
  induction h with
  | list _ ih => rw [Data.wellFormed, Data.itemsWellFormed_iff.2 ih]
  | record _ _ ih => rw [Data.wellFormed, Data.membersWellFormed_iff.2 ih]
  | _ => rfl

theorem names_nodup (h : Proper (.record members)) : (members.map Prod.fst).Nodup := by
  cases h
  assumption

theorem of_mem (h : Proper (.record members)) : ∀ m ∈ members, Proper m.2 := by
  cases h
  assumption

end Proper

/-! ## Members under construction -/

/-- Members that make a proper record. -/
def ProperMembers (members : Members) : Prop := Proper (.record (membersData members))

/-- A step in the construction of a table that keeps it proper. -/
def Keeps (change : Members → Option Members) : Prop :=
  ∀ ⦃members next⦄, ProperMembers members → change members = some next → ProperMembers next

section Construction

variable {members next : Members} {name : String} {item : Item} {tables : List Members}

theorem membersData_eq_map (members : Members) :
    membersData members = members.map fun m => (m.1, m.2.toData) := by
  induction members with
  | nil => rfl
  | cons m members ih => rw [membersData, ih, List.map_cons]

theorem tablesData_eq_map (tables : List Members) :
    tablesData tables = tables.map fun members => .record (membersData members) := by
  induction tables with
  | nil => rfl
  | cons members tables ih => rw [tablesData, ih, List.map_cons]

theorem properMembers_iff : ProperMembers members ↔
    (members.map Prod.fst).Nodup ∧ ∀ m ∈ members, Proper m.2.toData := by
  have hnames : (membersData members).map Prod.fst = members.map Prod.fst := by
    rw [membersData_eq_map, List.map_map]
    rfl
  have hvalues : (∀ m ∈ membersData members, Proper m.2) ↔
      ∀ m ∈ members, Proper m.2.toData := by
    rw [membersData_eq_map, List.forall_mem_map]
  rw [← hnames, ← hvalues]
  constructor
  · rintro ⟨⟩
    exact ⟨‹_›, ‹_›⟩
  · rintro ⟨hnodup, hproper⟩
    exact .record hnodup hproper

theorem properMembers_nil : ProperMembers [] := properMembers_iff.2 (by simp)

theorem proper_tables_iff : Proper (Item.tables tables).toData ↔
    ∀ members ∈ tables, ProperMembers members := by
  have hitems : (∀ d ∈ tablesData tables, Proper d) ↔
      ∀ members ∈ tables, ProperMembers members := by
    rw [tablesData_eq_map, List.forall_mem_map]
    rfl
  rw [← hitems]
  constructor
  · rintro ⟨⟩
    exact ‹_›
  · exact .list

theorem proper_of_find? (h : ProperMembers members) (hfind : members.find? name = some item) :
    Proper item.toData := by
  obtain ⟨m, hm, rfl⟩ := Option.map_eq_some_iff.1 hfind
  exact (properMembers_iff.1 h).2 m (List.mem_of_find?_eq_some hm)

theorem mem_names_put {n : String} :
    n ∈ (members.put name item).map Prod.fst ↔ n = name ∨ n ∈ members.map Prod.fst := by
  induction members with
  | nil => simp [Members.put]
  | cons m members ih =>
    unfold Members.put
    split_ifs with h
    · simp [h]
    · rw [List.map_cons, List.mem_cons, ih, List.map_cons, List.mem_cons, or_left_comm]

theorem ProperMembers.put (h : ProperMembers members) (hitem : Proper item.toData) :
    ProperMembers (members.put name item) := by
  rw [properMembers_iff] at h ⊢
  induction members with
  | nil => simpa [Members.put] using hitem
  | cons m members ih =>
    obtain ⟨hnames, hvalues⟩ := h
    rw [List.map_cons, List.nodup_cons] at hnames
    obtain ⟨hm, hvalues⟩ := List.forall_mem_cons.1 hvalues
    unfold Members.put
    split_ifs with hname
    · rw [List.map_cons, List.nodup_cons, ← hname]
      exact ⟨hnames, List.forall_mem_cons.2 ⟨hitem, hvalues⟩⟩
    · obtain ⟨hnodup, hproper⟩ := ih ⟨hnames.2, hvalues⟩
      rw [List.map_cons, List.nodup_cons, mem_names_put]
      exact ⟨⟨not_or.2 ⟨hname, hnames.1⟩, hnodup⟩, List.forall_mem_cons.2 ⟨hm, hproper⟩⟩

theorem proper_of_changeLast {change : Members → Option Members} (hchange : Keeps change)
    {tables' : List Members} (h : ∀ members ∈ tables, ProperMembers members)
    (hlast : Members.changeLast change tables = some tables') :
    ∀ members ∈ tables', ProperMembers members := by
  obtain ⟨last, hmem, hlast⟩ := Option.bind_eq_some_iff.1 hlast
  obtain ⟨next, hnext, htables⟩ := Option.bind_eq_some_iff.1 hlast
  obtain rfl := Option.some.inj htables
  intro members hmembers
  rcases List.mem_append.1 hmembers with hinit | hfinal
  · exact h members ((List.dropLast_sublist tables).subset hinit)
  · obtain rfl := List.mem_singleton.1 hfinal
    exact hchange (h last (List.mem_of_getLast? hmem)) hnext

/-- A table inside changed by a step that keeps it proper. -/
theorem ProperMembers.put_table {change : Members → Option Members} (hchange : Keeps change)
    {inner : Members} {origin : Origin} (h : ProperMembers members) (hinner : ProperMembers inner)
    (hnext : (do
      let inner ← change inner
      pure (members.put name (.table origin inner))) = some next) : ProperMembers next := by
  obtain ⟨changed, hchanged, hput⟩ := Option.bind_eq_some_iff.1 hnext
  obtain rfl := Option.some.inj hput
  exact h.put (hchange hinner hchanged)

/-- The last table of a list inside changed by such a step. -/
theorem ProperMembers.put_tables {change : Members → Option Members} (hchange : Keeps change)
    (h : ProperMembers members) (htables : ∀ members ∈ tables, ProperMembers members)
    (hnext : (do
      let tables ← Members.changeLast change tables
      pure (members.put name (.tables tables))) = some next) : ProperMembers next := by
  obtain ⟨changed, hchanged, hput⟩ := Option.bind_eq_some_iff.1 hnext
  obtain rfl := Option.some.inj hput
  exact h.put (proper_tables_iff.2 (proper_of_changeLast hchange htables hchanged))

end Construction

/-! ## Assignments and headers -/

theorem keeps_assign {value : Data} (hvalue : Proper value) (path : List String) :
    Keeps (Members.assign value path) := by
  induction path with
  | nil =>
    intro members next _ h
    simp [Members.assign] at h
  | cons name path ih =>
    intro members next hmembers h
    cases path with
    | nil =>
      rw [Members.assign] at h
      split_ifs at h
      obtain rfl := Option.some.inj h
      exact hmembers.put hvalue
    | cons second path =>
      simp only [Members.assign] at h
      split at h
      next => exact hmembers.put_table ih properMembers_nil h
      next inner hfind => exact hmembers.put_table ih (proper_of_find? hmembers hfind) h
      next inner hfind =>
        split_ifs at h
        exact hmembers.put_table ih (proper_of_find? hmembers hfind) h
      next => cases h
      next => cases h
      next tables hfind =>
        split_ifs at h
        exact hmembers.put_tables ih (proper_tables_iff.1 (proper_of_find? hmembers hfind)) h

theorem keeps_header {final : Option Item → Option Item}
    (hfinal : ∀ old new, (∀ item, old = some item → Proper item.toData) → final old = some new →
      Proper new.toData) (path : List String) : Keeps (Members.header final path) := by
  induction path with
  | nil =>
    intro members next _ h
    simp [Members.header] at h
  | cons name path ih =>
    intro members next hmembers h
    cases path with
    | nil =>
      rw [Members.header] at h
      obtain ⟨item, hitem, hput⟩ := Option.bind_eq_some_iff.1 h
      obtain rfl := Option.some.inj hput
      exact hmembers.put (hfinal _ _ (fun old hold => proper_of_find? hmembers hold) hitem)
    | cons second path =>
      simp only [Members.header] at h
      split at h
      next => exact hmembers.put_table ih properMembers_nil h
      next hfind => exact hmembers.put_table ih (proper_of_find? hmembers hfind) h
      next tables hfind =>
        exact hmembers.put_tables ih (proper_tables_iff.1 (proper_of_find? hmembers hfind)) h
      next => cases h

theorem keeps_within {change : Members → Option Members} (hchange : Keeps change)
    (path : List String) : Keeps (Members.within change path) := by
  induction path with
  | nil => exact hchange
  | cons name path ih =>
    intro members next hmembers h
    rw [Members.within] at h
    split at h
    next hfind => exact hmembers.put_table ih (proper_of_find? hmembers hfind) h
    next hfind =>
      exact hmembers.put_tables ih (proper_tables_iff.1 (proper_of_find? hmembers hfind)) h
    next => cases h

theorem proper_openTable {old : Option Item} {new : Item}
    (hold : ∀ item, old = some item → Proper item.toData) (h : openTable old = some new) :
    Proper new.toData := by
  unfold openTable at h
  split at h
  · obtain rfl := Option.some.inj h
    exact properMembers_nil
  · obtain rfl := Option.some.inj h
    have hparent := hold _ rfl
    exact hparent
  · cases h

theorem proper_openTables {old : Option Item} {new : Item}
    (hold : ∀ item, old = some item → Proper item.toData) (h : openTables old = some new) :
    Proper new.toData := by
  unfold openTables at h
  split at h
  · obtain rfl := Option.some.inj h
    exact proper_tables_iff.2 (by simpa using properMembers_nil)
  · obtain rfl := Option.some.inj h
    rw [proper_tables_iff, List.forall_mem_append]
    exact ⟨proper_tables_iff.1 (hold _ rfl), by simpa using properMembers_nil⟩
  · cases h

/-! ## Values -/

theorem proper_scalar? {cs rest : List Char} {d : Data} (h : scalar? cs = some (d, rest)) :
    Proper d := by
  have hmap : ∀ {α : Type} {read : Option (α × List Char)} {f : α → Data}, (∀ a, Proper (f a)) →
      read.map (fun x => (f x.1, x.2)) = some (d, rest) → Proper d := by
    intro α read f hf hread
    obtain ⟨x, -, hx⟩ := Option.map_eq_some_iff.1 hread
    exact (Prod.mk.inj hx).1 ▸ hf x.1
  unfold scalar? at h
  split at h
  · exact hmap .text h
  · exact hmap .text h
  · cases h
    exact .bool true
  · cases h
    exact .bool false
  · split at h
    · cases h
      exact .moment
    · split at h
      · cases h
        exact .float _
      · exact hmap .integer h

/-- What is read with any fuel is proper: a value, the items of a list, and the members of a table
between braces if those before them are. -/
theorem proper_read (fuel : ℕ) :
    (∀ depth cs d rest, value? fuel depth cs = some (d, rest) → Proper d) ∧
    (∀ depth cs items rest, items? fuel depth cs = some (items, rest) → ∀ d ∈ items, Proper d) ∧
    ∀ depth members cs next rest, ProperMembers members →
      members? fuel depth members cs = some (next, rest) → ProperMembers next := by
  induction fuel with
  | zero => simp [value?, items?, members?]
  | succ fuel ih =>
    obtain ⟨hvalue, hitems, hmembers⟩ := ih
    refine ⟨fun depth cs d rest h => ?_, fun depth cs items rest h => ?_,
      fun depth members cs next rest hproper h => ?_⟩
    · unfold value? at h
      split at h
      · obtain ⟨⟨items, rest'⟩, hread, hpure⟩ := Option.bind_eq_some_iff.1 h
        cases hpure
        exact .list (hitems _ _ _ _ hread)
      · split at h
        · cases h
          exact .record (by simp) (by simp)
        · obtain ⟨⟨members, rest'⟩, hread, hpure⟩ := Option.bind_eq_some_iff.1 h
          cases hpure
          exact hmembers _ _ _ _ _ properMembers_nil hread
      · exact proper_scalar? h
    · unfold items? at h
      obtain ⟨cs', -, h⟩ := Option.bind_eq_some_iff.1 h
      split at h
      · cases h
        simp
      · obtain ⟨⟨item, rest'⟩, hitem, h⟩ := Option.bind_eq_some_iff.1 h
        obtain ⟨cs'', -, h⟩ := Option.bind_eq_some_iff.1 h
        dsimp only at h
        split at h
        · obtain ⟨⟨others, rest''⟩, hothers, hpure⟩ := Option.bind_eq_some_iff.1 h
          cases hpure
          exact List.forall_mem_cons.2 ⟨hvalue _ _ _ _ hitem, hitems _ _ _ _ hothers⟩
        · cases h
          exact List.forall_mem_singleton.2 (hvalue _ _ _ _ hitem)
        · cases h
    · unfold members? at h
      obtain ⟨⟨key, afterKey⟩, -, h⟩ := Option.bind_eq_some_iff.1 h
      obtain ⟨equals, -, h⟩ := Option.bind_eq_some_iff.1 h
      obtain ⟨⟨d, rest'⟩, hd, h⟩ := Option.bind_eq_some_iff.1 h
      obtain ⟨assigned, hassign, h⟩ := Option.bind_eq_some_iff.1 h
      have hassigned := keeps_assign (hvalue _ _ _ _ hd) key hproper hassign
      split at h
      · exact hmembers _ _ _ _ _ hassigned h
      · cases h
        exact hassigned
      · cases h

/-! ## Statements -/

/-- A statement whose value, if it has one, is proper. -/
def Statement.Proper : Statement → Prop
  | .table _ => True
  | .tables _ => True
  | .assign _ value => Toml.Proper value

theorem proper_statement? {cs rest : List Char} {statement : Statement}
    (h : statement? cs = some (statement, rest)) : statement.Proper := by
  unfold statement? at h
  split at h
  · obtain ⟨⟨path, rest'⟩, -, h⟩ := Option.bind_eq_some_iff.1 h
    obtain ⟨_, -, h⟩ := Option.bind_eq_some_iff.1 h
    obtain ⟨_, -, h⟩ := Option.bind_eq_some_iff.1 h
    obtain ⟨_, -, hpure⟩ := Option.bind_eq_some_iff.1 h
    cases hpure
    trivial
  · obtain ⟨⟨path, rest'⟩, -, h⟩ := Option.bind_eq_some_iff.1 h
    obtain ⟨_, -, h⟩ := Option.bind_eq_some_iff.1 h
    obtain ⟨_, -, hpure⟩ := Option.bind_eq_some_iff.1 h
    cases hpure
    trivial
  · obtain ⟨⟨path, rest'⟩, -, h⟩ := Option.bind_eq_some_iff.1 h
    obtain ⟨_, -, h⟩ := Option.bind_eq_some_iff.1 h
    obtain ⟨⟨d, rest''⟩, hd, h⟩ := Option.bind_eq_some_iff.1 h
    obtain ⟨_, -, hpure⟩ := Option.bind_eq_some_iff.1 h
    cases hpure
    exact (proper_read _).1 _ _ _ _ hd

theorem proper_statements? (fuel : ℕ) {cs : List Char} {statements : List Statement}
    (h : statements? fuel cs = some statements) : ∀ s ∈ statements, s.Proper := by
  induction fuel generalizing cs statements with
  | zero => simp [statements?] at h
  | succ fuel ih =>
    unfold statements? at h
    obtain ⟨cs', -, h⟩ := Option.bind_eq_some_iff.1 h
    split at h
    · cases h
      simp
    · obtain ⟨⟨statement, rest⟩, hstatement, h⟩ := Option.bind_eq_some_iff.1 h
      obtain ⟨others, hothers, hpure⟩ := Option.bind_eq_some_iff.1 h
      cases hpure
      exact List.forall_mem_cons.2 ⟨proper_statement? hstatement, ih hothers⟩

/-- A statement keeps the table under construction proper. -/
theorem properMembers_apply {state next : List String × Members} {statement : Statement}
    (hstate : ProperMembers state.2) (hstatement : statement.Proper)
    (h : statement.apply state = some next) : ProperMembers next.2 := by
  cases statement with
  | table path =>
    obtain ⟨members, hheader, rfl⟩ := Option.map_eq_some_iff.1 h
    exact keeps_header (fun _ _ => proper_openTable) path hstate hheader
  | tables path =>
    obtain ⟨members, hheader, rfl⟩ := Option.map_eq_some_iff.1 h
    exact keeps_header (fun _ _ => proper_openTables) path hstate hheader
  | assign path value =>
    obtain ⟨members, hassign, rfl⟩ := Option.map_eq_some_iff.1 h
    exact keeps_within (keeps_assign hstatement path) state.1 hstate hassign

theorem properMembers_foldlM {statements : List Statement} (h : ∀ s ∈ statements, s.Proper)
    {state last : List String × Members} (hstate : ProperMembers state.2)
    (hfold : statements.foldlM Statement.apply state = some last) : ProperMembers last.2 := by
  induction statements generalizing state with
  | nil =>
    cases hfold
    exact hstate
  | cons statement statements ih =>
    obtain ⟨hstatement, hothers⟩ := List.forall_mem_cons.1 h
    rw [List.foldlM_cons] at hfold
    obtain ⟨next, hnext, hfold⟩ := Option.bind_eq_some_iff.1 hfold
    exact ih hothers (properMembers_apply hstate hstatement hnext) hfold

/-- A text stands for a proper record. -/
theorem proper_document? {text : String} {d : Data} (h : document? text = some d) :
    Proper d ∧ ∃ members, d = .record members := by
  obtain ⟨statements, hread, h⟩ := Option.bind_eq_some_iff.1 h
  obtain ⟨members, hbuild, hpure⟩ := Option.bind_eq_some_iff.1 h
  obtain rfl := Option.some.inj hpure
  obtain ⟨last, hlast, rfl⟩ := Option.map_eq_some_iff.1 hbuild
  exact ⟨properMembers_foldlM (proper_statements? _ hread) properMembers_nil hlast, _, rfl⟩

end Toml

end NodeRanking
