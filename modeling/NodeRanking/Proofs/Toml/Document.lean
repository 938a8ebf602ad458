import NodeRanking.Proofs.Toml.Statement

/-!
# Documents of tables

A document that consists of tables, each with a header and assignments of single keys, stands for
the record of their records (`document?_tables`), as long as no name comes twice among the tables
and none among the keys of a table.
-/

namespace NodeRanking

namespace Toml

attribute [local irreducible] Binary64.one Binary64.limit

/-! ## Members with new names -/

namespace Members

variable {members : Members} {name : String} {item item' : Item}

theorem find?_eq_none (h : name ∉ List.map Prod.fst members) : members.find? name = none := by
  have hnone : List.find? (fun m : String × Item => m.1 == name) members = none := by
    rw [List.find?_eq_none]
    intro m hm
    simp only [beq_iff_eq]
    rintro rfl
    exact h (List.mem_map_of_mem hm)
  rw [Members.find?, hnone]
  rfl

theorem find?_append_self (h : name ∉ List.map Prod.fst members) :
    Members.find? name (members ++ [(name, item)]) = some item := by
  have hnone := find?_eq_none h
  simp only [Members.find?, Option.map_eq_none_iff] at hnone ⊢
  simp [List.find?_append, hnone]

theorem put_eq_append (h : name ∉ List.map Prod.fst members) :
    Members.put name item members = members ++ [(name, item)] := by
  induction members with
  | nil => rfl
  | cons m members ih =>
    simp only [List.map_cons, List.mem_cons, not_or] at h
    rw [Members.put, if_neg (Ne.symm h.1), ih h.2]
    rfl

theorem put_append_self (h : name ∉ List.map Prod.fst members) :
    Members.put name item' (members ++ [(name, item)]) = members ++ [(name, item')] := by
  induction members with
  | nil => simp [Members.put]
  | cons m members ih =>
    simp only [List.map_cons, List.mem_cons, not_or] at h
    rw [List.cons_append, Members.put, if_neg (Ne.symm h.1), ih h.2]
    rfl

end Members

/-! ## Tables -/

/-- A table of a document: its name and its members. -/
abbrev Table := String × List (String × Data)

/-- A header and an assignment for each member. -/
def Table.statements (table : Table) : List Statement :=
  .table [table.1] :: table.2.map fun member => .assign [member.1] member.2

/-- The members of a table under construction. -/
def valuesOf (members : List (String × Data)) : Members :=
  members.map fun member => (member.1, .value member.2)

/-- The table when all of its statements have been taken. -/
def Table.item (table : Table) : String × Item := (table.1, .table .header (valuesOf table.2))

variable {members : Members} {name : String} {path : List String}

theorem names_valuesOf (ms : List (String × Data)) :
    (valuesOf ms).map Prod.fst = ms.map Prod.fst := by
  simp [valuesOf]

theorem apply_table (h : name ∉ List.map Prod.fst members) :
    Statement.apply (path, members) (.table [name]) =
      some ([name], members ++ [(name, .table .header [])]) := by
  simp [Statement.apply, Members.header, Members.find?_eq_none h, openTable,
    Members.put_eq_append h]

theorem apply_assign {inner : Members} {key : String} {d : Data}
    (h : name ∉ List.map Prod.fst members) (hkey : key ∉ List.map Prod.fst inner) :
    Statement.apply ([name], members ++ [(name, .table .header inner)]) (.assign [key] d) =
      some ([name], members ++ [(name, .table .header (inner ++ [(key, .value d)]))]) := by
  simp [Statement.apply, Members.within, Members.find?_append_self h, Members.assign,
    Members.find?_eq_none hkey, Members.put_eq_append hkey, Members.put_append_self h]

/-- The assignments of new keys extend the table that they stand under. -/
theorem foldlM_assign (h : name ∉ List.map Prod.fst members) (before after : List (String × Data))
    (hkeys : ((before ++ after).map Prod.fst).Nodup) :
    (after.map fun m => Statement.assign [m.1] m.2).foldlM Statement.apply
        ([name], members ++ [Table.item (name, before)]) =
      some ([name], members ++ [Table.item (name, before ++ after)]) := by
  induction after generalizing before with
  | nil => simp
  | cons m after ih =>
    have hkey : m.1 ∉ (valuesOf before).map Prod.fst := by
      rw [names_valuesOf]
      intro hm
      rw [List.map_append, List.map_cons] at hkeys
      exact (List.disjoint_of_nodup_append hkeys) hm (by simp)
    have hstep : Statement.apply ([name], members ++ [Table.item (name, before)])
        (.assign [m.1] m.2) = some ([name], members ++ [Table.item (name, before ++ [m])]) := by
      rw [Table.item, apply_assign h hkey]
      simp [Table.item, valuesOf]
    rw [List.map_cons, List.foldlM_cons, hstep]
    have hrest := ih (before ++ [m]) (by simpa using hkeys)
    simpa using hrest

/-- Tables with new names are put behind those that are there. -/
theorem exists_foldlM_tables (tables : List Table) (path : List String) (members : Members)
    (hnames : (members.map Prod.fst ++ tables.map Prod.fst).Nodup)
    (hkeys : ∀ table ∈ tables, (table.2.map Prod.fst).Nodup) :
    ∃ path', (tables.flatMap Table.statements).foldlM Statement.apply (path, members) =
      some (path', members ++ tables.map Table.item) := by
  induction tables generalizing path members with
  | nil => exact ⟨path, by simp⟩
  | cons table tables ih =>
    have hname : table.1 ∉ members.map Prod.fst := by
      intro hm
      exact (List.disjoint_of_nodup_append hnames) hm (by simp)
    have hnames' : ((members ++ [table.item]).map Prod.fst ++ tables.map Prod.fst).Nodup := by
      simpa [Table.item] using hnames
    have htable : table.statements.foldlM Statement.apply (path, members) =
        some ([table.1], members ++ [table.item]) := by
      rw [Table.statements, List.foldlM_cons, apply_table hname]
      exact foldlM_assign hname [] table.2 (hkeys table (by simp))
    obtain ⟨path', hrest⟩ := ih [table.1] _ hnames' fun t ht => hkeys t (by simp [ht])
    refine ⟨path', ?_⟩
    rw [List.flatMap_cons, List.foldlM_append, htable]
    simpa using hrest

theorem membersData_valuesOf (members : List (String × Data)) :
    membersData (valuesOf members) = members := by
  induction members with
  | nil => rfl
  | cons m members ih =>
    simp only [valuesOf, List.map_cons, membersData, Item.toData] at ih ⊢
    rw [ih]

theorem membersData_items (tables : List Table) :
    membersData (tables.map Table.item) = tables.map fun table => (table.1, .record table.2) := by
  induction tables with
  | nil => rfl
  | cons table tables ih =>
    simp only [List.map_cons, Table.item, membersData, Item.toData, membersData_valuesOf] at ih ⊢
    rw [ih]

/-- A text of tables stands for the record of their records. -/
theorem document?_tables {text : String} {tables : List Table}
    (htext : States text.toList (tables.flatMap Table.statements))
    (hmark : text.toList.head? ≠ some '\ufeff') (hnames : (tables.map Prod.fst).Nodup)
    (hkeys : ∀ table ∈ tables, (table.2.map Prod.fst).Nodup) :
    document? text = some (.record (tables.map fun table => (table.1, .record table.2))) := by
  obtain ⟨path, hfold⟩ := exists_foldlM_tables tables [] [] (by simpa using hnames) hkeys
  have hbuild : build? (tables.flatMap Table.statements) = some (tables.map Table.item) := by
    rw [build?, hfold]
    simp
  have hread : statements? (text.toList.length + 1) text.toList =
      some (tables.flatMap Table.statements) := htext _ (Nat.lt_succ_self _)
  unfold document?
  split
  next cs heq => exact absurd (by rw [heq]; rfl) hmark
  next => simp [hread, hbuild, membersData_items]

end Toml

end NodeRanking
