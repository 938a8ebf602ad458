import NodeRanking.Proofs.Settings.Sections
import NodeRanking.Proofs.SettingsText

/-!
# Settings as they are written

A text gives the settings that its sections say, with standard values for all that is left out or
cannot be used. Nothing else counts: neither the order of the sections and of the keys in them, nor
which of its titles a section has, nor what stands in the other sections (`read_as_written`).
-/

namespace NodeRanking

namespace Settings

open Data Toml

variable {text text' : String} {doc doc' table table' : List (String × Data)} {part : Section}
  {w : Written}

/-! ## The table of a section -/

theorem HasTable.unique (h : HasTable doc part table) (h' : HasTable doc part table') :
    table = table' := by
  obtain ⟨value, hentry, hvalue⟩ := h
  obtain ⟨value', hentry', hvalue'⟩ := h'
  rw [hentry.unique hentry', hvalue'] at hvalue
  exact (Data.record.inj hvalue).symm

theorem HasTable.proper (hproper : Proper (.record doc)) (h : HasTable doc part table) :
    Proper (.record table) := by
  obtain ⟨value, hentry, hvalue⟩ := h
  rw [← hvalue]
  cases hentry with
  | absent => exact .record (by simp) (by simp)
  | present hmem => exact hproper.of_mem _ hmem

theorem HasTable.absent (h : (doc.map Prod.fst).filter (· ∈ part.titles) = []) :
    HasTable doc part [] := ⟨none, .of_filter_eq_nil h, rfl⟩

theorem HasTable.present {name : String} (hnames : (doc.map Prod.fst).Nodup)
    (h : (doc.map Prod.fst).filter (· ∈ part.titles) = [name]) (position : ℕ)
    (hmem : doc[position]? = some (name, .record table)) : HasTable doc part table :=
  ⟨some (.record table), .of_filter_eq_singleton hnames h (List.mem_of_getElem? hmem), rfl⟩

theorem Written.SaidIn.congr (h : w.SaidIn table part) (heq : ∀ m, m ∈ table ↔ m ∈ table') :
    w.SaidIn table' part := by
  cases part with
  | criterion c => exact ⟨h.1.congr heq, h.2.congr heq⟩
  | curve => exact ⟨h.1.congr heq, h.2.1.congr heq, h.2.2.1.congr heq, h.2.2.2.congr heq⟩
  | placement => exact Says.congr h heq

/-- Two documents have the same table for a section, in whatever order and under whatever title. -/
def SameTable (part : Section) (doc doc' : List (String × Data)) : Prop :=
  ∃ table table', HasTable doc part table ∧ HasTable doc' part table' ∧ table.Perm table'

theorem Written.SaidBy.of_sameTable (h : w.SaidBy doc) (hsame : SameTable part doc doc') :
    ∃ table', HasTable doc' part table' ∧ w.SaidIn table' part := by
  obtain ⟨table, table', htable, htable', hperm⟩ := hsame
  obtain ⟨table₁, htable₁, hsaid⟩ := h part
  obtain rfl := htable.unique htable₁
  exact ⟨table', htable', hsaid.congr fun _ => hperm.mem_iff⟩

/-! ## Decoding -/

/-- A section that is decoded from its table makes the part of settings that it is decoded to. One
that is left out is decoded from the empty table, which changes nothing. -/
theorem makes_of_decode {α : Type} {read : Data → Decoded α} {old new : α} {target : Settings}
    {value : Option Data} (hvalue : value.getD (.record []) = .record table)
    (hnew : read (.record table) = .ok new) (hold : read (.record []) = .ok old)
    (hstandard : old = new → AgreeOn part standard target)
    (hread : ∀ s, ∃ next, form.read .toml part (.record table) s = .ok next ∧
      AgreeOn part next target) : form.Makes AgreeOn .toml part standard target value := by
  cases value with
  | none =>
    obtain rfl : [] = table := Data.record.inj hvalue
    exact hstandard (Except.ok.inj (hold.symm.trans hnew))
  | some d =>
    obtain rfl : d = .record table := hvalue
    exact hread

theorem makes_of_saidIn (hproper : Proper (.record table)) {value : Option Data}
    (hvalue : value.getD (.record []) = .record table) (h : w.SaidIn table part) :
    form.Makes AgreeOn .toml part standard w.drafted value := by
  cases part with
  | criterion c =>
    have hget : w.drafted.criteria.get c = (w.criteria.get c).onto (standard.criteria.get c) :=
      ByCriterion.get_ofFn _ _
    have hnew := CriterionSettings.decode_of_saidBy hproper h (standard.criteria.get c)
    refine makes_of_decode hvalue hnew rfl (fun hstandard => ?_) fun s => ?_
    · exact hstandard.trans hget.symm
    · refine ⟨_, bind_eq_ok hnew rfl, ?_⟩
      exact ((get_setCriterion _ _ _ _).trans (if_pos rfl)).trans hget.symm
  | curve =>
    have hnew := PowerCurve.decode_of_saidBy hproper h .standard
    exact makes_of_decode hvalue hnew rfl id fun s => ⟨_, bind_eq_ok hnew rfl, rfl⟩
  | placement =>
    have hnew := Mode.decode_of_says hproper h .current
    exact makes_of_decode hvalue hnew rfl id fun s => ⟨_, bind_eq_ok hnew rfl, rfl⟩

theorem decode_of_saidBy (hproper : Proper (.record doc)) (h : w.SaidBy doc) :
    form.decode .toml standard (.record doc) = .ok w.drafted := by
  refine decode_table parts hproper fun part => ?_
  obtain ⟨table, htable, hsaid⟩ := h part
  have htableProper := htable.proper hproper
  obtain ⟨value, hentry, hvalue⟩ := htable
  exact ⟨value, hentry.congr_names Section.mem_names_iff.symm,
    makes_of_saidIn htableProper hvalue hsaid⟩

/-! ## Reading a text -/

theorem ofText?_of_saidBy (htext : document? text = some (.record doc)) (h : w.SaidBy doc) :
    ofText? text = some w.settings := by
  have hdata : ofData (.record doc) = .ok w.settings :=
    bind_eq_ok (decode_of_saidBy (proper_document? htext).1 h)
      (congrArg Except.ok w.repaired_drafted)
  rw [ofText?, htext, Option.bind_some, hdata]
  rfl

/-- Of a section that says something the settings are those that it says, whatever the others do. -/
theorem agreeOn_of_saidIn {s : Settings} (htext : document? text = some (.record doc))
    (hread : ofText? text = some s) (htable : HasTable doc part table)
    (h : w.SaidIn table part) : AgreeOn part s w.settings := by
  have hproper := (proper_document? htext).1
  have htableProper := htable.proper hproper
  obtain ⟨value, hentry, hvalue⟩ := htable
  obtain ⟨value', drafted, hvalue', hdrafted, rfl⟩ := exists_decode_of_ofText? hread
  obtain rfl : .record doc = value' := Option.some.inj (htext.symm.trans hvalue')
  rw [← w.repaired_drafted]
  exact (parts.agree_target_of_decode (fun m hm => (hproper.of_mem m hm).isBare) hdrafted
    (hentry.congr_names Section.mem_names_iff.symm)
    (makes_of_saidIn htableProper hvalue h)).repaired

/-- A text is read as its sections say. Another text with the same tables gives the same settings,
and if it has the same table for some section only, then the settings of that section are the same
as long as the text is read at all. -/
theorem read_as_written (htext : document? text = some (.record doc)) (hsaid : w.SaidBy doc) :
    ofText? text = some w.settings ∧
      ∀ text' doc', document? text' = some (.record doc') →
        ((∀ part, SameTable part doc doc') → ofText? text' = some w.settings) ∧
        ∀ s', ofText? text' = some s' →
          ∀ part, SameTable part doc doc' → AgreeOn part s' w.settings := by
  refine ⟨ofText?_of_saidBy htext hsaid, fun text' doc' htext' => ⟨fun hsame => ?_,
    fun s' hs' part hsame => ?_⟩⟩
  · exact ofText?_of_saidBy htext' fun part => hsaid.of_sameTable (hsame part)
  · obtain ⟨table', htable', hsaid'⟩ := hsaid.of_sameTable hsame
    exact agreeOn_of_saidIn htext' hs' htable' hsaid'

/-! ## Other titles and another order -/

/-- All sections, most of them under other titles than their own, with weights and a constant that
cannot be used, a key and a section that are unknown, and keys left out. -/
def aliasedText : String :=
  "mem = \x7b type = \" BENEFIT\", note = 1 \x7d\n[pods]\nweight = -1\n[powerModel]\nk2 = 5\n" ++
    "k0 = -1\nformula = \"decaying\"\n[powerCriteria]\ntype = \"benefit\"\n" ++
    "[cpuCriteria]\nweight = nan\n[placement]\nmode = \"projected\"\n[extra]\n"

def aliasedDoc : List (String × Data) :=
  [("mem", .record [("type", .text " BENEFIT"), ("note", .integer 1)]),
    ("pods", .record [("weight", .integer (-1))]),
    ("powerModel", .record [("k2", .integer 5), ("k0", .integer (-1)),
      ("formula", .text "decaying")]),
    ("powerCriteria", .record [("type", .text "benefit")]),
    ("cpuCriteria", .record [("weight", .float .nan)]),
    ("placement", .record [("mode", .text "projected")]),
    ("extra", .record [])]

def aliased : Written where
  criteria := ⟨⟨some (.ofInt (-1)), none⟩, ⟨some .nan, none⟩, ⟨none, some " BENEFIT"⟩,
    ⟨none, some "benefit"⟩⟩
  curve := ⟨some (.ofInt (-1)), none, some (.ofInt 5), some .decaying⟩
  mode := some .projected

/-- The same in another order and under the own titles of the sections, but for what the section of
the processor says. -/
def editedText : String :=
  "[placement]\nmode = \"projected\"\n[cpu]\nweight = 2\n[power_model]\n" ++
    "formula = \"decaying\"\nk0 = -1\nk2 = 5\n[pod_load_balancing]\nweight = -1\n" ++
    "[memory]\nnote = 1\ntype = \" BENEFIT\"\n[power]\ntype = \"benefit\"\n"

def editedDoc : List (String × Data) :=
  [("placement", .record [("mode", .text "projected")]),
    ("cpu", .record [("weight", .integer 2)]),
    ("power_model", .record [("formula", .text "decaying"), ("k0", .integer (-1)),
      ("k2", .integer 5)]),
    ("pod_load_balancing", .record [("weight", .integer (-1))]),
    ("memory", .record [("note", .integer 1), ("type", .text " BENEFIT")]),
    ("power", .record [("type", .text "benefit")])]

theorem document?_aliasedText : document? aliasedText = some (.record aliasedDoc) := by cbv

theorem document?_editedText : document? editedText = some (.record editedDoc) := by cbv

theorem saidBy_aliasedDoc : aliased.SaidBy aliasedDoc := by
  have hnames : (aliasedDoc.map Prod.fst).Nodup := by decide
  rintro (c | _ | _)
  · cases c with
    | pods =>
      refine ⟨_, .present hnames (by decide) 1 rfl, ?_, .absent (by decide)⟩
      exact .present (by decide) (by decide) (.head _) (.whole _)
    | cpu =>
      refine ⟨_, .present hnames (by decide) 4 rfl, ?_, .absent (by decide)⟩
      exact .present (by decide) (by decide) (.head _) (.float _)
    | memory =>
      refine ⟨_, .present hnames (by decide) 0 rfl, .absent (by decide), ?_⟩
      exact .present (by decide) (by decide) (.head _) (.text _)
    | power =>
      refine ⟨_, .present hnames (by decide) 3 rfl, .absent (by decide), ?_⟩
      exact .present (by decide) (by decide) (.head _) (.text _)
  · refine ⟨_, .present hnames (by decide) 2 rfl, ?_, .absent (by decide), ?_, ?_⟩
    · exact .present (by decide) (by decide) (.tail _ (.head _)) (.whole _)
    · exact .present (by decide) (by decide) (.head _) (.whole _)
    · exact .present (by decide) (by decide) (.tail _ (.tail _ (.head _))) (.text CurveShape.decaying)
  · refine ⟨_, .present hnames (by decide) 5 rfl, ?_⟩
    exact .present (by decide) (by decide) (.head _) (.text Mode.projected)

theorem sameTable_aliasedDoc (hpart : part ≠ .criterion .cpu) :
    SameTable part aliasedDoc editedDoc := by
  have hnames : (aliasedDoc.map Prod.fst).Nodup := by decide
  have hnames' : (editedDoc.map Prod.fst).Nodup := by decide
  obtain c | _ | _ := part
  · cases c with
    | pods =>
      exact ⟨_, _, .present hnames (by decide) 1 rfl, .present hnames' (by decide) 3 rfl, .refl _⟩
    | cpu => exact absurd rfl hpart
    | memory =>
      exact ⟨_, _, .present hnames (by decide) 0 rfl, .present hnames' (by decide) 4 rfl,
        .swap _ _ _⟩
    | power =>
      exact ⟨_, _, .present hnames (by decide) 3 rfl, .present hnames' (by decide) 5 rfl, .refl _⟩
  · exact ⟨_, _, .present hnames (by decide) 2 rfl, .present hnames' (by decide) 2 rfl,
      (List.reverse_perm _).symm⟩
  · exact ⟨_, _, .present hnames (by decide) 5 rfl, .present hnames' (by decide) 0 rfl, .refl _⟩

/-- The settings of a document that says nothing. -/
def unsaid : Written where
  criteria := ⟨⟨none, none⟩, ⟨none, none⟩, ⟨none, none⟩, ⟨none, none⟩⟩
  curve := ⟨none, none, none, none⟩
  mode := none

theorem saidBy_nil : unsaid.SaidBy [] := by
  rintro (c | _ | _)
  · refine ⟨[], .absent rfl, ?_⟩
    cases c <;> exact ⟨.absent rfl, .absent rfl⟩
  · exact ⟨[], .absent rfl, .absent rfl, .absent rfl, .absent rfl, .absent rfl⟩
  · exact ⟨[], .absent rfl, .absent rfl⟩

/-- An empty text has the standard settings. The text with other titles says what the edited one
says of all sections but that of the processor. -/
theorem read_as_written_aliased :
    (document? "" = some (.record []) ∧ unsaid.SaidBy [] ∧
      ofText? "" = some ⟨⟨⟨0.2, .cost⟩, ⟨0.2, .cost⟩, ⟨0.2, .cost⟩, ⟨0.4, .cost⟩⟩,
        ⟨150, 100, 3, .saturating⟩, .current⟩) ∧
    document? aliasedText = some (.record aliasedDoc) ∧ aliased.SaidBy aliasedDoc ∧
      ofText? aliasedText = some ⟨⟨⟨0.2, .cost⟩, ⟨0.2, .cost⟩, ⟨0.2, .benefit⟩,
        ⟨0.4, .benefit⟩⟩, ⟨150, 100, 3, .decaying⟩, .projected⟩ ∧
      document? editedText = some (.record editedDoc) ∧
      ∃ edited, ofText? editedText = some edited ∧ edited.criteria.cpu = ⟨2, .cost⟩ ∧
        ∀ part, part ≠ .criterion .cpu → AgreeOn part edited aliased.settings := by
  have hempty : document? "" = some (.record []) := rfl
  have hunsaid : unsaid.settings = ⟨⟨⟨0.2, .cost⟩, ⟨0.2, .cost⟩, ⟨0.2, .cost⟩, ⟨0.4, .cost⟩⟩,
      ⟨150, 100, 3, .saturating⟩, .current⟩ := by decide +kernel
  have hsettings : aliased.settings = ⟨⟨⟨0.2, .cost⟩, ⟨0.2, .cost⟩, ⟨0.2, .benefit⟩,
      ⟨0.4, .benefit⟩⟩, ⟨150, 100, 3, .decaying⟩, .projected⟩ := by decide +kernel
  obtain ⟨hreadEmpty, -⟩ := read_as_written hempty saidBy_nil
  obtain ⟨hread, hother⟩ := read_as_written document?_aliasedText saidBy_aliasedDoc
  have hsome : ofText? editedText = some { aliased.settings with
      criteria := ⟨⟨0.2, .cost⟩, ⟨2, .cost⟩, ⟨0.2, .benefit⟩, ⟨0.4, .benefit⟩⟩ } := by
    rw [ofText?, document?_editedText]
    decide +kernel
  refine ⟨⟨hempty, saidBy_nil, hunsaid ▸ hreadEmpty⟩, document?_aliasedText, saidBy_aliasedDoc,
    hsettings ▸ hread, document?_editedText, _, hsome, rfl, fun part hpart => ?_⟩
  exact (hother _ _ document?_editedText).2 _ hsome part (sameTable_aliasedDoc hpart)

end Settings

end NodeRanking
