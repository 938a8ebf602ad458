import Mathlib.Data.List.Lattice
import Mathlib.Data.List.Nodup
import Mathlib.Data.List.Pairwise
import NodeRanking.Proofs.Data.Decode

/-!
# Records in any order

What a record says of a field is the value under one of its names, if any of these is there
(`Entry`). A form that keeps its fields apart (`RecordForm.Parts`) puts each value into the part of
the draft that belongs to its field, wherever in the record it stands.

1. `Parts.agree_of_decode`: in a draft that has been decoded, every part is the one that the value
   of its field made, or the one from the start if there is none.
2. `Parts.exists_decode`: a record is decoded if its values are. `Parts.decode_eq` says to what.
-/

namespace NodeRanking

namespace Data

/-- The value that some members have under one of a few names, if any of these is there. Only one
member may have such a name. -/
inductive Entry (members : List (String × Data)) (names : List String) : Option Data → Prop
  | absent (hnone : ∀ m ∈ members, m.1 ∉ names) : Entry members names none
  | present {m : String × Data} (hmem : m ∈ members) (hname : m.1 ∈ names)
    (honly : ∀ m' ∈ members, m'.1 ∈ names → m' = m) : Entry members names (some m.2)

namespace Entry

variable {members members' : List (String × Data)} {names names' : List String}
  {value value' : Option Data}

theorem unique (h : Entry members names value) (h' : Entry members names value') :
    value = value' := by
  cases h with
  | absent hnone =>
    cases h' with
    | absent => rfl
    | present hmem hname => exact absurd hname (hnone _ hmem)
  | present hmem hname =>
    cases h' with
    | absent hnone => exact absurd hname (hnone _ hmem)
    | present hmem' hname' honly => rw [honly _ hmem hname]

theorem congr (h : Entry members names value) (heq : ∀ m, m ∈ members ↔ m ∈ members') :
    Entry members' names value := by
  cases h with
  | absent hnone => exact .absent fun m hm => hnone m ((heq m).2 hm)
  | present hmem hname honly =>
    exact .present ((heq _).1 hmem) hname fun m hm => honly m ((heq m).2 hm)

theorem congr_names (h : Entry members names value) (heq : ∀ {n}, n ∈ names ↔ n ∈ names') :
    Entry members names' value := by
  cases h with
  | absent hnone => exact .absent fun m hm hname => hnone m hm (heq.2 hname)
  | present hmem hname honly =>
    exact .present hmem (heq.1 hname) fun m hm hname => honly m hm (heq.2 hname)

theorem of_filter_eq_nil (h : (members.map Prod.fst).filter (· ∈ names) = []) :
    Entry members names none := by
  refine .absent fun m hm hname => ?_
  have hnot := List.filter_eq_nil_iff.1 h m.1 (List.mem_map_of_mem hm)
  exact hnot (decide_eq_true hname)

theorem of_filter_eq_singleton {name : String} {d : Data} (hnames : (members.map Prod.fst).Nodup)
    (h : (members.map Prod.fst).filter (· ∈ names) = [name]) (hmem : (name, d) ∈ members) :
    Entry members names (some d) := by
  have hfilter : ∀ n ∈ members.map Prod.fst, n ∈ names ↔ n = name := by
    intro n hn
    rw [← List.mem_singleton, ← h, List.mem_filter, decide_eq_true_iff, and_iff_right hn]
  refine .present hmem ((hfilter _ (List.mem_map_of_mem hmem)).2 rfl) fun m hm hname => ?_
  exact List.inj_on_of_nodup_map hnames hm hmem ((hfilter _ (List.mem_map_of_mem hm)).1 hname)

end Entry

/-! ## Fields kept apart -/

variable {Field Draft : Type} [DecidableEq Field] {form : RecordForm Field Draft}
  {dialect : Dialect} {agree : Field → Draft → Draft → Prop}

/-- What a bare member does to a draft: nothing if its name is unknown, and otherwise what its field
does, which has not come before. -/
theorem readMember_eq_ok_iff {m : String × Data} (hbare : m.2.IsBare) {seen seen' : List Field}
    {draft draft' : Draft} : form.readMember dialect (seen, draft) m = .ok (seen', draft') ↔
      (form.field? m.1 = none ∧ m.2.wellFormed = true ∧ seen' = seen ∧ draft' = draft) ∨
      ∃ field, form.field? m.1 = some field ∧ field ∉ seen ∧
        form.read dialect field m.2 draft = .ok draft' ∧ seen' = field :: seen := by
  rw [readMember_eq (ne_unnamed_of_isBare hbare)]
  cases hfield : form.field? m.1 with
  | none => cases m.2.wellFormed <;> simp [eq_comm]
  | some field =>
    dsimp only
    rw [enter_of_isBare hbare]
    split_ifs with hseen
    · simp [hseen]
    · rw [bind_eq_ok_iff]
      constructor
      · rintro ⟨next, hnext, hpure⟩
        cases hpure
        exact .inr ⟨field, rfl, hseen, hnext, rfl⟩
      · rintro (⟨hnone, -⟩ | ⟨field', hfield', -, hnext, rfl⟩)
        · cases hnone
        · cases hfield'
          exact ⟨draft', hnext, rfl⟩

/-- A form that keeps its fields apart: `agree` says of two drafts that they have the same part for
a field, reading a field leaves the parts of the others as they are, and no name stands for two
fields. -/
structure RecordForm.Parts (form : RecordForm Field Draft) (agree : Field → Draft → Draft → Prop) :
    Prop where
  equivalence (field : Field) : Equivalence (agree field)
  eq_of_agree {draft draft' : Draft} (h : ∀ field, agree field draft draft') : draft = draft'
  agree_of_read {dialect : Dialect} {field : Field} {d : Data} {draft next : Draft}
    (hread : form.read dialect field d draft = .ok next) (other : Field) (hother : other ≠ field) :
    agree other next draft
  mem_fields (field : Field) : field ∈ form.fields
  names_nodup : (form.fields.flatMap form.names).Nodup

/-- A value, or none, makes the part of its field as it is in a target. -/
def RecordForm.Makes (form : RecordForm Field Draft) (agree : Field → Draft → Draft → Prop)
    (dialect : Dialect) (field : Field) (start target : Draft) : Option Data → Prop
  | none => agree field start target
  | some d => ∀ draft, ∃ next, form.read dialect field d draft = .ok next ∧ agree field next target

namespace RecordForm.Parts

theorem field?_eq_some_iff (h : form.Parts agree) {field : Field} {name : String} :
    form.field? name = some field ↔ name ∈ form.names field := by
  have hmem : ∀ {field}, form.field? name = some field → name ∈ form.names field := by
    intro field hfield
    simpa using List.find?_some hfield
  refine ⟨hmem, fun hname => ?_⟩
  cases hfield : form.field? name with
  | none =>
    have hnot := List.find?_eq_none.1 hfield field (h.mem_fields field)
    simp [hname] at hnot
  | some other =>
    by_contra hne
    have : Std.Symm (Function.onFun List.Disjoint form.names) :=
      ⟨fun _ _ => List.Disjoint.symm⟩
    have hdisjoint := (List.nodup_flatMap.1 h.names_nodup).2.forall
      (h.mem_fields other) (h.mem_fields field) fun heq => hne (congrArg some heq)
    exact hdisjoint (hmem hfield) hname

/-! ## Members in a row -/

variable (h : form.Parts agree) {members : List (String × Data)}
  (hbare : ∀ m ∈ members, m.2.IsBare)
include h hbare

/-- Members that have been read: the part of a field is left as it was if none of them has a name of
the field, and is otherwise the one that such a member made. -/
theorem agree_of_foldlM {seen seen' : List Field} {draft draft' : Draft}
    (hfold : members.foldlM (form.readMember dialect) (seen, draft) = .ok (seen', draft'))
    (field : Field) :
    (agree field draft' draft ∧ ∀ m ∈ members, m.1 ∉ form.names field) ∨
      field ∉ seen ∧ ∃ m ∈ members, m.1 ∈ form.names field ∧ ∃ before after,
        form.read dialect field m.2 before = .ok after ∧ agree field draft' after := by
  induction members generalizing seen draft with
  | nil =>
    cases hfold
    exact .inl ⟨(h.equivalence field).refl _, by simp⟩
  | cons m members ih =>
    obtain ⟨hm, hmembers⟩ := List.forall_mem_cons.1 hbare
    rw [List.foldlM_cons] at hfold
    obtain ⟨⟨seen₁, draft₁⟩, hstep, hrest⟩ := bind_eq_ok_iff.1 hfold
    have ih := ih hmembers hrest
    rcases (readMember_eq_ok_iff hm).1 hstep with ⟨hunknown, -, rfl, rfl⟩ |
      ⟨known, hknown, hnew, hread, rfl⟩
    · rcases ih with ⟨hagree, hnone⟩ | ⟨hunseen, m', hm', hmade⟩
      · refine .inl ⟨hagree, List.forall_mem_cons.2 ⟨fun hname => ?_, hnone⟩⟩
        rw [h.field?_eq_some_iff.2 hname] at hunknown
        cases hunknown
      · exact .inr ⟨hunseen, m', List.mem_cons_of_mem _ hm', hmade⟩
    · by_cases hfield : field = known
      · -- the field has been seen now, so no later member can be read as it
        subst hfield
        rcases ih with ⟨hagree, -⟩ | ⟨hunseen, -⟩
        · exact .inr ⟨hnew, m, List.mem_cons_self, h.field?_eq_some_iff.1 hknown, draft, draft₁,
            hread, hagree⟩
        · exact absurd List.mem_cons_self hunseen
      · rcases ih with ⟨hagree, hnone⟩ | ⟨hunseen, m', hm', hmade⟩
        · refine .inl ⟨(h.equivalence field).trans hagree (h.agree_of_read hread field hfield),
            List.forall_mem_cons.2 ⟨fun hname => ?_, hnone⟩⟩
          rw [h.field?_eq_some_iff.2 hname] at hknown
          exact hfield (Option.some.inj hknown)
        · exact .inr ⟨fun hseen => hunseen (List.mem_cons_of_mem _ hseen), m',
            List.mem_cons_of_mem _ hm', hmade⟩

/-- Members can be read if each value can that has a known name, and no two of them are of the same
field. -/
theorem exists_foldlM (hwell : ∀ m ∈ members, m.2.wellFormed = true)
    (hapart : members.Pairwise fun m m' => ∀ field, m.1 ∈ form.names field →
      m'.1 ∉ form.names field)
    (hread : ∀ m ∈ members, ∀ field, m.1 ∈ form.names field → ∀ draft, ∃ next,
      form.read dialect field m.2 draft = .ok next)
    {seen : List Field} (hseen : ∀ field ∈ seen, ∀ m ∈ members, m.1 ∉ form.names field)
    (draft : Draft) :
    ∃ result, members.foldlM (form.readMember dialect) (seen, draft) = .ok result := by
  -- no member ahead has a name of a field that was seen: the names of a field stand once
  induction members generalizing seen draft with
  | nil => exact ⟨_, rfl⟩
  | cons m members ih =>
    obtain ⟨hm, hbare⟩ := List.forall_mem_cons.1 hbare
    obtain ⟨hmwell, hwell⟩ := List.forall_mem_cons.1 hwell
    obtain ⟨hmapart, hapart⟩ := List.pairwise_cons.1 hapart
    obtain ⟨hmread, hread⟩ := List.forall_mem_cons.1 hread
    have hseen' : ∀ field ∈ seen, ∀ m ∈ members, m.1 ∉ form.names field := fun field hfield m hm =>
      hseen field hfield m (List.mem_cons_of_mem _ hm)
    rw [List.foldlM_cons]
    cases hfield : form.field? m.1 with
    | none =>
      obtain ⟨result, hresult⟩ := ih hbare hwell hapart hread hseen' draft
      have hstep : form.readMember dialect (seen, draft) m = .ok (seen, draft) :=
        (readMember_eq_ok_iff hm).2 (.inl ⟨hfield, hmwell, rfl, rfl⟩)
      exact ⟨result, bind_eq_ok hstep hresult⟩
    | some field =>
      have hname := h.field?_eq_some_iff.1 hfield
      have hnew : field ∉ seen := fun hmem => hseen field hmem m List.mem_cons_self hname
      obtain ⟨next, hnext⟩ := hmread field hname draft
      have hstep : form.readMember dialect (seen, draft) m = .ok (field :: seen, next) :=
        (readMember_eq_ok_iff hm).2 (.inr ⟨field, hfield, hnew, hnext, rfl⟩)
      obtain ⟨result, hresult⟩ := ih hbare hwell hapart hread
        (List.forall_mem_cons.2 ⟨fun m' hm' => hmapart m' hm' field hname, hseen'⟩) next
      exact ⟨result, bind_eq_ok hstep hresult⟩

/-! ## A whole record -/

/-- The parts of a draft that has been decoded. -/
theorem agree_of_decode {start final : Draft} {field : Field} {value : Option Data}
    (hdecode : form.decode dialect start (.record members) = .ok final)
    (hentry : Entry members (form.names field) value) :
    match value with
    | none => agree field final start
    | some d => ∃ before after, form.read dialect field d before = .ok after ∧
        agree field final after := by
  obtain ⟨⟨seen, draft⟩, hfold, hpure⟩ := bind_eq_ok_iff.1 hdecode
  obtain rfl : draft = final := Except.ok.inj hpure
  have hparts := h.agree_of_foldlM hbare hfold field
  cases hentry with
  | absent hnone =>
    rcases hparts with ⟨hagree, -⟩ | ⟨-, m, hm, hname, -⟩
    · exact hagree
    · exact absurd hname (hnone m hm)
  | present hmem hname honly =>
    rcases hparts with ⟨-, hnone⟩ | ⟨-, m, hm, hname', hmade⟩
    · exact absurd hname (hnone _ hmem)
    · rwa [honly m hm hname'] at hmade

/-- A record is decoded if the fields have one value each, or none, and the values can be read. -/
theorem exists_decode (hwell : ∀ m ∈ members, m.2.wellFormed = true)
    (hnames : (members.map Prod.fst).Nodup)
    (hentry : ∀ field, ∃ value, Entry members (form.names field) value ∧
      ∀ d, value = some d → ∀ draft, ∃ next, form.read dialect field d draft = .ok next)
    (start : Draft) : ∃ final, form.decode dialect start (.record members) = .ok final := by
  -- an entry says of every member with a name of its field that it is the only one
  have hof : ∀ m ∈ members, ∀ field, m.1 ∈ form.names field →
      (∀ m' ∈ members, m'.1 ∈ form.names field → m' = m) ∧
        ∀ draft, ∃ next, form.read dialect field m.2 draft = .ok next := by
    intro m hm field hname
    obtain ⟨value, hvalue, hread⟩ := hentry field
    cases hvalue with
    | absent hnone => exact absurd hname (hnone m hm)
    | present hmem hname' honly =>
      obtain rfl := honly m hm hname
      exact ⟨honly, hread _ rfl⟩
  have hapart : members.Pairwise fun m m' => ∀ field, m.1 ∈ form.names field →
      m'.1 ∉ form.names field := by
    refine (List.pairwise_map.1 hnames).imp_of_mem fun {m m'} hm hm' hne field hname hname' => ?_
    exact hne (congrArg Prod.fst ((hof m hm field hname).1 m' hm' hname')).symm
  have hseen : ∀ field ∈ ([] : List Field), ∀ m ∈ members, m.1 ∉ form.names field := by simp
  obtain ⟨⟨seen, draft⟩, hfold⟩ := h.exists_foldlM hbare hwell hapart
    (fun m hm field hname => (hof m hm field hname).2) hseen start
  exact ⟨draft, decode_record seen hfold⟩

/-- A draft that has been decoded has the part of a target that the value of the field makes. -/
theorem agree_target_of_decode {start final target : Draft} {field : Field} {value : Option Data}
    (hdecode : form.decode dialect start (.record members) = .ok final)
    (hentry : Entry members (form.names field) value)
    (hmakes : form.Makes agree dialect field start target value) : agree field final target := by
  have hparts := h.agree_of_decode hbare hdecode hentry
  cases value with
  | none => exact (h.equivalence field).trans hparts hmakes
  | some d =>
    obtain ⟨before, after, hread, hagree⟩ := hparts
    obtain ⟨next, hnext, htarget⟩ := hmakes before
    obtain rfl : after = next := Except.ok.inj (hread.symm.trans hnext)
    exact (h.equivalence field).trans hagree htarget

/-- A record is decoded to a target if the fields have one value each that makes their part of it,
or none and the part is there from the start. -/
theorem decode_eq (hwell : ∀ m ∈ members, m.2.wellFormed = true)
    (hnames : (members.map Prod.fst).Nodup) {start target : Draft}
    (hentry : ∀ field, ∃ value, Entry members (form.names field) value ∧
      form.Makes agree dialect field start target value) :
    form.decode dialect start (.record members) = .ok target := by
  obtain ⟨final, hfinal⟩ := h.exists_decode hbare hwell hnames (fun field => by
    obtain ⟨value, hvalue, hmakes⟩ := hentry field
    refine ⟨value, hvalue, ?_⟩
    rintro d rfl draft
    obtain ⟨next, hnext, -⟩ := hmakes draft
    exact ⟨next, hnext⟩) start
  rw [hfinal]
  refine congrArg _ (h.eq_of_agree fun field => ?_)
  obtain ⟨value, hvalue, hmakes⟩ := hentry field
  exact h.agree_target_of_decode hbare hfinal hvalue hmakes

end RecordForm.Parts

end Data

end NodeRanking
