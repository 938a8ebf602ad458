import NodeRanking.Proofs.Data.Decode
import NodeRanking.Proofs.Json.Reader

/-!
# Decoding what has been read

The places on a value that has been read say where it was left, and matter to faults only. A decoder
that succeeds on a value therefore succeeds alike on the value with places: it is `Tolerant`. Every
shape of `Data` is tolerant if the decoders of its parts are.
-/

namespace NodeRanking

open Data Json

variable {α : Type} {read : Data → Decoded α} {d v : Data} {a : α}

/-- What the decoder makes of a value, it makes of the value with places on it. -/
def Tolerant (read : Data → Decoded α) : Prop :=
  ∀ ⦃d v a⦄, Marked d v → read d = .ok a → read v = .ok a

theorem Json.Marked.isBare (h : Marked d v) : d.IsBare := by
  cases h <;> trivial

theorem Tolerant.bind {β : Type} {f : α → Decoded β} (h : Tolerant read) :
    Tolerant fun d => read d >>= f := by
  intro d v b hdv hd
  obtain ⟨a, ha, hb⟩ := bind_eq_ok_iff.1 hd
  exact bind_eq_ok (h hdv ha) hb

/-- A part is decoded alike with the place behind it. -/
theorem Tolerant.enter (h : Tolerant read) (hdv : Marked d v) (hd : enter read d = .ok a)
    (leave : Mark) : Data.enter read (.located leave v) = .ok a := by
  rw [enter_of_isBare hdv.isBare] at hd
  rw [Data.enter, h hdv hd]
  rfl

/-! ## Scalars -/

theorem tolerant_asText : Tolerant asText := by
  intro d v a hdv hd
  cases hdv <;> simp_all [asText]

theorem tolerant_asCount : Tolerant asCount := by
  intro d v a hdv hd
  cases hdv <;> simp_all [asCount]

/-! ## Lists and options -/

theorem mapM_enter {items items' : List Data} {as : List α} (h : Tolerant read)
    (hitems : MarkedItems items items') (hd : items.mapM (enter read) = .ok as) :
    items'.mapM (enter read) = .ok as := by
  induction items generalizing items' as with
  | nil =>
    cases hitems
    exact hd
  | cons item items ih =>
    cases hitems with
    | cons leave hitem hrest =>
      rw [List.mapM_cons] at hd ⊢
      obtain ⟨a, ha, hd⟩ := bind_eq_ok_iff.1 hd
      obtain ⟨bs, hbs, hd⟩ := bind_eq_ok_iff.1 hd
      exact bind_eq_ok (h.enter hitem ha leave) (bind_eq_ok (ih hrest hbs) hd)

theorem Tolerant.asList (h : Tolerant read) : Tolerant (asList read) := by
  intro d v as hdv hd
  cases hdv with
  | list hitems => exact mapM_enter h hitems hd
  | _ => simp [Data.asList] at hd

theorem Tolerant.asOption (h : Tolerant read) : Tolerant (asOption read) := by
  intro d v a hdv hd
  have hsome : Tolerant fun d => some <$> read d := by
    intro d v a hdv hd
    simp only [← bind_pure_comp] at hd ⊢
    exact h.bind hdv hd
  cases hdv with
  | null => exact hd
  | integer n => exact hd
  | text s => exact hd
  | list hitems => exact hsome (.list hitems) hd
  | record hmembers => exact hsome (.record hmembers) hd

/-! ## Records -/

mutual

/-- A value with places on it can be passed over. -/
theorem wellFormed_of_marked (d : Data) {v : Data} (h : Marked d v) : v.wellFormed = true := by
  cases d with
  | list items =>
    cases h with
    | list h => exact itemsWellFormed_of_marked items h
  | record members =>
    cases h with
    | record h => exact membersWellFormed_of_marked members h
  | _ => cases h <;> rfl

theorem itemsWellFormed_of_marked (items : List Data) {vs : List Data} (h : MarkedItems items vs) :
    itemsWellFormed vs = true := by
  cases items with
  | nil =>
    cases h
    rfl
  | cons item items =>
    cases h with
    | cons leave hitem hrest =>
      simp [itemsWellFormed, wellFormed, wellFormed_of_marked item hitem,
        itemsWellFormed_of_marked items hrest]

theorem membersWellFormed_of_marked (members : List (String × Data)) {vs : List (String × Data)}
    (h : MarkedMembers members vs) : membersWellFormed vs = true := by
  cases members with
  | nil =>
    cases h
    rfl
  | cons member members =>
    cases h with
    | cons leave hvalue hrest =>
      simp [membersWellFormed, wellFormed, wellFormed_of_marked _ hvalue,
        membersWellFormed_of_marked members hrest]

end

variable {Field Draft : Type} [DecidableEq Field] {form : RecordForm Field Draft}

theorem readMember_marked {name : String} {state state' : List Field × Draft}
    (h : ∀ field draft, Tolerant (form.read .json field · draft)) (hdv : Marked d v)
    (hd : form.readMember .json state (name, d) = .ok state') (leave : Mark) :
    form.readMember .json state (name, .located leave v) = .ok state' := by
  rw [readMember_eq (ne_unnamed_of_isBare hdv.isBare)] at hd
  rw [readMember_eq (by simp)]
  cases hfield : form.field? name with
  | none =>
    have hv : (Data.located leave v).wellFormed = true := by
      rw [wellFormed, wellFormed_of_marked d hdv]
    simp only [hfield, hv, if_true] at hd ⊢
    split_ifs at hd
    exact hd
  | some field =>
    simp only [hfield] at hd ⊢
    split_ifs at hd ⊢
    obtain ⟨draft, hdraft, hd⟩ := bind_eq_ok_iff.1 hd
    exact bind_eq_ok ((h field state.2).enter hdv hdraft leave) hd

theorem foldlM_marked {members members' : List (String × Data)} {state state' : List Field × Draft}
    (h : ∀ field draft, Tolerant (form.read .json field · draft))
    (hmembers : MarkedMembers members members')
    (hd : members.foldlM (form.readMember .json) state = .ok state') :
    members'.foldlM (form.readMember .json) state = .ok state' := by
  induction members generalizing members' state with
  | nil =>
    cases hmembers
    exact hd
  | cons member members ih =>
    cases hmembers with
    | cons leave hvalue hrest =>
      rw [List.foldlM_cons] at hd ⊢
      obtain ⟨next, hnext, hd⟩ := bind_eq_ok_iff.1 hd
      exact bind_eq_ok (readMember_marked h hvalue hnext leave) (ih hrest hd)

omit [DecidableEq Field] in
theorem readItems_marked {fields : List Field} {items items' : List Data} {draft draft' : Draft}
    (h : ∀ field draft, Tolerant (form.read .json field · draft))
    (hitems : MarkedItems items items')
    (hd : form.readItems .json fields items draft = .ok draft') :
    form.readItems .json fields items' draft = .ok draft' := by
  induction items generalizing items' fields draft with
  | nil =>
    cases hitems
    exact hd
  | cons item items ih =>
    cases hitems with
    | cons leave hitem hrest =>
      cases fields with
      | nil => simp [RecordForm.readItems] at hd
      | cons field fields =>
        obtain ⟨next, hnext, hd⟩ := bind_eq_ok_iff.1 hd
        exact bind_eq_ok ((h field draft).enter hitem hnext leave) (ih hrest hd)

/-- A record is decoded alike with places on it, in either way of writing it. -/
theorem tolerant_decode (h : ∀ field draft, Tolerant (form.read .json field · draft))
    (draft : Draft) : Tolerant (form.decode .json draft) := by
  intro d v a hdv hd
  cases hdv with
  | list hitems => exact readItems_marked h hitems hd
  | record hmembers =>
    obtain ⟨state, hstate, hd⟩ := bind_eq_ok_iff.1 hd
    exact bind_eq_ok (foldlM_marked h hmembers hstate) hd
  | _ => simp [RecordForm.decode] at hd

end NodeRanking
