import NodeRanking.Cluster.Document
import NodeRanking.Proofs.Data.Decode

/-!
# Documents of snapshots

What is written of a snapshot decodes to the snapshot, in either dialect.
-/

namespace NodeRanking

open Data

theorem Amount.ofData_toNat (resource : Resource) (a : UInt64) :
    Amount.ofData resource (.integer a.toNat) = .ok a := by
  have hrange : 0 ≤ (a.toNat : Int) ∧ (a.toNat : Int) < UInt64.size :=
    ⟨by omega, by exact_mod_cast a.toNat_lt⟩
  rw [Amount.ofData, if_pos hrange, Int.toNat_natCast, UInt64.ofNat_toNat]

theorem asCount_toNat (n : UInt32) : asCount (.integer n.toNat) = .ok n := by
  have hrange : 0 ≤ (n.toNat : Int) ∧ (n.toNat : Int) < UInt32.size :=
    ⟨by omega, by exact_mod_cast n.toNat_lt⟩
  rw [asCount, if_pos hrange, Int.toNat_natCast, UInt32.ofNat_toNat]

variable (dialect : Dialect)

theorem Resources.ofData_toData {name : Resource → String} (hname : name .cpu ≠ name .memory)
    (r : Resources) : Resources.ofData name dialect (r.toData name) = .ok r := by
  have hcpu : (Resources.form name).field? (name .cpu) = some .cpu := by
    simp [RecordForm.field?, Resources.form]
  have hmemory : (Resources.form name).field? (name .memory) = some .memory := by
    simp [RecordForm.field?, Resources.form, hname.symm]
  refine decode_record [.memory, .cpu] ?_
  refine foldlM_readMember_cons .cpu hcpu (by simp) trivial
    (bind_eq_ok (Amount.ofData_toNat _ _) rfl) ?_
  exact foldlM_readMember_cons .memory hmemory (by simp) trivial
    (bind_eq_ok (Amount.ofData_toNat _ _) rfl) rfl

theorem Node.ofData_toData (node : Node) : Node.ofData dialect node.toData = .ok node := by
  have resources (r : Resources) :
      Resources.ofData resourceName dialect (r.toData resourceName) = .ok r :=
    Resources.ofData_toData dialect (by decide) r
  refine bind_eq_ok_iff.2 ⟨⟨node.name, node.allocatable, node.requested, node.pods⟩, ?_, rfl⟩
  refine decode_record [.pods, .requested, .allocatable, .name] ?_
  refine foldlM_readMember_cons .name rfl (by simp) trivial rfl ?_
  refine foldlM_readMember_cons .allocatable rfl (by simp) trivial
    (bind_eq_ok (resources _) rfl) ?_
  refine foldlM_readMember_cons .requested rfl (by simp) trivial
    (bind_eq_ok (resources _) rfl) ?_
  exact foldlM_readMember_cons .pods rfl (by simp) trivial
    (bind_eq_ok (asCount_toNat _) rfl) rfl

theorem Workload.ofData_toData (workload : Workload) :
    Workload.ofData dialect workload.toData = .ok workload := by
  have containers := asList_map (Resources.toData resourceName) (fun _ => trivial)
    (Resources.ofData_toData dialect (by decide)) workload.containers
  refine bind_eq_ok_iff.2 ⟨⟨workload.name, workload.containers⟩, ?_, rfl⟩
  refine decode_record [.containers, .name] ?_
  refine foldlM_readMember_cons .name rfl (by simp) trivial rfl ?_
  exact foldlM_readMember_cons .containers rfl (by simp) trivial
    (bind_eq_ok containers rfl) rfl

/-- An optional workload is null or a record. -/
theorem Snapshot.workload_toData (workload : Option Workload) :
    ((workload.map Workload.toData).getD .null).IsBare ∧
      asOption (Workload.ofData dialect) ((workload.map Workload.toData).getD .null) =
        .ok workload := by
  cases workload with
  | none => exact ⟨trivial, rfl⟩
  | some workload =>
    refine ⟨trivial, ?_⟩
    show some <$> Workload.ofData dialect workload.toData = .ok (some workload)
    rw [Workload.ofData_toData]
    rfl

/-- What is written of a snapshot decodes to the snapshot. -/
theorem Snapshot.ofData_toData (snapshot : Snapshot) :
    Snapshot.ofData dialect snapshot.toData = .ok snapshot := by
  have nodes := asList_map Node.toData (fun _ => trivial)
    (Node.ofData_toData dialect) snapshot.nodes
  have pending := asList_map Workload.toData (fun _ => trivial)
    (Workload.ofData_toData dialect) snapshot.pending
  obtain ⟨hbare, workload⟩ := workload_toData dialect snapshot.workload
  refine decode_record [.pending, .workload, .nodes] ?_
  refine foldlM_readMember_cons .nodes rfl (by simp) trivial
    (bind_eq_ok nodes rfl) ?_
  refine foldlM_readMember_cons .workload rfl (by simp) hbare
    (bind_eq_ok workload rfl) ?_
  exact foldlM_readMember_cons .pending rfl (by simp) trivial
    (bind_eq_ok pending rfl) rfl

end NodeRanking
