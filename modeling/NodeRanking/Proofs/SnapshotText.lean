import NodeRanking.Files
import NodeRanking.Proofs.Cluster.Document
import NodeRanking.Proofs.Json.Decode

/-!
# Snapshots written as JSON

A file that holds the text of a snapshot, without blanks or over several lines, is read as that
snapshot (`Snapshot.ofFile_written`): every name with all its characters, every amount of 64 bits
and every count unchanged.
-/

namespace NodeRanking

open Data Json

/-! ## Places do not matter -/

theorem tolerant_amount (resource : Resource) : Tolerant (Amount.ofData resource) := by
  intro d v a hdv hd
  cases hdv with
  | list _ => simp [Amount.ofData] at hd
  | record _ => simp [Amount.ofData] at hd
  | _ => exact hd

theorem tolerant_resources (name : Resource → String) : Tolerant (Resources.ofData name .json) := by
  apply tolerant_decode
  intro resource r
  exact (tolerant_amount resource).bind

theorem tolerant_node : Tolerant (Node.ofData .json) := by
  apply Tolerant.bind
  apply tolerant_decode
  intro field draft
  cases field with
  | name => exact tolerant_asText.bind
  | allocatable => exact (tolerant_resources _).bind
  | requested => exact (tolerant_resources _).bind
  | pods => exact tolerant_asCount.bind

theorem tolerant_workload : Tolerant (Workload.ofData .json) := by
  apply Tolerant.bind
  apply tolerant_decode
  intro field draft
  cases field with
  | name => exact tolerant_asText.bind
  | containers => exact (tolerant_resources _).asList.bind

theorem tolerant_snapshot : Tolerant (Snapshot.ofData .json) := by
  apply tolerant_decode
  intro field draft
  cases field with
  | nodes => exact tolerant_node.asList.bind
  | workload => exact tolerant_workload.asOption.bind
  | pending => exact tolerant_workload.asList.bind

/-! ## Documents of snapshots are exact -/

theorem exactItems_map {α : Type} {write : α → Data} (h : ∀ a, Exact (write a)) (as : List α) :
    ExactItems (as.map write) := by
  induction as with
  | nil => trivial
  | cons a as ih => exact ⟨h a, ih⟩

theorem exact_amount (a : UInt64) : Exact (.integer a.toNat) := by
  have hlt := a.toNat_lt
  refine ⟨by omega, ?_⟩
  show (a.toNat : Int) ≤ (Number.wordTop : Nat)
  rw [Number.wordTop, UInt64.size]
  omega

theorem exact_resources (name : Resource → String) (r : Resources) : Exact (r.toData name) :=
  ⟨exact_amount r.cpu, exact_amount r.memory, trivial⟩

theorem exact_node (node : Node) : Exact node.toData := by
  have hpods := exact_amount node.pods.toUInt64
  exact ⟨trivial, exact_resources _ _, exact_resources _ _, by simpa using hpods, trivial⟩

theorem exact_workload (workload : Workload) : Exact workload.toData :=
  ⟨trivial, exactItems_map (exact_resources _) _, trivial⟩

theorem exact_snapshot (snapshot : Snapshot) : Exact snapshot.toData := by
  have hworkload : Exact ((snapshot.workload.map Workload.toData).getD .null) := by
    cases snapshot.workload with
    | none => trivial
    | some workload => exact exact_workload workload
  exact ⟨exactItems_map exact_node _, hworkload, exactItems_map exact_workload _, trivial⟩

/-! ## Reading back -/

/-- A text that is read as a complete document of a snapshot with places is read as the snapshot. -/
theorem ofJson_of_marked {snapshot : Snapshot} {text : String}
    (h : ∃ v, Document.ofText text = ⟨v, true⟩ ∧ Marked snapshot.toData v) :
    Snapshot.ofJson text = .ok snapshot := by
  obtain ⟨v, htext, hmarked⟩ := h
  have hread : Snapshot.ofData .json v = .ok snapshot :=
    tolerant_snapshot hmarked (Snapshot.ofData_toData .json snapshot)
  rw [Snapshot.ofJson, htext, Document.decode, hread]
  rfl

theorem text?_eq {files : Directory} {path text : String} (h : files path = some text.toUTF8) :
    files.text? path = some text := by
  rw [Directory.text?, h]
  show String.fromUTF8? text.toUTF8 = some text
  rw [String.fromUTF8?, String.toUTF8_eq_toByteArray, dif_pos text.isValidUTF8]
  rfl

/-- A file in JSON with what is written of a snapshot is read as the snapshot. -/
theorem Snapshot.ofFile_written (snapshot : Snapshot) (print : Data → String)
    (hprint : print = compact ∨ print = pretty) (files : Directory) (path : String)
    (hfile : files path = some (print snapshot.toData).toUTF8)
    (hpath : (Path.ofText path).extension? = some "json") :
    Snapshot.ofFile files path = .ok snapshot := by
  have htext : Snapshot.ofJson (print snapshot.toData) = .ok snapshot := by
    apply ofJson_of_marked
    rcases hprint with rfl | rfl
    · exact exists_document_compact (exact_snapshot snapshot)
    · exact exists_document_pretty (exact_snapshot snapshot)
  rw [Snapshot.ofFile, text?_eq hfile, hpath]
  exact htext

/-- A node with the largest amounts and count, and names that need every kind of escape. -/
def widest : Snapshot where
  nodes := [⟨"a\"\\\t\x01é", ⟨UInt64.ofNat (2 ^ 64 - 1), UInt64.ofNat (2 ^ 53 + 1)⟩, ⟨0, 1⟩, UInt32.ofNat (2 ^ 32 - 1)⟩]
  workload := some ⟨"", [⟨1500, 0⟩]⟩
  pending := [⟨"web\n", []⟩, ⟨"web\n", [⟨1, 2⟩, ⟨3, 4⟩]⟩]

theorem ofFile_written_widest :
    Snapshot.ofFile (.ofFiles [("cluster.json", (pretty widest.toData).toUTF8)]) "./cluster.json" =
      .ok widest := by
  have hfile : (Path.ofText "./cluster.json").toFile = true := by decide +kernel
  have hsame : Path.ofText "cluster.json" = Path.ofText "./cluster.json" := by decide +kernel
  apply Snapshot.ofFile_written widest pretty (.inr rfl)
  · simp [Directory.ofFiles, hfile, hsame]
  · decide +kernel

end NodeRanking
