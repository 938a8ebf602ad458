import NodeRanking.Command.Run
import NodeRanking.Proofs.Settings
import NodeRanking.Proofs.Settings.Document
import NodeRanking.Session

/-!
# Settings written as text

The text of settings reads back as the repaired settings, and so, where nothing is to be repaired,
as the very same ones. What the program shows of the settings in force therefore reads back as the
settings that a session with the same file works with (`Settings.text_reads_back`), whatever the
file holds.

Repair is a projection onto usable settings that changes nothing else. So settings that were read
from a text, and have been repaired there, come through unchanged when a session repairs them once
more (`Settings.repaired_projects`).
-/

namespace NodeRanking

open Command

attribute [local irreducible] Binary64.one Binary64.limit

namespace Settings

theorem ofText?_toText (s : Settings) : ofText? s.toText = some s.repaired := by
  have hdata : ofData (.record (s.tables.map fun table => (table.1, .record table.2))) =
      .ok s.repaired :=
    Data.bind_eq_ok (decode_tables .toml s standard) rfl
  rw [ofText?, document?_toText, Option.bind_some, hdata]
  rfl

/-- Settings that have been read are the repair of what the document of their text decodes to. -/
theorem exists_decode_of_ofText? {text : String} {s : Settings} (h : ofText? text = some s) :
    ∃ value drafted, Toml.document? text = some value ∧
      form.decode .toml standard value = .ok drafted ∧ drafted.repaired = s := by
  obtain ⟨value, htext, hvalue⟩ := Option.bind_eq_some_iff.1 h
  cases hread : ofData value with
  | error fault => simp [hread, Except.toOption] at hvalue
  | ok s' =>
    obtain rfl : s' = s := by simpa [hread, Except.toOption] using hvalue
    obtain ⟨drafted, hdrafted, hrepaired⟩ := Data.bind_eq_ok_iff.1 hread
    exact ⟨value, drafted, htext, hdrafted, Except.ok.inj hrepaired⟩

/-- Settings that have been read need no repair. -/
theorem repaired_of_ofText? {text : String} {s : Settings} (h : ofText? text = some s) :
    s.repaired = s := by
  obtain ⟨_, drafted, -, -, rfl⟩ := exists_decode_of_ofText? h
  exact repaired_repaired drafted

/-- Repaired settings have finite weights that are not below zero and a usable curve, so a finite
peak. A usable weight is kept and any other one replaced by the standard one of its criterion; the
three constants of the curve are kept if they are usable together, and all replaced otherwise;
polarities, shape and mode stay. Repairing twice is repairing once, and a session keeps the settings
that were read from a text. -/
theorem repaired_projects (s : Settings) :
    ((∀ c, Nonnegative (s.repaired.criteria.get c).weight) ∧ s.repaired.curve.isUsable = true ∧
      (s.repaired.curve.base + s.repaired.curve.scale).isFinite = true) ∧
    (∀ c, (Nonnegative (s.criteria.get c).weight →
        (s.repaired.criteria.get c).weight = (s.criteria.get c).weight) ∧
      (¬Nonnegative (s.criteria.get c).weight →
        (s.repaired.criteria.get c).weight = (standard.criteria.get c).weight) ∧
      (s.repaired.criteria.get c).polarity = (s.criteria.get c).polarity) ∧
    ((s.curve.isUsable = true → s.repaired.curve = s.curve) ∧
      (s.curve.isUsable = false → s.repaired.curve.base = standard.curve.base ∧
        s.repaired.curve.scale = standard.curve.scale ∧
        s.repaired.curve.rate = standard.curve.rate) ∧
      s.repaired.curve.shape = s.curve.shape) ∧
    s.repaired.mode = s.mode ∧
    s.repaired.repaired = s.repaired ∧
    ∀ text read, ofText? text = some read → ∀ nodes, (Session.start read nodes).settings = read := by
  have hcurve := isUsable_curve_repaired s
  refine ⟨⟨s.nonnegative_criterion_repaired, hcurve,
    (PowerCurve.isUsable_iff.1 hcurve).peak_finite⟩, fun c => ⟨fun h => ?_,
    weight_repaired_of_unusable, polarity_repaired s c⟩, ⟨curve_repaired, fun h => ?_,
    shape_repaired s⟩, rfl, repaired_repaired s, fun text read hread nodes =>
    repaired_of_ofText? hread⟩
  · rw [criterion_repaired h]
  · rw [curve_repaired_of_unusable h]
    exact ⟨rfl, rfl, rfl⟩

/-- The settings in force need no repair, whatever the file holds. -/
theorem repaired_effective (files : Directory) (path : Option String) :
    (effective files path).repaired = effective files path := by
  have hstandard : standard.repaired = standard := by decide +kernel
  unfold effective
  cases path with
  | none => exact hstandard
  | some path =>
    simp only [Option.bind_some, ofFile]
    cases hread : (files.text? path).bind ofText? with
    | none => exact hstandard
    | some s =>
      obtain ⟨text, -, htext⟩ := Option.bind_eq_some_iff.1 hread
      exact repaired_of_ofText? htext

/-- The text of settings reads back as their repair, and what the program shows of the settings in
force reads back as the settings of a session with the same file. -/
theorem text_reads_back (s : Settings) (env : Environment) (config : Option String)
    (nodes : List Node) :
    ofText? s.toText = some s.repaired ∧
      (s.repaired = s → ofText? s.toText = some s) ∧
      ∃ text, Invocation.output env ⟨config, .settings⟩ = .ok text ∧
        ofText? text = some (effective env.files config) ∧
        effective env.files config = (Session.start (effective env.files config) nodes).settings := by
  have heffective := repaired_effective env.files config
  refine ⟨ofText?_toText s, ?_, (effective env.files config).toText, rfl, ?_, heffective.symm⟩
  · intro hs
    rw [ofText?_toText, hs]
  · rw [ofText?_toText, heffective]

/-- Settings with the least and the greatest number, a negative zero and a fraction without end. -/
def extreme : Settings where
  criteria := ⟨⟨5e-324, .benefit⟩, ⟨1.7976931348623157e308, .cost⟩, ⟨.zero true, .cost⟩,
    ⟨0.1, .benefit⟩⟩
  curve := ⟨1e300, 3e-7, 123456789012345680, .decaying⟩
  mode := .projected

theorem text_reads_back_extreme :
    extreme.repaired = extreme ∧ ofText? extreme.toText = some extreme := by
  have hrepaired : extreme.repaired = extreme := by decide +kernel
  exact ⟨hrepaired, (text_reads_back extreme ⟨fun _ => none, id, ""⟩ none []).2.1 hrepaired⟩

end Settings

end NodeRanking
