import NodeRanking.Cluster.Document
import NodeRanking.Fault
import NodeRanking.Json.Reader
import NodeRanking.Path
import NodeRanking.Settings.Document

/-!
# Files

A directory is a function from paths to contents.

1. `Directory.ofFiles` knows a file by its way and not by the text of its path.
2. `Snapshot.ofFile` reads a snapshot; the extension of the path says in which format it is.
3. `Settings.effective` never fails: without a file, or with one that cannot be read or decoded, the
   settings are the standard ones.
-/

namespace NodeRanking

/-- The contents of the files that are there, by path. -/
abbrev Directory := String → Option ByteArray

/-- The directory with these files, of which a later one takes the place of an earlier one. -/
def Directory.ofFiles (files : List (String × ByteArray)) : Directory := fun path =>
  let path := Path.ofText path
  if path.toFile then
    (files.reverse.find? fun file => Path.ofText file.1 = path).map (·.2)
  else none

def Directory.text? (files : Directory) (path : String) : Option String :=
  (files path).bind String.fromUTF8?

/-! ## Snapshots -/

/-- A snapshot of a text in JSON. -/
def Snapshot.ofJson (text : String) : Except Fault Snapshot :=
  ((Json.Document.ofText text).decode (Snapshot.ofData .json)).mapError .json

/-- A snapshot of a text in TOML. -/
def Snapshot.ofToml? (text : String) : Option Snapshot :=
  (Toml.document? text).bind fun value => (Snapshot.ofData .toml value).toOption

/-- The snapshot of a file. The file is read before its format is looked at. -/
def Snapshot.ofFile (files : Directory) (path : String) : Except Fault Snapshot := do
  let text ← Fault.file.ofOption (files.text? path)
  match (Path.ofText path).extension? with
  | some "json" => Snapshot.ofJson text
  | some "toml" => Fault.snapshot.ofOption (Snapshot.ofToml? text)
  | none => Fault.snapshot.ofOption (Snapshot.ofToml? text)
  | some other => .error (.format other)

/-! ## Settings -/

def Settings.ofFile (files : Directory) (path : String) : Except Fault Settings :=
  Fault.settings.ofOption ((files.text? path).bind Settings.ofText?)

/-- The settings that hold when this file, or none, is given. -/
def Settings.effective (files : Directory) (path : Option String) : Settings :=
  (path.bind fun path => (Settings.ofFile files path).toOption).getD .standard

end NodeRanking
