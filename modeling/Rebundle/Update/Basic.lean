import Rebundle.Datum.Summary
import Rebundle.Patch
import Rebundle.Release.Download
import Rebundle.Release.Fetch
import Rebundle.Release.Version

/-!
# Updates

An update brings the package to the latest release. It goes through stages, each of which takes up
what the stages before it have found out; what a stage finds out stays, also when the stage fails.
-/

namespace Rebundle

/-- How an update is to be done. -/
structure UpdateOptions where
  workDirectory : FilePath
  statePath : FilePath
  packageDirectory? : Option FilePath
  machine : Machine
  scriptUrl : Text
  baseUrl : Text
  fallback : Option Text
  verifiesChecksum : Bool
  dialect : Text
  config : PatchConfig

namespace UpdateOptions

def standard : UpdateOptions where
  workDirectory := FilePath.ofText "droid"
  statePath := FilePath.ofText "config.json"
  packageDirectory? := none
  machine := Machine.standard
  scriptUrl := Version.standardScript
  baseUrl := Download.standardBase
  fallback := none
  verifiesChecksum := true
  dialect := Dialect.javascript.name
  config := PatchConfig.standard

/-- The directory of the package; unless it is given it lies beside the work directory. -/
def packageDirectory (options : UpdateOptions) : FilePath :=
  options.packageDirectory?.getD (options.workDirectory.parent.child "package")

end UpdateOptions

/-- An update under way: what it has found out so far, and a note for every stage that left one. -/
structure Update where
  options : UpdateOptions
  remote : Remote
  state : PackageState
  version : Text
  download? : Option Download
  binaryPath? : Option FilePath
  bundlePath? : Option FilePath
  patchedPath? : Option FilePath
  isUpToDate : Bool
  notes : Table Text Json

namespace Update

/-- An update that has not begun. -/
def start (options : UpdateOptions) (remote : Remote) : Update :=
  ⟨options, remote, PackageState.standard, [], none, none, none, none, false, []⟩

/-- The update with the note of a stage, in place of an earlier one. -/
def note (stage : Text) (members : List (Text × Datum)) (update : Update) : Update :=
  let entries := members.map fun entry => (Datum.text entry.1, entry.2)
  { update with notes := update.notes.put stage (Datum.summary (.map entries)) }

end Update

/-- Work on an update. -/
abbrev Work (α : Type) := ExceptT Failure (StateT Update (StateM World)) α

namespace Work

/-- A run as work that leaves the update alone. -/
def ofRun (run : Run α) : Work α := fun update world =>
  let (result, world) := run world
  ((result, update), world)

/-- The outcome of work, which may be a failure; what the work did stays done. -/
def attempt (work : Work α) : Work (Except Failure α) := fun update world =>
  let ((result, update), world) := work update world
  ((.ok result, update), world)

def write (record : Log.Record) : Work Unit := ofRun (Run.write record)

/-- Leaves the note of a stage, of members that can be summarised. -/
def note (stage : Text) (members : List (Text × Datum)) : Work Unit :=
  modify fun update => update.note stage members

/-- Leaves the note of a stage, unless something keeps the members from being summarised. -/
def record (stage : Text) (members : List (Text × Datum)) : Work Unit := do
  let { host, .. } ← ofRun get
  match Datum.summarised host.levels (.map (members.map fun entry => (.text entry.1, entry.2))) with
  | .error fault => throw (.datum fault)
  | .ok note => modify fun update => { update with notes := update.notes.put stage note }

end Work

end Rebundle
