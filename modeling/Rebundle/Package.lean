import Rebundle.Storage

/-!
# Packages

A package is a directory with the patched bundle and a manifest that names it. Of the last release that
was packaged a state file is kept; when it is missing or cannot be read, nothing was packaged before.
-/

namespace Rebundle

structure PackageState where
  packageName : Text
  version : Text
  binName : Text
deriving DecidableEq

namespace PackageState

def standard : PackageState := ⟨"droid-patched", [], "droid"⟩

/-- The plain text of a member that is given, otherwise the text that stands in for it. -/
def textOf (key : Text) (otherwise : Text) (members : List (Text × Json)) : Text :=
  match Table.get? key members with
  | some v => if v.isGiven then v.plainText else otherwise
  | none => otherwise

/-- The state that the members of an object describe. -/
def ofMembers (members : List (Text × Json)) : PackageState where
  packageName := textOf "packageName" standard.packageName members
  version := textOf "version" [] members
  binName := textOf "bin_name" standard.binName members

def members (state : PackageState) : List (Text × Json) :=
  [("packageName", .string state.packageName), ("version", .string state.version),
   ("bin_name", .string state.binName)]

/-- The description of a state. -/
def toJson (state : PackageState) : Json := .object state.members

/-- The state that the content of a state file means. -/
def ofContent (path : FilePath) : Storage.JsonContent → Logged PackageState
  | .value (.object members) =>
      let state := ofMembers members
      let known : Text := if state.version.isEmpty then "none" else state.version
      ⟨state, [Log.info ("current packaged version: " ++ known)]⟩
  | .missing | .invalid | .value .null => pure standard
  | .value _ =>
      ⟨standard, [Log.warning
        ("state file " ++ path.text ++ " does not hold an object, using defaults")]⟩

/-- The state in a file. -/
def load (path : FilePath) : Run PackageState := do
  let content ← Storage.readJson path
  Run.ofLogged (Except.ok <$> ofContent path content)

/-- Writes the state to a file. -/
def save (path : FilePath) (state : PackageState) : Run Unit := do
  Storage.writeJson path.text state.toJson
  Run.write (Log.info ("state file updated: " ++ path.text))

end PackageState

end Rebundle

namespace Rebundle.Package

/-- The name of the file with the bundle. -/
def mainName : Text := "index.cjs"

/-- The packages that the bundle needs when nothing else is said. -/
def standardDependencies : Table Text Text := [("ws", "^8.18.0")]

/-- The manifest of a version. -/
def manifest (state : PackageState) (version : Text) (dependencies : Table Text Text) : Json :=
  .object [
    ("name", .string state.packageName),
    ("version", .string version),
    ("main", .string mainName),
    ("bin", .object [(state.binName, .string mainName)]),
    ("dependencies", .object (dependencies.map fun entry => (entry.1, .string entry.2)))]

/-- Writes the bundle and the manifest into a directory, and gives the path of the bundle. -/
def write (directory : FilePath) (code : Text) (state : PackageState) (version : Text)
    (dependencies : Table Text Text) : Run FilePath := do
  Run.onDisk (Disk.ensureDirectory directory)
  let main := directory.child mainName
  Storage.writeText main.text code
  Storage.writeJson (directory.child "package.json").text (manifest state version dependencies)
  Run.write (Log.info
    ("package " ++ state.packageName ++ "@" ++ version ++ " written to " ++ directory.text))
  return main

end Rebundle.Package
