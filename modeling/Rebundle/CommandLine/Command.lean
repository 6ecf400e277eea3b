import Rebundle.CommandLine.Reading
import Rebundle.Update.Stages

/-!
# Commands

What a command line asks for: take a bundle out of an executable, patch a bundle, or update the
package to the latest release. The texts of a command line are those that a system passes to a
program. They hold no NUL, and of the surrogates only escaped bytes, so a file may stand at every
path among them.
-/

namespace Rebundle

inductive Command where
  | extract (input output : FilePath) (binaryName platform : Text)
  | patch (input output : FilePath) (config? : Option FilePath) (dialect : Text)
      (threshold : Number) (showsStats : Bool)
  | update (config? : Option FilePath) (options : UpdateOptions)

namespace CommandLine

/-- A command, and whether much is to be reported. -/
structure Invocation where
  verbose : Bool
  command : Command

def readExtract (texts : List Text) : Except Exit Command := do
  let switches := [Switch.help, .setting "--binary-name", .setting "--platform"]
  let given ← read switches 2 (fun _ _ => true) texts
  match given.operands with
  | [input, output] =>
      return .extract (FilePath.ofText input) (FilePath.ofText output)
        ((given.setting? "--binary-name").getD Markers.standardBinary)
        ((given.setting? "--platform").getD Markers.standardPlatform)
  | _ => throw .misuse

/-- Whether a setting of the patch command may have this value. -/
def acceptsPatch (name value : Text) : Bool :=
  if name = "--dialect" then (Dialect.ofName? value).isSome
  else if name = "--max-error-ratio" then (Binary64.ofText? value).isSome
  else true

def readPatch (texts : List Text) : Except Exit Command := do
  let switches := [Switch.help, .setting "--config", .setting "--dialect",
    .setting "--max-error-ratio", .flag "--stats"]
  let given ← read switches 2 acceptsPatch texts
  match given.operands with
  | [input, output] =>
      let threshold := ((given.setting? "--max-error-ratio").bind Binary64.ofText?).map Number.real
      return .patch (FilePath.ofText input) (FilePath.ofText output)
        ((given.setting? "--config").map FilePath.ofText)
        ((given.setting? "--dialect").getD Patcher.standard.dialect)
        (threshold.getD Patcher.standardThreshold) (given.has "--stats")
  | _ => throw .misuse

def readUpdate (texts : List Text) : Except Exit Command := do
  let switches := [Switch.help, .setting "--work-dir", .setting "--state", .setting "--platform",
    .setting "--arch", .flag "--no-avx2", .setting "--fallback-version", .flag "--skip-checksum",
    .setting "--config"]
  let given ← read switches 0 (fun _ _ => true) texts
  let path (name : String) (otherwise : FilePath) : FilePath :=
    ((given.setting? name).map FilePath.ofText).getD otherwise
  let standard := UpdateOptions.standard
  return .update ((given.setting? "--config").map FilePath.ofText)
    { standard with
      workDirectory := path "--work-dir" standard.workDirectory
      statePath := path "--state" standard.statePath
      machine :=
        { platform := (given.setting? "--platform").getD standard.machine.platform
          architecture := (given.setting? "--arch").getD standard.machine.architecture
          hasAvx2 := !given.has "--no-avx2" }
      fallback := given.setting? "--fallback-version"
      verifiesChecksum := !given.has "--skip-checksum" }

/-- The command of this name with its words. -/
def readNamed (name : Text) (texts : List Text) : Except Exit Command :=
  if name = "extract" then readExtract texts
  else if name = "patch" then readPatch texts
  else if name = "update" then readUpdate texts
  else .error .misuse

def verboseSwitch : Switch := ⟨"--verbose", some "-v", false⟩

/-- Reads words up to the name of a command; `strange` tells that an unknown switch stood before. -/
def readFrom (verbose strange : Bool) : List (Word × Text) → Except Exit Invocation
  | [] => .error .misuse
  | (.operand name, _) :: rest => do
      let command ← readNamed name (rest.map (·.2))
      if strange then throw .misuse
      return ⟨verbose, command⟩
  | (.switch switch _, _) :: rest =>
      if switch = Switch.help then .error .help else readFrom true strange rest
  | (.flags switches more, _) :: rest =>
      if switches.contains Switch.help then .error .help else readFrom true (strange || more) rest
  | (.unknown, _) :: rest => readFrom verbose true rest
  | (.divider, _) :: _ => .error .misuse
  | (.malformed, _) :: _ => .error .misuse

/-- The command that a command line asks for. -/
def parse (texts : List Text) : Except Exit Invocation := do
  let words ← words [Switch.help, verboseSwitch] texts
  readFrom false false (words.zip texts)

end CommandLine

namespace Command

/-- A patch without its code, as it is printed. -/
def statsText (patch : Patch) : Text :=
  (Json.pieces Json.asciiLiteral 0 [] (Json.object patch.summary).sorted).flatten ++ "\n"

/-- Does what a command asks for, and gives what it prints. -/
def execute (network : Remote) : Command → Run Text
  | .extract input output binaryName platform => do
      let header ← Run.ofExcept (Markers.headerFor binaryName platform) .encoding
      let e ← Extraction.ofFile input.text output.text ⟨header, Markers.standardTail⟩
      Run.write (Log.info ("extraction status: " ++ e.status))
      return []
  | .patch input output config? dialect threshold showsStats => do
      let config ← PatchConfig.resolve config?
      let patcher := { Patcher.standard with dialect, threshold, parser := (← get).host.parser }
      let patch ← patcher.patchFile input.text output.text config
      return if showsStats then statsText patch else []
  | .update config? options => do
      let config ← PatchConfig.resolve config?
      let update := Update.start { options with config } network
      fun world =>
        let ((result, _), world) := (Registry.standard.update.run update).run world
        (result.map fun _ => [], world)

/-- Does what a command asks for, and gives the code it ends with and what it prints. The failures of
the program itself and of the system are reported; others come through. -/
def run (network : Remote) (command : Command) : Run (Nat × Text) := do
  match ← Run.attempt (command.execute network) with
  | .ok printed => return (0, printed)
  | .error (.system fault) =>
      Run.write (Log.error ("I/O error: " ++ fault.message))
      return (1, [])
  | .error (.foreign .system message) =>
      Run.write (Log.error ("I/O error: " ++ message))
      return (1, [])
  | .error failure =>
      if failure.isOwn then
        Run.write (Log.error failure.message)
        return (1, [])
      else throw failure

end Command

end Rebundle
