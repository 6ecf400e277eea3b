import Rebundle.Extraction
import Rebundle.Package
import Rebundle.Update.Registry

/-!
# The stages of an update

Find out the latest version, download its binary, take the bundle out, patch it, write the package,
clear the work directory, and remember the version.
-/

namespace Rebundle

namespace Datum

def ofNat (n : Nat) : Datum := .number (.whole n)

/-- The members of an object as data. -/
def ofTextMembers (members : List (Text × Json)) : List (Text × Datum) :=
  members.map fun entry => (entry.1, ofJson entry.2)

end Datum

namespace UpdateStage

def resolveVersion : Work Unit := do
  let { options, remote, .. } ← get
  let state ← Work.ofRun (PackageState.load options.statePath)
  modify fun update => { update with state }
  let version ← Work.ofRun <|
    Version.latest options.scriptUrl (remote.text options.scriptUrl) options.fallback
  let isUpToDate := !state.version.isEmpty && state.version == version
  modify fun update => { update with version, isUpToDate }
  Work.note "resolve_version"
    [("version", .text version), ("previous", .text state.version),
     ("up_to_date", .bool isUpToDate)]

/-- The digest of data, verified against the one that a remote publishes. -/
def verified (remote : Remote) (url : Text) (data : Bytes) : Run Text := do
  let published ← Run.ask (remote.text url)
  Run.ofLogged (Checksum.report data published)

def download : Work Unit := do
  let { options, remote, version, .. } ← get
  let info := Download.ofVersion options.baseUrl version options.machine
  modify fun update => { update with download? := some info }
  Work.write (Log.info ("downloading " ++ info.binaryUrl))
  let data ← Work.ofRun (Run.ask (remote.bytes info.binaryUrl))
  let digest ←
    if options.verifiesChecksum then
      Datum.text <$> Work.ofRun (verified remote info.sha256Url data)
    else pure .null
  Work.ofRun (Run.onDisk (Disk.ensureDirectory options.workDirectory))
  let path := options.workDirectory.child info.binaryName
  modify fun update => { update with binaryPath? := some path }
  Work.ofRun (Storage.writeBytes path.text data)
  Work.note "download"
    [("url", .text info.binaryUrl), ("bytes", Datum.ofNat data.length), ("sha256", digest)]

def extract : Work Unit := do
  let { options, binaryPath?, download?, .. } ← get
  match binaryPath?, download? with
  | some binary, some info =>
      let path := options.workDirectory.child "droid_processed.js"
      modify fun update => { update with bundlePath? := some path }
      let header ← Work.ofRun <| Run.ofExcept
        (Markers.headerFor info.binaryName options.machine.platform) .encoding
      let e ← Work.ofRun <|
        Extraction.ofFile binary.text path.text ⟨header, Markers.standardTail⟩
      Work.note "extract"
        (("bytes", Datum.ofNat e.payload.length) :: Datum.ofTextMembers e.summary)
  | _, _ => throw (.foreign .runtime "no downloaded binary to extract")

def patch : Work Unit := do
  let { options, bundlePath?, .. } ← get
  match bundlePath? with
  | some bundle =>
      let path := options.workDirectory.child "droid_patched.js"
      modify fun update => { update with patchedPath? := some path }
      let { host, .. } ← Work.ofRun get
      let patcher := { Patcher.standard with dialect := options.dialect, parser := host.parser }
      let result ← Work.ofRun (patcher.patchFile bundle.text path.text options.config)
      Work.note "patch" (("edits", Datum.ofNat result.edits) :: Datum.ofTextMembers result.summary)
  | none => throw (.foreign .runtime "no extracted source to patch")

def package : Work Unit := do
  let { options, state, version, patchedPath?, .. } ← get
  match patchedPath? with
  | some patched =>
      let code ← Work.ofRun (Storage.readText patched.text)
      let _ ← Work.ofRun <|
        Package.write options.packageDirectory code state version Package.standardDependencies
      Work.note "package" [("version", .text version), ("path", .path options.packageDirectory)]
  | none => throw (.foreign .runtime "no patched source to package")

def cleanUp : Work Unit := do
  let { options, .. } ← get
  Work.write (Log.info ("removing work directory " ++ options.workDirectory.text))
  Work.ofRun (Run.onDisk (Disk.removeTree options.workDirectory))
  Work.note "cleanup" [("removed", .path options.workDirectory)]

def persist : Work Unit := do
  modify fun update => { update with state := { update.state with version := update.version } }
  let { options, state, version, .. } ← get
  Work.ofRun (state.save options.statePath)
  Work.note "persist" [("version", .text version)]

end UpdateStage

/-- The registry of the stages of an update. -/
def Registry.standard : Registry :=
  ([] : Registry)
    |> register "resolve_version" 10 UpdateStage.resolveVersion
    |> register "download" 20 UpdateStage.download
    |> register "extract" 30 UpdateStage.extract
    |> register "patch" 40 UpdateStage.patch
    |> register "package" 50 UpdateStage.package
    |> register "cleanup" 60 UpdateStage.cleanUp
    |> register "persist" 70 UpdateStage.persist

end Rebundle
