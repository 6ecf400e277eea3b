import Rebundle.Proofs.Package.Loading
import Rebundle.Proofs.Update.Completion

/-!
# What the stages have done

A stage that succeeded has found what it works on where the stage before it left it, and leaves what it
makes for the next one. The stages up to the patch write to the work directory only; the package has two
files, and the state one.
-/

namespace Rebundle

namespace UpdateOptions

/-- The patcher of an update. -/
def patcher (options : UpdateOptions) (parser : Parser) : Patcher :=
  { Patcher.standard with dialect := options.dialect, parser }

/-- The place of the bundle of the package. -/
def mainPlace (options : UpdateOptions) : Place :=
  Place.ofText (options.packageDirectory.child Package.mainName).text

/-- The place of the manifest of the package. -/
def manifestPlace (options : UpdateOptions) : Place :=
  Place.ofText (options.packageDirectory.child "package.json").text

end UpdateOptions

/-- A disk on which a directory and what is below it may have changed, but no other file. -/
def Disk.SameOutside (directory : FilePath) (disk after : Disk) : Prop :=
  ∀ place, ¬ Place.ofText directory.text <+: place → after.content? place = disk.content? place

namespace Disk

variable {directory : FilePath} {disk between after : Disk}

theorem SameOutside.trans (first : SameOutside directory disk between)
    (second : SameOutside directory between after) : SameOutside directory disk after :=
  fun place outside => (second place outside).trans (first place outside)

theorem Stored.sameOutside {content : Bytes} {name : Text} (plain : directory.Plain)
    (named : FilePath.PlainName name) (level : name ≠ "..")
    (stored : Stored (Place.ofText (directory.child name).text) content disk after) :
    SameOutside directory disk after := by
  intro place outside
  refine stored.elsewhere place ?_
  rintro rfl
  rw [Place.ofText_child plain named level] at outside
  exact outside (List.prefix_append _ _)

end Disk

/-- An update of a package from some state to some version. -/
structure Update.About (options : UpdateOptions) (remote : Remote) (loaded : PackageState) (version : Text)
    (update : Update) : Prop where
  options : update.options = options
  remote : update.remote = remote
  state : update.state = loaded
  version : update.version = version

namespace UpdateStage

open Update (About)

variable {options : UpdateOptions} {remote : Remote} {loaded : PackageState} {version : Text}
  {update passed : Update} {world after : World}

theorem latest_ok {url : Text} {script : Nat → Exchange Text} {fallback : Option Text}
    (done : Version.latest url script fallback world = (.ok version, after)) :
    (Version.settle fallback (Version.ofScript url (script world.questions).result)).value = .ok version ∧
      after.host = world.host ∧ after.disk = world.disk ∧ after.questions = world.questions + 1 := by
  obtain ⟨outcome, between, asked, done⟩ := Run.bind_ok done
  change (Except.ok (Prod.fst (Run.ask script world)), Prod.snd (Run.ask script world)) = _ at asked
  rw [Run.ask_apply] at asked
  cases asked
  obtain ⟨settled, still⟩ := Run.ofLogged_ok done
  exact ⟨settled, still.host, still.disk, still.questions⟩

/-- The first stage finds the state and the version. -/
theorem resolveVersion_ok
    (done : resolveVersion (Update.start options remote) world = ((.ok (), passed), after)) :
    ∃ loaded version, About options remote loaded version passed ∧
      Prod.fst (PackageState.load options.statePath world) = .ok loaded ∧
      (Version.settle options.fallback (Version.ofScript options.scriptUrl
        (remote.text options.scriptUrl world.questions).result)).value = .ok version ∧
      after.host = world.host ∧ after.disk = world.disk ∧ after.questions = world.questions + 1 := by
  replace done := Work.read_ok done
  obtain ⟨loaded, between, found, done⟩ := Work.run_ok done
  replace done := Work.change_ok done
  obtain ⟨version, _, asked, done⟩ := Work.run_ok done
  replace done := Work.change_ok done
  cases done
  have still := (PackageState.gives_load options.statePath world).still found
  obtain ⟨settled, host, disk, questions⟩ := latest_ok asked
  rw [still.questions] at settled questions
  exact ⟨loaded, version, ⟨rfl, rfl, rfl, rfl⟩, by rw [found], settled, host.trans still.host,
    disk.trans still.disk, questions⟩

/-- Verifying a digest keeps the host and all files. -/
theorem keeps_of_verified {url digest : Text} {data : Bytes}
    (done : verified remote url data world = (.ok digest, after)) :
    after.host = world.host ∧ ∀ place, after.disk.content? place = world.disk.content? place := by
  have stays : Run.Stays (verified remote url data) := keeps_verified remote url data
  have spares : ∀ place, Run.Spares place (verified remote url data) := fun _ => keeps_verified remote url data
  refine ⟨?_, fun place => ?_⟩
  · simpa only [done] using stays world
  · simpa only [done] using spares place world

/-- The binary is written to the work directory. -/
theorem store_ok (plain : options.workDirectory.Plain) {name : Text} (named : FilePath.PlainName name)
    (level : name ≠ "..") {info : Download} {data : Bytes} {members : List (Text × Datum)}
    (done : (do
      Work.ofRun (Run.onDisk (Disk.ensureDirectory options.workDirectory))
      modify fun update => { update with binaryPath? := some (options.workDirectory.child name) }
      Work.ofRun (Storage.writeBytes (options.workDirectory.child name).text data)
      Work.note "download" members : Work Unit) update world = ((.ok (), passed), after))
    (about : About options remote loaded version update) (told : update.download? = some info) :
    About options remote loaded version passed ∧ passed.download? = some info ∧
      passed.binaryPath? = some (options.workDirectory.child name) ∧
      after.disk.content? (Place.ofText (options.workDirectory.child name).text) = some data ∧
      after.host = world.host ∧ world.disk.SameOutside options.workDirectory after.disk := by
  obtain ⟨_, between, ensured, done⟩ := Work.run_ok done
  replace done := Work.change_ok done
  obtain ⟨_, _, wrote, done⟩ := Work.run_ok done
  cases done
  obtain ⟨-, disk, -, host⟩ := Run.onDisk_ok ensured
  have stored := Storage.stored_writeBytes wrote
  refine ⟨⟨about.options, about.remote, about.state, about.version⟩, told, rfl, stored.holds,
    (Storage.host_writeBytes wrote).trans host, fun place outside => ?_⟩
  rw [stored.sameOutside plain named level place outside, disk, Disk.content?_ensureDirectory]

/-- The binary that the remote sends is put into the work directory. -/
theorem download_ok (plain : options.workDirectory.Plain) (about : About options remote loaded version update)
    (done : download update world = ((.ok (), passed), after)) :
    let info := Download.ofVersion options.baseUrl version options.machine
    let path := options.workDirectory.child options.machine.binaryName
    ∃ data, (remote.bytes info.binaryUrl world.questions).result = .ok data ∧
      About options remote loaded version passed ∧ passed.download? = some info ∧
      passed.binaryPath? = some path ∧ after.disk.content? (Place.ofText path.text) = some data ∧
      after.host = world.host ∧ world.disk.SameOutside options.workDirectory after.disk := by
  obtain ⟨options, remote, loaded, version, _, _, _, _, _, _⟩ := update
  obtain ⟨rfl, rfl, rfl, rfl⟩ := about
  have named : FilePath.PlainName options.machine.binaryName ∧ options.machine.binaryName ≠ ".." := by
    unfold Machine.binaryName
    split <;> exact ⟨by decide, by decide⟩
  replace done := Work.change_ok (Work.read_ok done)
  obtain ⟨_, _, _, wrote, done⟩ := Work.bind_ok done
  obtain ⟨still, rfl⟩ := Work.write_ok wrote
  obtain ⟨data, between, asked, done⟩ := Work.run_ok done
  obtain ⟨sent, disk, -, host⟩ := Run.ask_ok asked
  rw [still.questions] at sent
  rw [still.disk] at disk
  rw [still.host] at host
  dsimp only at done
  split at done
  · rw [map_eq_pure_bind] at done
    obtain ⟨digest, _, checked, verified, done⟩ := Work.bind_ok done
    obtain ⟨published, _, _, ran', verified⟩ := Work.bind_ok verified
    cases verified
    obtain ⟨asked', rfl⟩ := Work.ofRun_ok ran'
    obtain ⟨stays, spared⟩ := keeps_of_verified asked'
    obtain ⟨about, told, path, holds, same, others⟩ :=
      store_ok plain named.1 named.2 done ⟨rfl, rfl, rfl, rfl⟩ rfl
    exact ⟨data, sent, about, told, path, holds, same.trans (stays.trans host), fun place outside => by
      rw [others place outside, spared place, disk]⟩
  · obtain ⟨digest, _, checked, ran', done⟩ := Work.bind_ok done
    cases ran'
    obtain ⟨about, told, path, holds, same, others⟩ :=
      store_ok plain named.1 named.2 done ⟨rfl, rfl, rfl, rfl⟩ rfl
    exact ⟨data, sent, about, told, path, holds, same.trans host, fun place outside => by
      rw [others place outside, disk]⟩

/-- The bundle is taken out of the binary. -/
theorem extract_ok (plain : options.workDirectory.Plain) (about : About options remote loaded version update)
    {info : Download} {binary : FilePath} (told : update.download? = some info)
    (given : update.binaryPath? = some binary) (done : extract update world = ((.ok (), passed), after)) :
    let path := options.workDirectory.child "droid_processed.js"
    ∃ header buffer, Markers.headerFor info.binaryName options.machine.platform = .ok header ∧
      world.disk.content? (Place.ofText binary.text) = some buffer ∧
      About options remote loaded version passed ∧ passed.bundlePath? = some path ∧
      after.disk.content? (Place.ofText path.text) =
        some (Extraction.ofBuffer ⟨header, Markers.standardTail⟩ buffer).payload ∧
      after.host = world.host ∧ world.disk.SameOutside options.workDirectory after.disk := by
  obtain ⟨options, remote, loaded, version, _, _, _, _, _, _⟩ := update
  obtain ⟨rfl, rfl, rfl, rfl⟩ := about
  cases told
  cases given
  replace done := Work.change_ok (Work.read_ok done)
  obtain ⟨header, between, named, done⟩ := Work.run_ok done
  obtain ⟨encoded, still⟩ := Run.ofExcept_ok named
  obtain ⟨e, _, taken, done⟩ := Work.run_ok done
  cases done
  obtain ⟨buffer, holds, rfl, same, stored⟩ := Extraction.ofFile_ok taken
  rw [still.disk] at holds stored
  exact ⟨header, buffer, encoded, holds, ⟨rfl, rfl, rfl, rfl⟩, rfl, stored.holds, same.trans still.host,
    stored.sameOutside plain (by decide) (by decide)⟩

/-- The bundle is patched. -/
theorem patch_ok (plain : options.workDirectory.Plain) (about : About options remote loaded version update)
    {bundle : FilePath} (given : update.bundlePath? = some bundle)
    (done : UpdateStage.patch update world = ((.ok (), passed), after)) :
    let path := options.workDirectory.child "droid_patched.js"
    ∃ bytes code patch, world.disk.content? (Place.ofText bundle.text) = some bytes ∧
      ((options.patcher world.host.parser).patch options.config (Text.unifyLineEnds (Utf8.decodeEscaped bytes))
        (some bundle.text)).value = .ok patch ∧
      Utf8.encodeEscaped patch.code = .ok code ∧
      About options remote loaded version passed ∧ passed.patchedPath? = some path ∧
      after.disk.content? (Place.ofText path.text) = some code ∧
      world.disk.SameOutside options.workDirectory after.disk := by
  obtain ⟨options, remote, loaded, version, _, _, _, _, _, _⟩ := update
  obtain ⟨rfl, rfl, rfl, rfl⟩ := about
  cases given
  replace done := Work.change_ok (Work.read_ok done)
  obtain ⟨_, _, got, done⟩ := Work.run_ok done
  cases got
  obtain ⟨patch, between, patched, done⟩ := Work.run_ok done
  cases done
  obtain ⟨bytes, code, holds, made, encoded, stored⟩ := Patcher.patchFile_ok patched
  exact ⟨bytes, code, patch, holds, made, encoded, ⟨rfl, rfl, rfl, rfl⟩, rfl, stored.holds,
    stored.sameOutside plain (by decide) (by decide)⟩

/-- The package is written from the patched bundle. -/
theorem package_ok (plain : options.packageDirectory.Plain) (about : About options remote loaded version update)
    {patched : FilePath} (given : update.patchedPath? = some patched)
    (done : UpdateStage.package update world = ((.ok (), passed), after)) :
    ∃ bytes main described, world.disk.content? (Place.ofText patched.text) = some bytes ∧
      Utf8.encodeEscaped (Text.unifyLineEnds (Utf8.decodeEscaped bytes)) = .ok main ∧
      Storage.jsonBytes (Package.manifest loaded version Package.standardDependencies) = .ok described ∧
      About options remote loaded version passed ∧
      after.disk.content? options.mainPlace = some main ∧
      after.disk.content? options.manifestPlace = some described ∧
      ∀ place, place ≠ options.mainPlace → place ≠ options.manifestPlace →
        after.disk.content? place = world.disk.content? place := by
  obtain ⟨options, remote, loaded, version, _, _, _, _, _, _⟩ := update
  obtain ⟨rfl, rfl, rfl, rfl⟩ := about
  cases given
  replace done := Work.read_ok done
  obtain ⟨code, between, read, done⟩ := Work.run_ok done
  obtain ⟨bytes, holds, rfl, still⟩ := Storage.readText_ok read
  obtain ⟨_, _, written, done⟩ := Work.run_ok done
  cases done
  obtain ⟨main, described, disk, encoded, encoded', first, second⟩ := Package.write_ok written
  have differ : options.mainPlace ≠ options.manifestPlace := by
    rw [UpdateOptions.mainPlace, UpdateOptions.manifestPlace,
      Place.ofText_child plain (by decide) (by decide), Place.ofText_child plain (by decide) (by decide)]
    simp only [ne_eq, List.append_cancel_left_eq]
    decide
  refine ⟨bytes, main, described, holds, encoded, encoded', ⟨rfl, rfl, rfl, rfl⟩, ?_, second.holds,
    fun place other other' => ?_⟩
  · exact (second.elsewhere _ differ).trans first.holds
  · rw [second.elsewhere place other', first.elsewhere place other, Disk.content?_ensureDirectory, still.disk]

/-- The work directory is taken away. -/
theorem cleanUp_ok (about : About options remote loaded version update)
    (done : cleanUp update world = ((.ok (), passed), after)) :
    About options remote loaded version passed ∧ (world.disk.removeTree options.workDirectory).1 = .ok () ∧
      after.disk = (world.disk.removeTree options.workDirectory).2 := by
  obtain ⟨options, remote, loaded, version, _, _, _, _, _, _⟩ := update
  obtain ⟨rfl, rfl, rfl, rfl⟩ := about
  replace done := Work.read_ok done
  obtain ⟨_, _, between, wrote, done⟩ := Work.bind_ok done
  obtain ⟨still, rfl⟩ := Work.write_ok wrote
  obtain ⟨_, _, removed, done⟩ := Work.run_ok done
  cases done
  obtain ⟨outcome, disk, -⟩ := Run.onDisk_ok removed
  rw [still.disk] at outcome disk
  exact ⟨⟨rfl, rfl, rfl, rfl⟩, outcome, disk⟩

/-- The state is saved with the new version, in a file to which directories were made. -/
theorem persist_ok (about : About options remote loaded version update)
    (done : persist update world = ((.ok (), passed), after)) :
    passed.version = version ∧ ∃ bytes,
      Storage.jsonBytes (PackageState.toJson { loaded with version }) = .ok bytes ∧
      (world.disk.makeDirectories (Disk.directoryOf options.statePath.text)).1 = .ok () ∧
      after.disk = (world.disk.makeDirectories (Disk.directoryOf options.statePath.text)).2.put
        (Place.ofText options.statePath.text) (.file bytes) ∧
      Place.ofText options.statePath.text ≠ [] ∧ options.statePath.text ≠ [] ∧
      Disk.endsInSlash options.statePath.text = false := by
  obtain ⟨options, remote, loaded, version, _, _, _, _, _, _⟩ := update
  obtain ⟨rfl, rfl, rfl, rfl⟩ := about
  replace done := Work.change_ok done
  replace done := Work.read_ok done
  obtain ⟨_, between, saved, done⟩ := Work.run_ok done
  cases done
  obtain ⟨_, _, written, wrote⟩ := Run.bind_ok saved
  replace written := Storage.writeJson_ok written
  obtain ⟨bytes, encoded, inner, disk⟩ := Storage.writeWhole_ok written
  obtain ⟨made, full, ends⟩ := Storage.writeWhole_way written
  exact ⟨rfl, bytes, encoded, made, by rw [(Run.write_ok wrote).disk, disk], inner, full, ends⟩

end UpdateStage

end Rebundle
