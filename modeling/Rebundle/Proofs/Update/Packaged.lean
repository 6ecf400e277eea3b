import Rebundle.Proofs.Rewrite.LineEnds
import Rebundle.Proofs.Update.Closing

/-!
# What an update makes of a release

The bundle of a release goes through four files before it is the bundle of the package. A file is read as
what was written to it, since the code of a patch has no carriage returns and undecodable bytes come back
as they were; so the package has just the bundle that the patcher makes of the binary. What lay in the two
directories before has no part in it.
-/

namespace Rebundle

/-- What a package is made of: the state that was loaded before, the new version, and its binary. -/
structure Release where
  loaded : PackageState
  version : Text
  binary : Bytes

namespace UpdateOptions

/-- The text of the bundle in a binary. -/
def bundleOf (options : UpdateOptions) (binary : Bytes) : Except Utf8.EncodeFault Text := do
  let header ← Markers.headerFor options.machine.binaryName options.machine.platform
  return Text.unifyLineEnds <| Utf8.decodeEscaped
    (Extraction.ofBuffer ⟨header, Markers.standardTail⟩ binary).payload

/-- Options whose paths were read from texts, and lead to places of which none contains another. -/
structure Disjoint (options : UpdateOptions) : Prop where
  work : options.workDirectory.Plain
  given : ∀ directory, options.packageDirectory? = some directory → directory.Plain
  state : options.statePath.Plain
  workPackage : ¬ Place.ofText options.workDirectory.text <+: Place.ofText options.packageDirectory.text
  packageWork : ¬ Place.ofText options.packageDirectory.text <+: Place.ofText options.workDirectory.text
  workState : ¬ Place.ofText options.workDirectory.text <+: Place.ofText options.statePath.text
  stateWork : ¬ Place.ofText options.statePath.text <+: Place.ofText options.workDirectory.text
  packageState : ¬ Place.ofText options.packageDirectory.text <+: Place.ofText options.statePath.text
  statePackage : ¬ Place.ofText options.statePath.text <+: Place.ofText options.packageDirectory.text

end UpdateOptions

namespace Release

/-- The release that an update finds: the state from its file, the version that is announced or stands in for
it, and the binary that is sent next. -/
structure Found (options : UpdateOptions) (remote : Remote) (world : World) (release : Release) : Prop where
  loaded : Prod.fst (PackageState.load options.statePath world) = .ok release.loaded
  version : (Version.settle options.fallback (Version.ofScript options.scriptUrl
    (remote.text options.scriptUrl world.questions).result)).value = .ok release.version
  binary : (remote.bytes (Download.ofVersion options.baseUrl release.version options.machine).binaryUrl
    (world.questions + 1)).result = .ok release.binary

/-- The patched bundle of a release, as bytes. -/
def Bundled (options : UpdateOptions) (parser : Parser) (release : Release) (content : Bytes) : Prop :=
  ∃ source patch, options.bundleOf release.binary = .ok source ∧
    ((options.patcher parser).patch options.config source none).value = .ok patch ∧
    Utf8.encodeEscaped patch.code = .ok content

/-- The disk after an update to a release: three files are written, the work directory is gone, and no other
file outside of it is changed. -/
structure Packaged (options : UpdateOptions) (parser : Parser) (before after : Disk) (release : Release) : Prop where
  main : ∃ content, release.Bundled options parser content ∧ after.content? options.mainPlace = some content
  manifest : ∃ content, Storage.jsonBytes
      (Package.manifest release.loaded release.version Package.standardDependencies) = .ok content ∧
    after.content? options.manifestPlace = some content
  remembered : ∃ content, Storage.jsonBytes
      (PackageState.toJson { release.loaded with version := release.version }) = .ok content ∧
    after.content? (Place.ofText options.statePath.text) = some content
  cleared : ∀ place, Place.ofText options.workDirectory.text <+: place → after.node? place = none
  elsewhere : ∀ place, ¬ Place.ofText options.workDirectory.text <+: place → place ≠ options.mainPlace →
    place ≠ options.manifestPlace → place ≠ Place.ofText options.statePath.text →
    after.content? place = before.content? place

end Release

namespace Patcher

variable {patcher : Patcher} {config : PatchConfig} {source : Text} {path : Option Text}

/-- The path of a source is told in failures only. -/
theorem encode_path {both : Bytes × Nat} (made : patcher.encode source path = .ok both) (other : Option Text) :
    patcher.encode source other = .ok both := by
  unfold Patcher.encode at made ⊢
  cases front : patcher.bootstrap.prepend source with
  | error fault =>
      rw [front] at made
      cases made
  | ok found =>
      rw [front] at made
      simp only [Except.mapError, Bind.bind, Except.bind] at made ⊢
      cases encoded : Utf8.encodeEscaped found.1 <;> rw [encoded] at made <;> cases made
      rfl

theorem prepare_path {prepared : Prepared} (read : (patcher.prepare source path).value = .ok prepared)
    (other : Option Text) : (patcher.prepare source other).value = .ok prepared := by
  rw [prepare] at read ⊢
  cases encoded : patcher.encode source path with
  | error failure =>
      rw [encoded] at read
      cases read
  | ok both =>
      rw [encoded] at read
      rw [encode_path encoded other]
      dsimp only at read ⊢
      cases known : Dialect.ofName? patcher.dialect with
      | none =>
          rw [known] at read
          cases read
      | some dialect =>
          rw [known] at read
          simp only [Bind.bind] at read ⊢
          cases parsed : patcher.parser dialect both.1 with
          | error why =>
              rw [parsed] at read
              cases read
          | ok root =>
              simp only [parsed] at read ⊢
              cases judged : (root.judge both.1.length both.2 patcher.threshold).value with
              | error fault =>
                  rw [judged] at read
                  cases read
              | ok root =>
                  rw [judged] at read
                  exact read

theorem patch_path {patch : Patch} (made : (patcher.patch config source path).value = .ok patch)
    (other : Option Text) : (patcher.patch config source other).value = .ok patch := by
  cases read : (patcher.prepare source path).value with
  | error failure =>
      simp only [Patcher.patch, Bind.bind, read] at made
      cases made
  | ok prepared =>
      rw [patch_of_prepare (prepare_path read other), ← patch_of_prepare read, made]

end Patcher

namespace UpdateOptions.Disjoint

variable {options : UpdateOptions} (disjoint : options.Disjoint)

include disjoint

theorem package : options.packageDirectory.Plain := plain_packageDirectory disjoint.work disjoint.given

theorem mainPlace_eq : options.mainPlace =
    Place.ofText options.packageDirectory.text ++ [Package.mainName] :=
  Place.ofText_child disjoint.package (by decide) (by decide)

theorem manifestPlace_eq : options.manifestPlace =
    Place.ofText options.packageDirectory.text ++ [Text.ofString "package.json"] :=
  Place.ofText_child disjoint.package (by decide) (by decide)

/-- The files of the package lie outside of the work directory. -/
theorem outside {name : Text} :
    ¬ Place.ofText options.workDirectory.text <+: Place.ofText options.packageDirectory.text ++ [name] := by
  rw [List.prefix_concat_iff, not_or]
  refine ⟨fun same => disjoint.packageWork ?_, disjoint.workPackage⟩
  rw [same]
  exact List.prefix_append _ _

theorem statePlace_ne {name : Text} :
    Place.ofText options.packageDirectory.text ++ [name] ≠ Place.ofText options.statePath.text := by
  intro same
  refine disjoint.packageState ?_
  rw [← same]
  exact List.prefix_append _ _

/-- Unless its path leads up, the way to the state file does not lead into the work directory. -/
theorem apart (down : (".." : Text) ∉ options.statePath.names) :
    ¬ options.statePath.Enters options.workDirectory :=
  fun enters => disjoint.workState ((FilePath.enters_iff disjoint.state down).mp enters)

end UpdateOptions.Disjoint

/-- The bundle of the package is the patched bundle of the binary, though it was written and read on the
way: reading unifies the line ends, and the patch of a source without carriage returns has none. -/
theorem Release.bundled_of_patch {options : UpdateOptions} {parser : Parser} {release : Release}
    (targets : ∀ entry ∈ options.config.renameIdentifiers, entry.2.Unified)
    {header code main : Bytes} {patch : Patch} {path : Option Text}
    (named : Markers.headerFor options.machine.binaryName options.machine.platform = .ok header)
    (made : ((options.patcher parser).patch options.config (Text.unifyLineEnds (Utf8.decodeEscaped
      (Extraction.ofBuffer ⟨header, Markers.standardTail⟩ release.binary).payload)) path).value = .ok patch)
    (written : Utf8.encodeEscaped patch.code = .ok code)
    (packed : Utf8.encodeEscaped (Text.unifyLineEnds (Utf8.decodeEscaped code)) = .ok main) :
    release.Bundled options parser main := by
  obtain ⟨unified, bytes, written', read⟩ := Patcher.patch_unified (fun _ mem => mem) targets
    (Text.unified_unifyLineEnds _) made
  cases written.symm.trans written'
  rw [read, Text.unifyLineEnds_eq unified] at packed
  refine ⟨_, patch, ?_, Patcher.patch_path made none, packed⟩
  rw [UpdateOptions.bundleOf, named]
  rfl

namespace Release.Found

variable {options : UpdateOptions} {remote : Remote} {release release' : Release} {world other : World}

theorem unique (found : release.Found options remote world) (found' : release'.Found options remote world) :
    release = release' := by
  obtain ⟨loaded, version, binary⟩ := release
  obtain ⟨loaded', version', binary'⟩ := release'
  cases Except.ok.inj (found.loaded.symm.trans found'.loaded)
  cases Except.ok.inj (found.version.symm.trans found'.version)
  cases Except.ok.inj (found.binary.symm.trans found'.binary)
  rfl

/-- What is found does not depend on files in the work directory or in the package. -/
theorem congr (found : release.Found options remote world) (disjoint : options.Disjoint)
    (limits : other.host.limits = world.host.limits) (questions : other.questions = world.questions)
    (same : ∀ place, ¬ Place.ofText options.workDirectory.text <+: place →
      ¬ Place.ofText options.packageDirectory.text <+: place →
        other.disk.content? place = world.disk.content? place) :
    release.Found options remote other := by
  refine ⟨?_, ?_, ?_⟩
  · rw [← found.loaded]
    exact PackageState.load_congr limits fun place above => same place
      (fun inside => disjoint.workState (inside.trans above))
      (fun inside => disjoint.packageState (inside.trans above))
  · rw [questions]
    exact found.version
  · rw [questions]
    exact found.binary

end Release.Found

namespace Registry

variable {options : UpdateOptions} {remote : Remote} {world after : World} {update : Update}

open Update (About)
open UpdateStage

/-- In an update that was due, all stages were performed one after the other. -/
theorem performed_of_update
    (done : standard.update (Update.start options remote) world = ((.ok (), update), after))
    (due : update.isUpToDate = false) :
    ∃ timings ended, Stage.performAll standard.stages (Update.start options remote) world =
      ((.ok timings, update), ended) ∧ ended.Still after := by
  rw [Registry.update, run_all] at done
  obtain ⟨timings, last, ended, ran, done⟩ := Work.bind_ok done
  obtain ⟨_, _, _, wrote, done⟩ := Work.bind_ok done
  obtain ⟨still, rfl⟩ := Work.write_ok wrote
  obtain ⟨_, _, _, looked, done⟩ := Work.bind_ok done
  cases looked
  split at done
  · obtain ⟨still', rfl⟩ := Work.write_ok done
    exact ⟨timings, ended, ran, still.trans still'⟩
  · cases done
    exact ⟨timings, ended, ran, still⟩

/-- The first four stages find a release and leave its patched bundle in the work directory. -/
theorem patched_of_performAll (plain : options.workDirectory.Plain) {rest : List Stage} {timings : List Timing}
    (ran : Stage.performAll (⟨"resolve_version", 10, resolveVersion⟩ :: ⟨"download", 20, download⟩ ::
      ⟨"extract", 30, extract⟩ :: ⟨"patch", 40, UpdateStage.patch⟩ :: rest)
        (Update.start options remote) world =
        ((.ok timings, update), after))
    (due : update.isUpToDate = false) :
    ∃ (release : Release) (passed : Update) (later : World) (timings' : List Timing) (patched : FilePath)
        (header code : Bytes) (path : Option Text) (patch : Patch),
      release.Found options remote world ∧
      Markers.headerFor options.machine.binaryName options.machine.platform = .ok header ∧
      ((options.patcher world.host.parser).patch options.config (Text.unifyLineEnds (Utf8.decodeEscaped
        (Extraction.ofBuffer ⟨header, Markers.standardTail⟩ release.binary).payload)) path).value = .ok patch ∧
      Utf8.encodeEscaped patch.code = .ok code ∧
      About options remote release.loaded release.version passed ∧ passed.patchedPath? = some patched ∧
      later.disk.content? (Place.ofText patched.text) = some code ∧
      world.disk.SameOutside options.workDirectory later.disk ∧
      Stage.performAll rest passed later = ((.ok timings', update), after) := by
  obtain ⟨_, _, _, _, _, begun, worked, still₁, ran⟩ := Stage.performAll_ok ran due
  obtain ⟨loaded, version, about, found, announced, host, disk, questions⟩ := resolveVersion_ok worked
  obtain ⟨_, _, _, _, _, begun₂, worked, still₂, ran⟩ := Stage.performAll_ok ran due
  obtain ⟨binary, sent, about, told, given, stored, host₂, same⟩ := download_ok plain about worked
  obtain ⟨_, _, _, _, _, begun₃, worked, still₃, ran⟩ := Stage.performAll_ok ran due
  obtain ⟨header, buffer, named, read, about, given, stored₃, host₃, same₃⟩ :=
    extract_ok plain about told given worked
  obtain ⟨_, _, _, later, timings', begun₄, worked, still₄, ran⟩ := Stage.performAll_ok ran due
  obtain ⟨bundle, code, patch, read₄, made, written, about, given, stored₄, same₄⟩ :=
    patch_ok plain about given worked
  have first := (still₁.trans begun₂)
  have second := (still₂.trans begun₃)
  have third := (still₃.trans begun₄)
  rw [third.host, host₃, second.host, host₂, first.host, host, begun.host] at made
  rw [first.disk, disk, begun.disk] at same
  rw [second.disk, stored] at read
  cases read
  rw [second.disk] at same₃
  rw [third.disk, stored₃] at read₄
  cases read₄
  rw [third.disk] at same₄
  rw [← still₄.disk] at stored₄ same₄
  refine ⟨⟨loaded, version, binary⟩, _, later, timings', _, header, code, _, patch, ?_, named, made, written,
    about, given, stored₄, same.trans (same₃.trans same₄), ran⟩
  refine ⟨?_, ?_, ?_⟩
  · rw [← found]
    exact (PackageState.reads_load options.statePath).outcome _ _ begun.disk.symm begun.host.symm
  · rw [← begun.questions]
    exact announced
  · rw [first.questions, questions, begun.questions] at sent
    exact sent

/-- An update that was due has found a release and has packaged it. -/
theorem packaged_of_update (disjoint : options.Disjoint)
    (apart : ¬ options.statePath.Enters options.workDirectory)
    (targets : ∀ entry ∈ options.config.renameIdentifiers, entry.2.Unified)
    (done : standard.update (Update.start options remote) world = ((.ok (), update), after))
    (due : update.isUpToDate = false) :
    ∃ release : Release, release.Found options remote world ∧
      release.Packaged options world.host.parser world.disk after.disk := by
  obtain ⟨_, ended, ran, still⟩ := performed_of_update done due
  rw [stages_standard] at ran
  obtain ⟨release, passed, later, _, patched, header, code, _, patch, found, named, made, written, about, given,
    stored, same, ran⟩ := patched_of_performAll disjoint.work ran due
  obtain ⟨bytes, main, described, remembered, packaged, read, packed, -, closes⟩ :=
    closes_of_performAll disjoint.package about given ran due
  cases read.symm.trans stored
  have inPackage {name : Text} : ended.disk.content? (Place.ofText options.packageDirectory.text ++ [name]) =
      packaged.content? (Place.ofText options.packageDirectory.text ++ [name]) :=
    closes.content?_outside disjoint.outside disjoint.statePlace_ne
  rw [still.disk]
  refine ⟨release, found, ⟨main, Release.bundled_of_patch targets named made written packed, ?_⟩,
    ⟨described, closes.manifest, ?_⟩, ⟨remembered, closes.state, closes.remembers⟩,
    fun _ inside => closes.node?_inside disjoint.state apart inside,
    fun place outside notMain notManifest notState => ?_⟩
  · rw [disjoint.mainPlace_eq, inPackage, ← disjoint.mainPlace_eq, closes.mainHolds]
  · rw [disjoint.manifestPlace_eq, inPackage, ← disjoint.manifestPlace_eq, closes.manifestHolds]
  · rw [closes.content?_outside outside notState, closes.elsewhere place notMain notManifest, same place outside]

/-- An update that was due packages the release that it finds. What lay in the work directory or in the
package before has no part in it: any other update with the same answers to its questions, from a disk with
the same other files, on a host that reads and parses alike, packages the same release. -/
theorem update_packages (disjoint : options.Disjoint)
    (apart : ¬ options.statePath.Enters options.workDirectory)
    (targets : ∀ entry ∈ options.config.renameIdentifiers, entry.2.Unified)
    (done : standard.update (Update.start options remote) world = ((.ok (), update), after))
    (due : update.isUpToDate = false) :
    ∃ release : Release, release.Found options remote world ∧
      release.Packaged options world.host.parser world.disk after.disk ∧
      ∀ (other ended : World) (last : Update), other.host.limits = world.host.limits →
        other.host.parser = world.host.parser → other.questions = world.questions →
        (∀ place, ¬ Place.ofText options.workDirectory.text <+: place →
          ¬ Place.ofText options.packageDirectory.text <+: place →
            other.disk.content? place = world.disk.content? place) →
        standard.update (Update.start options remote) other = ((.ok (), last), ended) →
        last.isUpToDate = false → release.Packaged options world.host.parser other.disk ended.disk := by
  obtain ⟨release, found, packaged⟩ := packaged_of_update disjoint apart targets done due
  refine ⟨release, found, packaged, fun other ended last limits parser questions same done' due' => ?_⟩
  obtain ⟨release', found', packaged'⟩ := packaged_of_update disjoint apart targets done' due'
  cases found.unique (found'.congr disjoint limits.symm questions.symm
    fun place first second => (same place first second).symm)
  exact parser ▸ packaged'

/-- A remote that announces a version and sends a binary. -/
def sending (script : Text) (binary : Bytes) : Remote where
  bytes _ _ := ⟨.ok binary, [], []⟩
  text _ _ := ⟨.ok script, [], []⟩

/-- A statement between the standard markers, with a line end that is unified. -/
def wrapped : Bytes := Markers.standard.header ++ Markers.bytesOf "a;\r\n" ++ Markers.standardTail

/-- The standard options, without a checksum and with nothing to rewrite. -/
def bare : UpdateOptions :=
  { UpdateOptions.standard with verifiesChecksum := false, config := PatchConfig.empty }

/-- Whether an update succeeded and ended with an update and a disk of some kind. -/
def ends (kind : Update → Disk → Bool) : (Except Failure Unit × Update) × World → Bool
  | ((.ok (), update), after) => kind update after.disk
  | ((.error _, _), _) => false

theorem exists_of_ends {kind : Update → Disk → Bool} {outcome : (Except Failure Unit × Update) × World}
    (known : ends kind outcome = true) :
    ∃ update after, outcome = ((.ok (), update), after) ∧ kind update after.disk = true := by
  obtain ⟨⟨_ | _, update⟩, after⟩ := outcome
  · cases known
  · exact ⟨update, after, rfl, known⟩

theorem update_packages_wrapped : bare.Disjoint ∧ ∃ update after,
    standard.update (Update.start bare (sending "VER=\"2\"" wrapped)) (World.ofDisk []) =
      ((.ok (), update), after) ∧ update.isUpToDate = false ∧
    ∃ release : Release, release.Found bare (sending "VER=\"2\"" wrapped) (World.ofDisk []) ∧
      release.Packaged bare Parser.standard [] after.disk := by
  have disjoint : bare.Disjoint :=
    ⟨by decide, by rintro _ ⟨⟩, by decide, by decide, by decide, by decide, by decide, by decide, by decide⟩
  have ran : ends (fun update _ => !update.isUpToDate)
      (standard.update (Update.start bare (sending "VER=\"2\"" wrapped)) (World.ofDisk [])) = true := by
    rw [update, run_all, stages_standard]
    unfold UpdateStage.patch Patcher.patchFile Patcher.patch Patcher.finish Document.render
    rw [Source.window_nil_eq]
    decide +kernel
  obtain ⟨update, after, outcome, due⟩ := exists_of_ends ran
  rw [Bool.not_eq_true'] at due
  obtain ⟨release, found, packaged, _⟩ :=
    update_packages disjoint (by decide) (fun _ mem => absurd mem List.not_mem_nil) outcome due
  exact ⟨disjoint, update, after, outcome, due, release, found, packaged⟩

/-- A state file outside of the work directory to which a way leads through it. -/
def winding : UpdateOptions := { bare with statePath := FilePath.ofText "x/../droid/../config.json" }

/-- The work directory is made again on the way to the state file. -/
theorem winding_stands : winding.Disjoint ∧ ¬ winding.workDirectory.names <+: winding.statePath.names ∧
    winding.config.renameIdentifiers = [] ∧
    ∃ update after, standard.update (Update.start winding (sending "VER=\"2\"" wrapped)) (World.ofDisk []) =
        ((.ok (), update), after) ∧
      update.isUpToDate = false ∧
      after.disk.node? (Place.ofText winding.workDirectory.text) = some .directory := by
  have ran : ends (fun update disk => !update.isUpToDate &&
      disk.node? (Place.ofText winding.workDirectory.text) == some .directory)
      (standard.update (Update.start winding (sending "VER=\"2\"" wrapped)) (World.ofDisk [])) = true := by
    rw [update, run_all, stages_standard]
    unfold UpdateStage.patch Patcher.patchFile Patcher.patch Patcher.finish Document.render
    rw [Source.window_nil_eq]
    decide +kernel
  obtain ⟨update, after, outcome, known⟩ := exists_of_ends ran
  rw [Bool.and_eq_true, Bool.not_eq_true', beq_iff_eq] at known
  exact ⟨⟨by decide, by rintro _ ⟨⟩, by decide, by decide, by decide, by decide, by decide,
    by decide, by decide⟩,
    by decide, rfl, update, after, outcome, known⟩

end Registry

end Rebundle
