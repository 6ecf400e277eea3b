import Rebundle.Proofs.Update.Inversion

/-!
# Only a finished update is remembered

The state file lies outside the work directory and outside the package. Every stage but the last keeps it,
failed or not, and an update that is up to date ends before the last. So the file changes only in an
update that has gone through all stages, and then it holds the state of the package that was made.
-/

namespace Rebundle

/-- Whether a place lies strictly below a directory. -/
def Place.Inside (place directory : Place) : Prop :=
  directory <+: place ∧ place ≠ directory

instance (place directory : Place) : Decidable (place.Inside directory) :=
  inferInstanceAs (Decidable (_ ∧ _))

/-- What lies outside a directory is none of its files. -/
theorem Place.ne_child {place : Place} {directory : FilePath} (plain : directory.Plain)
    (outside : ¬ place.Inside (Place.ofText directory.text)) {name : Text}
    (named : FilePath.PlainName name) (level : name ≠ "..") :
    place ≠ Place.ofText (directory.child name).text := by
  rw [Place.ofText_child plain named level]
  rintro rfl
  exact outside ⟨List.prefix_append _ _, by simp⟩

namespace Update

/-- An update of a package to a version that is due and has performed some stages. -/
structure Underway (options : UpdateOptions) (package : PackageState) (version : Text)
    (performed : List Text) (update : Update) : Prop where
  options : update.options = options
  state : update.state = package
  version : update.version = version
  outdated : update.isUpToDate = false
  notes : update.notes.keys = performed

/-- Leaving a note of its own ends a stage. -/
theorem Underway.note {options : UpdateOptions} {package : PackageState} {version : Text}
    {performed : List Text} {update : Update}
    (underway : Underway options package version performed update) {stage : Text}
    (fresh : stage ∉ performed) (members : List (Text × Datum)) :
    Underway options package version (performed ++ [stage]) (update.note stage members) where
  options := underway.options
  state := underway.state
  version := underway.version
  outdated := underway.outdated
  notes := by
    rw [Update.note, Table.keys_put_of_not_mem (underway.notes ▸ fresh), underway.notes]

end Update

namespace UpdateStage

variable {options : UpdateOptions} {package : PackageState} {version : Text} {place : Place}
  {before : Option Bytes} {performed : List Text}

open Update (Underway)

/-- A stage ends with its note. -/
theorem keeps_note {stage : Text} (fresh : stage ∉ performed) (members : List (Text × Datum)) :
    Work.Keeps place before (Underway options package version performed) (Work.note stage members)
      fun _ => Underway options package version (performed ++ [stage]) :=
  .modify fun _ underway => underway.note fresh members

/-- What a stage finds out besides leaves the rest of the update alone. -/
theorem keeps_found {change : Update → Update}
    (same : ∀ update, (change update).options = update.options ∧ (change update).state = update.state ∧
      (change update).version = update.version ∧ (change update).isUpToDate = update.isUpToDate ∧
      (change update).notes = update.notes) :
    Work.Keeps place before (Underway options package version performed) (modify change)
      fun _ => Underway options package version performed :=
  .modify fun update underway =>
    have ⟨options, state, version, outdated, notes⟩ := same update
    ⟨options.trans underway.options, state.trans underway.state, version.trans underway.version,
      outdated.trans underway.outdated, notes ▸ underway.notes⟩

/-- A directory that could be made leaves no room for a file at its place. -/
theorem keeps_ensureDirectory {path : FilePath} (plain : path.Plain)
    (bare : ∀ root ∈ (["/", "//"] : List Text), place = [root] → before = none) {pre : Update → Prop} :
    Work.Keeps place before pre (Work.ofRun (Run.onDisk (Disk.ensureDirectory path))) fun _ update =>
      (place = Place.ofText path.text → before = none) ∧ pre update := by
  intro update world start same
  have kept := (Disk.content?_ensureDirectory path world.disk place).trans same
  rw [Work.ofRun_apply, Run.onDisk_apply]
  rcases outcome : Disk.ensureDirectory path world.disk with ⟨_ | _, disk⟩ <;> rw [outcome] at kept
  · exact kept
  · refine ⟨kept, ?_, start⟩
    rintro rfl
    have vacant := Disk.content?_ensured plain (fun root mem here => same.trans (bare root mem here))
      (congrArg Prod.fst outcome)
    rw [outcome] at vacant
    exact kept.symm.trans vacant

/-- The binary is written to the work directory, which is then known to be a directory. -/
theorem keeps_store (plain : options.workDirectory.Plain)
    (outside : ¬ place.Inside (Place.ofText options.workDirectory.text))
    (bare : ∀ root ∈ (["/", "//"] : List Text), place = [root] → before = none)
    (fresh : Text.ofString "download" ∉ performed) {name : Text} (named : FilePath.PlainName name)
    (level : name ≠ "..") (data : Bytes) (members : List (Text × Datum)) :
    Work.Keeps place before (Underway options package version performed)
      (do
        Work.ofRun (Run.onDisk (Disk.ensureDirectory options.workDirectory))
        modify fun update => { update with binaryPath? := some (options.workDirectory.child name) }
        Work.ofRun (Storage.writeBytes (options.workDirectory.child name).text data)
        Work.note "download" members)
      fun _ update => (place = Place.ofText options.workDirectory.text → before = none) ∧
        Underway options package version (performed ++ [Text.ofString "download"]) update := by
  refine .bind (keeps_ensureDirectory plain bare) fun _ => .assume (fun _ known => known.1) fun vacant => ?_
  refine .imp ?_ fun _ known => known.2
  refine .bind (keeps_found fun _ => ⟨rfl, rfl, rfl, rfl, rfl⟩) fun _ => ?_
  refine .bind (.ofRun (Storage.spares_writeBytes (Place.ne_child plain outside named level) _)) fun _ => ?_
  exact (keeps_note fresh members).imp (fun _ => id) fun _ _ underway => ⟨vacant, underway⟩

theorem keeps_download (plain : options.workDirectory.Plain)
    (outside : ¬ place.Inside (Place.ofText options.workDirectory.text))
    (bare : ∀ root ∈ (["/", "//"] : List Text), place = [root] → before = none)
    (fresh : Text.ofString "download" ∉ performed) :
    Work.Keeps place before (Underway options package version performed) download fun _ update =>
      (place = Place.ofText options.workDirectory.text → before = none) ∧
        Underway options package version (performed ++ [Text.ofString "download"]) update := by
  refine .read fun seen known => ?_
  obtain ⟨seen, remote, _, _, _, _, _, _, _, _⟩ := seen
  obtain ⟨rfl, -, -, -, -⟩ := known
  have named : FilePath.PlainName seen.machine.binaryName ∧ seen.machine.binaryName ≠ ".." := by
    unfold Machine.binaryName
    split <;> exact ⟨by decide, by decide⟩
  dsimp only
  refine .bind (keeps_found fun _ => ⟨rfl, rfl, rfl, rfl, rfl⟩) fun _ => ?_
  refine .bind (.write _) fun _ => ?_
  refine .bind (.ofRun (.ask _)) fun data => ?_
  split
  · refine .bind (.map (.ofRun (keeps_verified _ _ _)) _) fun digest => ?_
    exact keeps_store plain outside bare fresh named.1 named.2 data _
  · refine .bind (.pure _) fun digest => ?_
    exact keeps_store plain outside bare fresh named.1 named.2 data _

/-- Taking out the bundle writes to the work directory. -/
theorem keeps_extract (plain : options.workDirectory.Plain)
    (outside : ¬ place.Inside (Place.ofText options.workDirectory.text))
    (fresh : Text.ofString "extract" ∉ performed) :
    Work.Keeps place before (Underway options package version performed) extract fun _ =>
      Underway options package version (performed ++ [Text.ofString "extract"]) := by
  refine .read fun seen known => ?_
  obtain ⟨seen, _, _, _, _, _, _, _, _, _⟩ := seen
  obtain ⟨rfl, -, -, -, -⟩ := known
  dsimp only
  split
  · refine .bind (keeps_found fun _ => ⟨rfl, rfl, rfl, rfl, rfl⟩) fun _ => ?_
    refine .bind (.ofRun (.ofExcept _ _)) fun header => ?_
    refine .bind (.ofRun (Extraction.spares_ofFile ?_ _ _)) fun e => keeps_note fresh _
    exact Place.ne_child plain outside (by decide) (by decide)
  · exact .throw _

theorem keeps_patch (plain : options.workDirectory.Plain)
    (outside : ¬ place.Inside (Place.ofText options.workDirectory.text))
    (fresh : Text.ofString "patch" ∉ performed) :
    Work.Keeps place before (Underway options package version performed) patch fun _ =>
      Underway options package version (performed ++ [Text.ofString "patch"]) := by
  refine .read fun seen known => ?_
  obtain ⟨seen, _, _, _, _, _, _, _, _, _⟩ := seen
  obtain ⟨rfl, -, -, -, -⟩ := known
  dsimp only
  split
  · refine .bind (keeps_found fun _ => ⟨rfl, rfl, rfl, rfl, rfl⟩) fun _ => .bind (.ofRun .get) fun _ => ?_
    refine .bind (.ofRun (Patcher.spares_patchFile _ ?_ _ _)) fun result => keeps_note fresh _
    exact Place.ne_child plain outside (by decide) (by decide)
  · exact .throw _

theorem keeps_package (plain : options.packageDirectory.Plain)
    (outside : ¬ place.Inside (Place.ofText options.packageDirectory.text))
    (fresh : Text.ofString "package" ∉ performed) :
    Work.Keeps place before (Underway options package version performed) UpdateStage.package fun _ =>
      Underway options package version (performed ++ [Text.ofString "package"]) := by
  refine .read fun seen known => ?_
  obtain ⟨seen, _, _, _, _, _, _, _, _, _⟩ := seen
  obtain ⟨rfl, -, -, -, -⟩ := known
  dsimp only
  split
  · refine .bind (.ofRun (Storage.reads_readText _).keeps) fun code => ?_
    refine .bind (.ofRun (Package.spares_write ?_ ?_ _ _ _ _)) fun _ => keeps_note fresh _
    · exact Place.ne_child plain outside (by decide) (by decide)
    · exact Place.ne_child plain outside (by decide) (by decide)
  · exact .throw _

/-- A tree is removed with what lies below it. -/
theorem keeps_removeTree {path : FilePath} (outside : ¬ place.Inside (Place.ofText path.text))
    (vacant : place = Place.ofText path.text → before = none) {pre : Update → Prop} :
    Work.Keeps place before pre (Work.ofRun (Run.onDisk (Disk.removeTree path))) fun _ => pre := by
  intro update world start same
  have kept : (Disk.removeTree path world.disk).2.content? place = before := by
    rw [Disk.content?_removeTree]
    split
    · rename_i lead
      rw [List.isPrefixOf_iff_prefix] at lead
      exact (vacant (Classical.byContradiction fun differ => outside ⟨lead, differ⟩)).symm
    · exact same
  rw [Work.ofRun_apply, Run.onDisk_apply]
  rcases outcome : Disk.removeTree path world.disk with ⟨_ | _, disk⟩ <;> rw [outcome] at kept
  · exact kept
  · exact ⟨kept, start⟩

/-- Clearing the work directory takes no file away that is not below it. -/
theorem keeps_cleanUp (outside : ¬ place.Inside (Place.ofText options.workDirectory.text))
    (vacant : place = Place.ofText options.workDirectory.text → before = none)
    (fresh : Text.ofString "cleanup" ∉ performed) :
    Work.Keeps place before (Underway options package version performed) cleanUp fun _ =>
      Underway options package version (performed ++ [Text.ofString "cleanup"]) := by
  refine .read fun seen known => ?_
  obtain ⟨seen, _, _, _, _, _, _, _, _, _⟩ := seen
  obtain ⟨rfl, -, -, -, -⟩ := known
  dsimp only
  refine .bind (.write _) fun _ => ?_
  exact .bind (keeps_removeTree outside vacant) fun _ => keeps_note fresh _

/-- The first stage finds the state that is loaded from the disk; the update is due unless it ends there. -/
theorem ended_resolveVersion (options : UpdateOptions) (remote : Remote) (world : World) :
    Work.Ended place (world.disk.content? place)
      (fun _ update content => content = world.disk.content? place ∧
        ∃ package version, Prod.fst (PackageState.load options.statePath world) = .ok package ∧
          (update.isUpToDate = true ∨
            Underway options package version [Text.ofString "resolve_version"] update))
      (resolveVersion (Update.start options remote) world) := by
  have loaded : Work.Ended place (world.disk.content? place)
      (fun package update content => content = world.disk.content? place ∧
        Prod.fst (PackageState.load options.statePath world) = .ok package ∧
          update = Update.start options remote)
      (Work.ofRun (PackageState.load options.statePath) (Update.start options remote) world) := by
    have kept := (PackageState.reads_load options.statePath).disk world
    rw [Work.ofRun_apply]
    rcases outcome : PackageState.load options.statePath world with ⟨_ | package, after⟩ <;>
      rw [outcome] at kept
    · exact congrArg (Disk.content? place) kept
    · exact ⟨congrArg (Disk.content? place) kept, rfl, rfl⟩
  refine loaded.bind fun package => .assume (fun _ known => known.1) fun found => ?_
  have stated : Work.Keeps place (world.disk.content? place)
      (fun update => Prod.fst (PackageState.load options.statePath world) = .ok package ∧
        update = Update.start options remote)
      (modify fun update => { update with state := package }) fun _ update =>
        update.options = options ∧ update.state = package ∧ update.notes = [] :=
    .modify fun _ ⟨_, known⟩ => known ▸ ⟨rfl, rfl, rfl⟩
  refine .bind stated fun _ => .bind (.ofRun (Version.keeps_latest _ _ _)) fun version => ?_
  have settled (current : Bool) : Work.Keeps place (world.disk.content? place)
      (fun update => update.options = options ∧ update.state = package ∧ update.notes = [])
      (modify fun update => { update with version, isUpToDate := current }) fun _ update =>
        update.isUpToDate = true ∨ Underway options package version [] update := by
    refine .modify fun update ⟨same, state, notes⟩ => ?_
    cases current with
    | true => exact .inl rfl
    | false => exact .inr ⟨same, state, rfl, rfl, congrArg Table.keys notes⟩
  refine .bind (settled _) fun _ => Work.Keeps.modify fun update known => ⟨package, version, found, ?_⟩
  exact known.imp id fun underway => underway.note List.not_mem_nil _

/-- A state that could be saved is in its file. -/
theorem meets_save {path : FilePath} (state : PackageState) {pre : Update → Prop} :
    Work.Meets (Place.ofText path.text) before pre (Work.ofRun (state.save path))
      fun _ update content => pre update ∧ ∃ bytes, content = some bytes ∧
        Storage.jsonBytes state.toJson = .ok bytes := by
  intro update world start same
  rw [Work.ofRun_apply, PackageState.save, Run.bind_apply]
  rcases outcome : Storage.writeJson path.text state.toJson world with ⟨_ | _, after⟩
  · exact ((Storage.writeJson_error outcome).1.content? _).trans same
  · obtain ⟨bytes, made, stored⟩ := Storage.stored_writeJson outcome
    exact ⟨start, bytes, stored.holds, made⟩

/-- The last stage remembers the version with the names that were loaded. -/
theorem meets_persist (fresh : Text.ofString "persist" ∉ performed) :
    Work.Meets (Place.ofText options.statePath.text) before (Underway options package version performed)
      persist fun _ update content =>
        Underway options { package with version } version (performed ++ [Text.ofString "persist"]) update ∧
          ∃ bytes, content = some bytes ∧
            Storage.jsonBytes { package with version : PackageState }.toJson = .ok bytes := by
  have stated : Work.Keeps (Place.ofText options.statePath.text) before
      (Underway options package version performed)
      (modify fun update => { update with state := { update.state with version := update.version } })
      fun _ => Underway options { package with version } version performed :=
    .modify fun _ known => ⟨known.options, by rw [known.state, known.version], known.version,
      known.outdated, known.notes⟩
  refine .bind stated fun _ => .read fun seen known => ?_
  obtain ⟨seen, _, _, _, _, _, _, _, _, _⟩ := seen
  obtain ⟨rfl, rfl, -, -, -⟩ := known
  refine .andThen (meets_save _) (fun _ => .note _ _) fun update content ⟨underway, saved⟩ => ?_
  exact ⟨underway.note fresh _, saved⟩

end UpdateStage

/-- An update that has gone through all stages: the file of the state is read as the state that was
loaded at the start, with the version that was packaged. -/
structure Update.Complete (options : UpdateOptions) (world : World) (update : Update)
    (content : Option Bytes) : Prop where
  performed : update.notes.keys =
    (["resolve_version", "download", "extract", "patch", "package", "cleanup", "persist"] : List Text)
  remembered : ∃ loaded bytes, Prod.fst (PackageState.load options.statePath world) = .ok loaded ∧
    content = some bytes ∧
    (loaded.packageName.Plain → update.version.Plain → loaded.binName.Plain →
      PackageState.Decodes bytes { loaded with version := update.version })

/-- Options whose directories are paths that were read, with the file of the state outside of them. -/
structure UpdateOptions.Separate (options : UpdateOptions) : Prop where
  work : options.workDirectory.Plain
  given : ∀ directory, options.packageDirectory? = some directory → directory.Plain
  outsideWork : ¬ (Place.ofText options.statePath.text).Inside (Place.ofText options.workDirectory.text)
  outsidePackage :
    ¬ (Place.ofText options.statePath.text).Inside (Place.ofText options.packageDirectory.text)

theorem UpdateOptions.plain_packageDirectory {options : UpdateOptions} (work : options.workDirectory.Plain)
    (given : ∀ directory, options.packageDirectory? = some directory → directory.Plain) :
    options.packageDirectory.Plain := by
  unfold UpdateOptions.packageDirectory
  cases known : options.packageDirectory? with
  | none =>
      have named : FilePath.PlainName "package" := by decide
      exact work.parent.child named
  | some directory => exact given directory known

theorem UpdateOptions.Separate.package {options : UpdateOptions} (separate : options.Separate) :
    options.packageDirectory.Plain := plain_packageDirectory separate.work separate.given

/-- A disk on which no file stands in the place of a root. -/
def Disk.Rooted (disk : Disk) : Prop :=
  ∀ root ∈ (["/", "//"] : List Text), disk.content? [root] = none

namespace Registry

open Update (Underway)

theorem stages_standard : standard.stages =
    [⟨"resolve_version", 10, UpdateStage.resolveVersion⟩, ⟨"download", 20, UpdateStage.download⟩,
      ⟨"extract", 30, UpdateStage.extract⟩, ⟨"patch", 40, UpdateStage.patch⟩,
      ⟨"package", 50, UpdateStage.package⟩, ⟨"cleanup", 60, UpdateStage.cleanUp⟩,
      ⟨"persist", 70, UpdateStage.persist⟩] := by
  rw [stages, List.mergeSort_of_pairwise (by decide)]
  rfl

/-- All stages are run when nothing is to be skipped. -/
theorem run_all (registry : Registry) : registry.run [] [] = Stage.performAll registry.stages := by
  have all : registry.stages.filter (selects [] []) = registry.stages :=
    List.filter_eq_self.mpr fun _ _ => rfl
  rw [run, all]

variable {options : UpdateOptions} {world : World} {loaded : PackageState} {version : Text}

/-- A finished update is complete. -/
theorem complete_of_underway (found : Prod.fst (PackageState.load options.statePath world) = .ok loaded)
    {update : Update} {content : Option Bytes}
    (underway : Underway options { loaded with version } version
      ["resolve_version", "download", "extract", "patch", "package", "cleanup", "persist"] update)
    (saved : ∃ bytes, content = some bytes ∧
      Storage.jsonBytes { loaded with version : PackageState }.toJson = .ok bytes) :
    update.Complete options world content := by
  obtain ⟨bytes, holds, made⟩ := saved
  refine ⟨underway.notes, loaded, bytes, found, holds, fun packageName plain binName => ?_⟩
  have named := PackageState.named_of_load found
  rw [underway.version] at plain ⊢
  have renamed : PackageState.Named { loaded with version } := ⟨named.packageName, named.binName⟩
  rw [← renamed.filled]
  exact @PackageState.decodes_of_jsonBytes { loaded with version } packageName plain binName bytes made

/-- Of the stages that make a package only the last touches the file of the state. -/
theorem meets_due (separate : options.Separate) (rooted : world.disk.Rooted)
    (found : Prod.fst (PackageState.load options.statePath world) = .ok loaded) :
    Work.Meets (Place.ofText options.statePath.text)
      (world.disk.content? (Place.ofText options.statePath.text))
      (Underway options loaded version ["resolve_version"])
      (Stage.performAll
        [⟨"download", 20, UpdateStage.download⟩, ⟨"extract", 30, UpdateStage.extract⟩,
          ⟨"patch", 40, UpdateStage.patch⟩, ⟨"package", 50, UpdateStage.package⟩,
          ⟨"cleanup", 60, UpdateStage.cleanUp⟩, ⟨"persist", 70, UpdateStage.persist⟩])
      fun _ update content => update.isUpToDate = false ∧ update.Complete options world content := by
  have due {performed : List Text} {update : Update} {content : Option Bytes}
      (underway : Underway options loaded version performed update) (current : update.isUpToDate = true) :
      update.isUpToDate = false ∧ update.Complete options world content :=
    absurd (current.symm.trans underway.outdated) Bool.noConfusion
  refine Stage.meets_performAll (UpdateStage.keeps_download separate.work separate.outsideWork
    (fun root mem same => same ▸ rooted root mem) (by decide)) (fun _ known => due known.2) ?_
  refine .assume (fun _ known => known.1.1) fun vacant => .imp ?_ fun _ known => known.1.2
  refine Stage.meets_performAll (UpdateStage.keeps_extract separate.work separate.outsideWork (by decide))
    (fun _ => due) (.imp ?_ fun _ known => known.1)
  refine Stage.meets_performAll (UpdateStage.keeps_patch separate.work separate.outsideWork (by decide))
    (fun _ => due) (.imp ?_ fun _ known => known.1)
  refine Stage.meets_performAll (UpdateStage.keeps_package separate.package separate.outsidePackage
    (by decide)) (fun _ => due) (.imp ?_ fun _ known => known.1)
  refine Stage.meets_performAll (UpdateStage.keeps_cleanUp separate.outsideWork vacant (by decide))
    (fun _ => due) (.imp ?_ fun _ known => known.1)
  refine Stage.meets_performAll_last fun update later known same => ?_
  refine (UpdateStage.meets_persist (by decide) update later known same).imp ?_
  exact fun _ _ _ ⟨underway, saved⟩ => ⟨underway.outdated, complete_of_underway found underway saved⟩

/-- The file of the state after an update. A failure and an update that was not due leave it as it was;
any other update is complete. -/
theorem update_recorded (options : UpdateOptions) (remote : Remote) (world : World)
    (separate : options.Separate) (rooted : world.disk.Rooted) :
    match standard.update (Update.start options remote) world with
    | ((.error _, _), after) =>
        after.disk.content? (Place.ofText options.statePath.text) =
          world.disk.content? (Place.ofText options.statePath.text)
    | ((.ok (), update), after) =>
        (update.isUpToDate = true →
          after.disk.content? (Place.ofText options.statePath.text) =
            world.disk.content? (Place.ofText options.statePath.text)) ∧
        (update.isUpToDate = false →
          update.Complete options world (after.disk.content? (Place.ofText options.statePath.text))) := by
  have ended : Work.Ended (Place.ofText options.statePath.text)
      (world.disk.content? (Place.ofText options.statePath.text))
      (fun _ update content =>
        (update.isUpToDate = true →
          content = world.disk.content? (Place.ofText options.statePath.text)) ∧
        (update.isUpToDate = false → update.Complete options world content))
      (standard.update (Update.start options remote) world) := by
    refine .andThen ?_ (fun timings => (?_ : Work.Passes id _)) fun _ _ => id
    · rw [run_all, stages_standard]
      refine Stage.ended_performAll
        (UpdateStage.ended_resolveVersion options remote { world with ticks := world.ticks + 1 }) ?_ ?_
      · exact fun update _ current =>
          ⟨fun _ => rfl, fun outdated => absurd (current.symm.trans outdated) Bool.noConfusion⟩
      · rintro update later ⟨⟨loaded, version, found, known⟩, outdated⟩ same
        have found' := ((PackageState.reads_load options.statePath).outcome world
          { world with ticks := world.ticks + 1 } rfl rfl).trans found
        refine (meets_due separate rooted found' update later (known.resolve_left ?_) same).imp ?_
        · simp [outdated]
        · exact fun _ _ _ ⟨outdated, complete⟩ =>
            ⟨fun current => absurd (current.symm.trans outdated) Bool.noConfusion, fun _ => complete⟩
    · refine .bind (.write _) fun _ => .bind .get fun update => ?_
      split
      · exact .write _
      · exact .pure _
  rcases outcome : standard.update (Update.start options remote) world with ⟨⟨_ | _, update⟩, after⟩ <;>
    rw [outcome] at ended
  · exact ended
  · exact ended

/-- A remote that announces a version and refuses every download. -/
def announcing (script : Text) : Remote where
  bytes url _ := ⟨.error (.fetch "refused" (some url)), [], []⟩
  text _ _ := ⟨.ok script, [], []⟩

/-- A disk on which the second version is remembered. -/
def packaged : Disk := [([Text.ofString "config.json"], .file (Markers.bytesOf "\x7b\"version\": \"2\"\x7d"))]

/-- The content of the file of the state after an update with the standard options. -/
def stateAfter (remote : Remote) : Option Bytes :=
  match standard.update (Update.start UpdateOptions.standard remote) (World.ofDisk packaged) with
  | (_, after) => after.disk.content? [Text.ofString "config.json"]

/-- The remembered version is neither due nor forgotten, and another one that cannot be downloaded is not
remembered. -/
theorem stateAfter_announcing : UpdateOptions.standard.Separate ∧ packaged.Rooted ∧
    stateAfter (announcing "VER=\"2\"") = packaged.content? [Text.ofString "config.json"] ∧
    stateAfter (announcing "VER=\"3\"") = packaged.content? [Text.ofString "config.json"] := by
  have separate : UpdateOptions.standard.Separate :=
    ⟨by decide, (fun _ given => nomatch given), by decide, by decide⟩
  have rooted : packaged.Rooted := by
    unfold Disk.Rooted
    decide
  have place : Place.ofText UpdateOptions.standard.statePath.text = [Text.ofString "config.json"] := by
    decide
  refine ⟨separate, rooted, ?_, ?_⟩
  · have current : (match standard.update (Update.start UpdateOptions.standard (announcing "VER=\"2\""))
        (World.ofDisk packaged) with
        | ((.ok (), update), _) => update.isUpToDate
        | _ => false) = true := by
      rw [update, run_all, stages_standard]
      decide +kernel
    have recorded := update_recorded UpdateOptions.standard (announcing "VER=\"2\"") (World.ofDisk packaged)
      separate rooted
    rw [stateAfter]
    rcases outcome : standard.update (Update.start UpdateOptions.standard (announcing "VER=\"2\""))
      (World.ofDisk packaged) with ⟨⟨_ | _, update⟩, after⟩ <;> rw [outcome] at current recorded
    · cases current
    · rw [place] at recorded
      exact recorded.1 current
  · have refused : (match standard.update (Update.start UpdateOptions.standard (announcing "VER=\"3\""))
        (World.ofDisk packaged) with
        | ((.error _, _), _) => true
        | _ => false) = true := by
      rw [update, run_all, stages_standard]
      decide +kernel
    have recorded := update_recorded UpdateOptions.standard (announcing "VER=\"3\"") (World.ofDisk packaged)
      separate rooted
    rw [stateAfter]
    rcases outcome : standard.update (Update.start UpdateOptions.standard (announcing "VER=\"3\""))
      (World.ofDisk packaged) with ⟨⟨_ | _, update⟩, after⟩ <;> rw [outcome] at refused recorded
    · rw [place] at recorded
      exact recorded
    · cases refused

end Registry

end Rebundle
