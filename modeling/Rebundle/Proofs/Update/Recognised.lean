import Rebundle.Proofs.Package.Rereading
import Rebundle.Proofs.Update.Ending
import Rebundle.Proofs.Update.Packaged

/-!
# A packaged release is recognised

An update that was due has written the state with its version to a file that no other file stands in the
way of. The next update reads that file first. When the file can be read strictly, the version in it is the
one that was packaged, so an update to the same version ends there. Names with undecodable bytes are written
as they were read, and may leave a file that cannot be read strictly.
-/

namespace Rebundle

/-- The file of a state after it was saved: it can be read as far as the disk is concerned. -/
structure Disk.Remembers (path : FilePath) (state : PackageState) (bytes : Bytes) (disk : Disk) : Prop where
  written : Storage.jsonBytes state.toJson = .ok bytes
  holds : disk.content? (Place.ofText path.text) = some bytes
  read : disk.read path.text = .ok bytes

namespace PackageState

variable {path : FilePath} {state : PackageState} {bytes : Bytes} {world : World}

/-- A saved state is loaded from its file, with texts as they are read again. -/
theorem load_saved (named : state.Named) (saved : world.disk.Remembers path state bytes) :
    Prod.fst (load path world) = match Utf8.decodeMarked bytes with
      | .ok _ => .ok state.reread
      | .error fault => .error (.decoding fault) := by
  rw [fst_load, Storage.contentAt_of_read saved.read]
  cases read : Utf8.decodeMarked bytes with
  | error fault =>
      rw [Storage.contentOf_of_undecoded read]
      rfl
  | ok text =>
      obtain ⟨text', value, read', parsed, means⟩ := decodes_reread named saved.written read
      rw [Storage.contentOf_of_parsed read' (parsed _), ← means path]
      rfl

end PackageState

namespace Registry

open Update (About)
open UpdateStage

variable {options : UpdateOptions} {remote : Remote} {world after : World} {update : Update}

/-- An update that was due remembers its version in a file that can be found. -/
theorem remembers_of_update (separate : options.Separate) (plain : options.statePath.Plain)
    (rooted : world.disk.Rooted)
    (done : standard.update (Update.start options remote) world = ((.ok (), update), after))
    (due : update.isUpToDate = false) :
    ∃ loaded bytes, Prod.fst (PackageState.load options.statePath world) = .ok loaded ∧
      after.disk.Remembers options.statePath { loaded with version := update.version } bytes := by
  obtain ⟨_, ended, ran, still⟩ := performed_of_update done due
  rw [stages_standard] at ran
  obtain ⟨release, passed, later, _, patched, header, code, _, patch, found, -, -, -, about, given,
    -, same, ran⟩ := patched_of_performAll separate.work ran due
  obtain ⟨_, _, _, remembered, packaged, -, -, version, closes⟩ :=
    closes_of_performAll separate.package about given ran due
  rw [still.disk, version]
  refine ⟨release.loaded, remembered, found.loaded, closes.state, closes.remembers,
    Disk.read_of_content closes.remembers closes.full closes.ends ?_⟩
  intro place above differ
  rw [closes.saved, Disk.content?_put_of_ne differ]
  refine Disk.content?_above plain closes.made ?_ above differ
  rintro root mem rfl
  rw [Disk.content?_removeTree]
  split
  · rfl
  · have notFile {name : Text} (named : FilePath.PlainName name) (level : name ≠ "..") :
        [root] ≠ Place.ofText (options.packageDirectory.child name).text := by
      rw [Place.ofText_child separate.package named level]
      intro same
      have last := congrArg List.getLast? same
      rw [List.getLast?_append_of_ne_nil _ (List.cons_ne_nil _ _), List.getLast?_singleton, List.getLast?_singleton,
        Option.some_inj] at last
      have slash : ('/' : CodePoint) ∈ root := by
        rcases List.mem_cons.mp mem with rfl | mem
        · decide
        · rw [List.mem_singleton.mp mem]
          decide
      exact named.slash (last ▸ slash)
    rename_i outside
    rw [List.isPrefixOf_iff_prefix] at outside
    rw [closes.elsewhere [root] (notFile (by decide) (by decide)) (notFile (by decide) (by decide)),
      same [root] outside]
    exact rooted root mem

/-- How an update ends that finds its version remembered: it performs the first stage only, asks the remote
once, and changes no file. -/
structure Recognised (options : UpdateOptions) (remote : Remote) (version : Text) (world : World)
    (last : Update) (after : World) : Prop where
  current : last.isUpToDate = true
  version : last.version = version
  performed : ∃ seconds ended, standard.run [] [] (Update.start options remote) world =
    ((.ok [⟨"resolve_version", seconds⟩], last), ended)
  disk : after.disk = world.disk
  questions : after.questions = world.questions + 1
  requests : after.requests = world.requests ++ (remote.text options.scriptUrl world.questions).requests

/-- An update to the version that is remembered is recognised. -/
theorem recognised_of_load {loaded : PackageState}
    (load : Prod.fst (PackageState.load options.statePath world) = .ok loaded)
    (told : Version.told options remote world.questions = .ok loaded.version) (known : loaded.version ≠ []) :
    ∃ last after, standard.update (Update.start options remote) world = ((.ok (), last), after) ∧
      Recognised options remote loaded.version world last after := by
  have current : (Update.resolved options remote loaded loaded.version).isUpToDate = true :=
    (Update.resolved_current known).mpr rfl
  obtain ⟨seconds, between, ran, disk, questions, requests⟩ :=
    Stage.performAll_current standard.stages.tail load told current
  rw [← run_first] at ran
  obtain ⟨after, ran', idle⟩ := update_of_current ran current
  exact ⟨_, after, ran', current, rfl, ⟨seconds, between, ran⟩, idle.disk.trans disk,
    idle.questions.trans questions, idle.requests.trans requests⟩

/-- The version that an update has packaged is recognised by a later one, whatever else has changed but the
files, if the file of the state can be read strictly; it can be when the names in the state have no
surrogates. If it cannot be, the later update fails before it asks. -/
theorem update_recognised (separate : options.Separate) (plain : options.statePath.Plain)
    (rooted : world.disk.Rooted)
    (done : standard.update (Update.start options remote) world = ((.ok (), update), after))
    (due : update.isUpToDate = false) (known : update.version ≠ []) (scalar : update.version.Plain) :
    ∃ loaded bytes, Prod.fst (PackageState.load options.statePath world) = .ok loaded ∧
      after.disk.content? (Place.ofText options.statePath.text) = some bytes ∧
      (loaded.packageName.Plain → loaded.binName.Plain → ∃ text, Utf8.decodeMarked bytes = .ok text) ∧
      ∀ (options' : UpdateOptions) (remote' : Remote) (other : World),
        options'.statePath = options.statePath →
        (∀ place, other.disk.content? place = after.disk.content? place) →
        Version.told options' remote' other.questions = .ok update.version →
        match Utf8.decodeMarked bytes with
        | .ok _ => ∃ last ended,
            standard.update (Update.start options' remote') other = ((.ok (), last), ended) ∧
              Recognised options' remote' update.version other last ended
        | .error fault => ∃ last ended,
            standard.update (Update.start options' remote') other =
              ((.error (.stage "resolve_version" (.decoding fault)), last), ended) ∧
              World.Idle other ended := by
  obtain ⟨loaded, bytes, found, remembers⟩ := remembers_of_update separate plain rooted done due
  have named := PackageState.named_of_load found
  have renamed : PackageState.Named { loaded with version := update.version } := ⟨named.packageName, named.binName⟩
  refine ⟨loaded, bytes, found, remembers.holds, fun packageName binName => ?_, ?_⟩
  · obtain ⟨text, _, read, -⟩ := @PackageState.decodes_of_jsonBytes { loaded with version := update.version }
      packageName scalar binName _ remembers.written
    exact ⟨text, read⟩
  intro options' remote' other path same told
  -- the limits of the other host are those of a world with the files that the update left
  have load := (@PackageState.load_congr options.statePath other { after with host := other.host } rfl
    fun place _ => same place).trans (PackageState.load_saved renamed remembers)
  rw [← path] at load
  cases read : Utf8.decodeMarked bytes with
  | error fault =>
      rw [read] at load
      obtain ⟨ended, ran, idle⟩ := Stage.performAll_unread remote' standard.stages.tail load
      rw [← run_first] at ran
      exact ⟨_, ended, update_of_error ran, idle⟩
  | ok text =>
      have version : (PackageState.reread { loaded with version := update.version }).version = update.version :=
        Utf8.reread_of_plain scalar
      rw [read] at load
      rw [← version] at told known ⊢
      exact recognised_of_load load told known

/-- A disk with a state whose name was read from a byte that cannot be decoded. -/
def undecodable : Disk :=
  [([Text.ofString "config.json"], .file (Markers.bytesOf "\x7b\"packageName\": \"\\udc80\"\x7d"))]

/-- Whether the second version is remembered in a file that can be read strictly, or in one that cannot. -/
def remembered (readable : Bool) (update : Update) (disk : Disk) : Bool :=
  !update.isUpToDate && update.version == "2" &&
    match disk.content? [Text.ofString "config.json"] with
    | some bytes => (Utf8.decodeMarked bytes).isOk == readable
    | none => false

theorem update_recognised_wrapped : bare.Separate ∧ bare.statePath.Plain ∧ undecodable.Rooted ∧
    (∃ update after, standard.update (Update.start bare (sending "VER=\"2\"" wrapped)) (World.ofDisk []) =
        ((.ok (), update), after) ∧ update.isUpToDate = false ∧
      ∃ last ended, standard.update (Update.start bare (sending "VER=\"2\"" wrapped)) after =
          ((.ok (), last), ended) ∧ Recognised bare (sending "VER=\"2\"" wrapped) "2" after last ended) ∧
    ∃ update after, standard.update (Update.start bare (sending "VER=\"2\"" wrapped)) (World.ofDisk undecodable) =
        ((.ok (), update), after) ∧ update.isUpToDate = false ∧
      ∃ fault last ended, standard.update (Update.start bare (sending "VER=\"2\"" wrapped)) after =
          ((.error (.stage "resolve_version" (.decoding fault)), last), ended) := by
  have separate : bare.Separate := ⟨by decide, by rintro _ ⟨⟩, by decide, by decide⟩
  have plain : bare.statePath.Plain := by decide
  have place : Place.ofText bare.statePath.text = [Text.ofString "config.json"] := by decide
  have told (world : World) : Version.told bare (sending "VER=\"2\"" wrapped) world.questions = .ok "2" :=
    Version.told_of_announced rfl (by decide)
  have empty : (World.ofDisk []).disk.Rooted := by
    unfold Disk.Rooted
    decide
  have rooted : (World.ofDisk undecodable).disk.Rooted := by
    unfold Disk.Rooted
    decide
  have runs : ends (remembered true)
      (standard.update (Update.start bare (sending "VER=\"2\"" wrapped)) (World.ofDisk [])) = true ∧
      ends (remembered false)
      (standard.update (Update.start bare (sending "VER=\"2\"" wrapped)) (World.ofDisk undecodable)) = true := by
    rw [update, run_all, stages_standard]
    unfold UpdateStage.patch Patcher.patchFile Patcher.patch Patcher.finish Document.render
    rw [Source.window_nil_eq]
    decide +kernel
  have known {readable : Bool} {update : Update} {disk : Disk} (same : remembered readable update disk = true) :
      update.isUpToDate = false ∧ update.version = "2" ∧ ∀ bytes,
        disk.content? (Place.ofText bare.statePath.text) = some bytes →
          (Utf8.decodeMarked bytes).isOk = readable := by
    simp only [remembered, Bool.and_eq_true, Bool.not_eq_true', beq_iff_eq] at same
    refine ⟨same.1.1, same.1.2, fun bytes holds => ?_⟩
    rw [place] at holds
    simpa [holds] using same.2
  refine ⟨separate, plain, rooted, ?_, ?_⟩
  · obtain ⟨update, after, outcome, same⟩ := exists_of_ends runs.1
    obtain ⟨due, version, readable⟩ := known same
    obtain ⟨loaded, bytes, -, holds, -, later⟩ := update_recognised separate plain empty outcome due
      (by rw [version]; decide) (by rw [version]; decide)
    rw [version] at later
    have ended := later bare (sending "VER=\"2\"" wrapped) after rfl (fun _ => rfl) (told after)
    cases read : Utf8.decodeMarked bytes with
    | error fault => cases read ▸ readable bytes holds
    | ok text =>
        rw [read] at ended
        exact ⟨update, after, outcome, due, ended⟩
  · obtain ⟨update, after, outcome, same⟩ := exists_of_ends runs.2
    obtain ⟨due, version, readable⟩ := known same
    obtain ⟨loaded, bytes, -, holds, -, later⟩ := update_recognised separate plain rooted outcome due
      (by rw [version]; decide) (by rw [version]; decide)
    rw [version] at later
    have ended := later bare (sending "VER=\"2\"" wrapped) after rfl (fun _ => rfl) (told after)
    cases read : Utf8.decodeMarked bytes with
    | ok text => cases read ▸ readable bytes holds
    | error fault =>
        rw [read] at ended
        obtain ⟨last, finish, failed, -⟩ := ended
        exact ⟨update, after, outcome, due, fault, last, finish, failed⟩

end Registry

end Rebundle
