import Rebundle.Proofs.Update.Packaged

/-!
# What an update delivers

The package lies beside the work directory, which is taken away at the end. A work directory with the name of the
package is the directory of the package: then what was made is taken away with it, and the version is remembered all
the same.
-/

namespace Rebundle

/-- Whether a content is that of a JSON object with this version. -/
def Storage.Versioned (version : Text) (content : Bytes) : Prop :=
  ∃ value, jsonBytes value = .ok content ∧ value.member? "version" = some (.string version)

namespace UpdateOptions

variable {options : UpdateOptions}

/-- Options under which the package is made beside the work directory. -/
structure Beside (options : UpdateOptions) : Prop where
  work : options.workDirectory.Plain
  ungiven : options.packageDirectory? = none

/-- Whether the work directory has the name of the package, so that both are one directory. -/
def worksInPackage (options : UpdateOptions) : Bool :=
  options.workDirectory.names.getLast? = some (Text.ofString "package")

namespace Beside

theorem plain (beside : options.Beside) : options.packageDirectory.Plain := by
  refine plain_packageDirectory beside.work ?_
  rw [beside.ungiven]
  exact fun _ given => nomatch given

theorem place_file (beside : options.Beside) {name : Text} (named : FilePath.PlainName name) (level : name ≠ "..") :
    Place.ofText (options.packageDirectory.child name).text =
      Place.ofText options.packageDirectory.text ++ [name] :=
  Place.ofText_child beside.plain named level

/-- A work directory that was removed contains the package, or no file of it, as its own name is that of the
package or not. -/
theorem inside_iff (beside : options.Beside) {disk : Disk}
    (removed : (disk.removeTree options.workDirectory).1 = .ok ()) (behind : Place) :
    Place.ofText options.workDirectory.text <+: Place.ofText options.packageDirectory.text ++ behind ↔
      options.worksInPackage = true := by
  obtain ⟨name, names, named, level⟩ := Disk.named_of_removeTree beside.work removed
  have work : options.workDirectory = options.workDirectory.parent.child name := by
    rw [FilePath.child_eq _ named, ← names]
    rfl
  have package : options.packageDirectory = options.workDirectory.parent.child "package" := by
    rw [packageDirectory, beside.ungiven]
    rfl
  have last : options.worksInPackage = true ↔ name = Text.ofString "package" := by
    rw [worksInPackage, names]
    simp
  rw [last, work, package, Place.ofText_child beside.work.parent named level,
    Place.ofText_child beside.work.parent (by decide) (by decide), List.append_assoc, List.prefix_append_right_inj]
  simp

end Beside

end UpdateOptions

namespace Registry

variable {options : UpdateOptions} {remote : Remote} {world after : World} {update : Update}

/-- An update that was due remembers its version. Unless the work directory has the name of the package it leaves
the bundle and a manifest with that version; otherwise it leaves no file of the package. -/
theorem update_delivers (beside : options.Beside)
    (done : standard.update (Update.start options remote) world = ((.ok (), update), after))
    (due : update.isUpToDate = false) :
    (∃ state, after.disk.content? (Place.ofText options.statePath.text) = some state ∧
      Storage.Versioned update.version state) ∧
    if options.worksInPackage then
      ∀ place, Place.ofText options.packageDirectory.text <+: place →
        place ≠ Place.ofText options.statePath.text → after.disk.content? place = none
    else ∃ main manifest, after.disk.content? options.mainPlace = some main ∧
      after.disk.content? options.manifestPlace = some manifest ∧ Storage.Versioned update.version manifest := by
  obtain ⟨_, ended, ran, still⟩ := performed_of_update done due
  rw [stages_standard] at ran
  obtain ⟨release, passed, later, _, _, _, _, _, _, -, -, -, -, about, given, -, -, ran⟩ :=
    patched_of_performAll beside.work ran due
  obtain ⟨_, main, described, remembered, packaged, -, -, version, closes⟩ :=
    closes_of_performAll beside.plain about given ran due
  rw [still.disk, version]
  have state : Storage.Versioned release.version remembered := ⟨_, closes.state, rfl⟩
  have manifest : Storage.Versioned release.version described := ⟨_, closes.manifest, rfl⟩
  refine ⟨⟨remembered, closes.remembers, state⟩, ?_⟩
  split
  · rename_i same
    intro place inside differ
    obtain ⟨behind, rfl⟩ := inside
    exact closes.content?_inside ((beside.inside_iff closes.removed behind).mpr same) differ
  · rename_i apart
    have outside {name : Text} :
        ¬ Place.ofText options.workDirectory.text <+: Place.ofText options.packageDirectory.text ++ [name] :=
      mt (beside.inside_iff closes.removed [name]).mp apart
    have mainPlace : options.mainPlace = _ := beside.place_file (by decide) (by decide)
    have manifestPlace : options.manifestPlace = _ := beside.place_file (by decide) (by decide)
    obtain ⟨content, left, _⟩ := closes.exists_content? closes.mainHolds (mainPlace ▸ outside)
    obtain ⟨content', left', which⟩ := closes.exists_content? closes.manifestHolds (manifestPlace ▸ outside)
    -- where the manifest is the state file it has the version of the state
    have versioned : Storage.Versioned release.version content' := by
      rcases which with rfl | rfl
      · exact manifest
      · exact state
    exact ⟨content, content', left, left', versioned⟩

/-- A work directory with the name of the package. -/
def housed : UpdateOptions := { bare with workDirectory := FilePath.ofText "package" }

/-- The first release is packaged and remembered, but nothing is left of the package. -/
theorem update_delivers_housed : housed.Beside ∧ ∃ update after,
    standard.update (Update.start housed (sending "VER=\"2\"" wrapped)) (World.ofDisk []) =
      ((.ok (), update), after) ∧
    update.isUpToDate = false ∧
    (∃ state, after.disk.content? (Place.ofText housed.statePath.text) = some state ∧
      Storage.Versioned update.version state) ∧
    after.disk.content? housed.mainPlace = none ∧ after.disk.content? housed.manifestPlace = none := by
  have beside : housed.Beside := ⟨by decide, rfl⟩
  have ran : ends (fun update _ => !update.isUpToDate)
      (standard.update (Update.start housed (sending "VER=\"2\"" wrapped)) (World.ofDisk [])) = true := by
    rw [update, run_all, stages_standard]
    unfold UpdateStage.patch Patcher.patchFile Patcher.patch Patcher.finish Document.render
    rw [Source.window_nil_eq]
    decide +kernel
  obtain ⟨update, after, outcome, due⟩ := exists_of_ends ran
  rw [Bool.not_eq_true'] at due
  obtain ⟨remembered, gone⟩ := update_delivers beside outcome due
  rw [if_pos (by decide)] at gone
  exact ⟨beside, update, after, outcome, due, remembered, gone _ (by decide) (by decide),
    gone _ (by decide) (by decide)⟩

end Registry

end Rebundle
