import Rebundle.Proofs.Update.Performed

/-!
# The last stages

The last three stages write the package, take the work directory away and save the state. The removal comes after
the package was written, and the state is saved after the removal.
-/

namespace Rebundle

/-- What the last three stages make of a disk: with the package on it, then without the work directory, then with
the saved state. -/
structure UpdateOptions.Closes (options : UpdateOptions) (loaded : PackageState) (version : Text)
    (main described remembered : Bytes) (before packaged after : Disk) : Prop where
  manifest : Storage.jsonBytes (Package.manifest loaded version Package.standardDependencies) = .ok described
  state : Storage.jsonBytes (PackageState.toJson { loaded with version }) = .ok remembered
  mainHolds : packaged.content? options.mainPlace = some main
  manifestHolds : packaged.content? options.manifestPlace = some described
  elsewhere : ∀ place, place ≠ options.mainPlace → place ≠ options.manifestPlace →
    packaged.content? place = before.content? place
  removed : (packaged.removeTree options.workDirectory).1 = .ok ()
  made : ((packaged.removeTree options.workDirectory).2.makeDirectories
    (Disk.directoryOf options.statePath.text)).1 = .ok ()
  saved : after = ((packaged.removeTree options.workDirectory).2.makeDirectories
    (Disk.directoryOf options.statePath.text)).2.put (Place.ofText options.statePath.text) (.file remembered)
  inner : Place.ofText options.statePath.text ≠ []
  full : options.statePath.text ≠ []
  ends : Disk.endsInSlash options.statePath.text = false

namespace UpdateOptions.Closes

variable {options : UpdateOptions} {loaded : PackageState} {version : Text} {main described remembered : Bytes}
  {before packaged after : Disk} {place : Place}
  (closes : options.Closes loaded version main described remembered before packaged after)

include closes

theorem remembers : after.content? (Place.ofText options.statePath.text) = some remembered := by
  rw [closes.saved]
  exact Disk.content?_put_file closes.inner remembered _

theorem content?_eq (differ : place ≠ Place.ofText options.statePath.text) : after.content? place =
    if (Place.ofText options.workDirectory.text).isPrefixOf place then none else packaged.content? place := by
  rw [closes.saved, Disk.content?_put_of_ne differ, Disk.content?_makeDirectories, Disk.content?_removeTree]

/-- Of the work directory there are no files left but the saved state. -/
theorem content?_inside (inside : Place.ofText options.workDirectory.text <+: place)
    (differ : place ≠ Place.ofText options.statePath.text) : after.content? place = none := by
  rw [closes.content?_eq differ, if_pos (List.isPrefixOf_iff_prefix.mpr inside)]

/-- Outside of the work directory the package stays as it was written. -/
theorem content?_outside (outside : ¬ Place.ofText options.workDirectory.text <+: place)
    (differ : place ≠ Place.ofText options.statePath.text) : after.content? place = packaged.content? place := by
  rw [closes.content?_eq differ, if_neg (by simpa [List.isPrefixOf_iff_prefix] using outside)]

/-- A file of the package outside of the work directory is left, unless the state was saved in its place. -/
theorem exists_content? {content : Bytes} (holds : packaged.content? place = some content)
    (outside : ¬ Place.ofText options.workDirectory.text <+: place) :
    ∃ last, after.content? place = some last ∧ (last = content ∨ last = remembered) := by
  by_cases same : place = Place.ofText options.statePath.text
  · exact ⟨remembered, same ▸ closes.remembers, .inr rfl⟩
  · exact ⟨content, by rw [closes.content?_outside outside same, holds], .inl rfl⟩

/-- Unless the way to the state leads into the work directory, nothing is left of it. -/
theorem node?_inside (plain : options.statePath.Plain) (apart : ¬ options.statePath.Enters options.workDirectory)
    (inside : Place.ofText options.workDirectory.text <+: place) : after.node? place = none := by
  have differ : place ≠ Place.ofText options.statePath.text :=
    fun same => apart (FilePath.enters_of_prefix (same ▸ inside))
  rw [closes.saved, Disk.node?_put_of_ne differ, Disk.node?_makeDirectories plain apart inside,
    Disk.node?_removeTree closes.removed inside]

end UpdateOptions.Closes

namespace Registry

open Update (About)
open UpdateStage

variable {options : UpdateOptions} {remote : Remote} {loaded : PackageState} {version : Text}
  {passed update : Update} {later after : World}

/-- The last three stages package a patched bundle. -/
theorem closes_of_performAll (plain : options.packageDirectory.Plain)
    (about : About options remote loaded version passed) {patched : FilePath}
    (given : passed.patchedPath? = some patched) {timings : List Timing}
    (ran : Stage.performAll [⟨"package", 50, package⟩, ⟨"cleanup", 60, cleanUp⟩, ⟨"persist", 70, persist⟩]
      passed later = ((.ok timings, update), after))
    (due : update.isUpToDate = false) :
    ∃ bytes main described remembered packaged,
      later.disk.content? (Place.ofText patched.text) = some bytes ∧
      Utf8.encodeEscaped (Text.unifyLineEnds (Utf8.decodeEscaped bytes)) = .ok main ∧
      update.version = version ∧
      options.Closes loaded version main described remembered later.disk packaged after.disk := by
  obtain ⟨_, _, packaged, _, _, begun, worked, still₁, ran⟩ := Stage.performAll_ok ran due
  obtain ⟨bytes, main, described, read, packed, manifest, about, mainHolds, manifestHolds, elsewhere⟩ :=
    package_ok plain about given worked
  obtain ⟨_, _, _, _, _, begun₂, worked, still₂, ran⟩ := Stage.performAll_ok ran due
  obtain ⟨about, removed, cleared⟩ := cleanUp_ok about worked
  obtain ⟨_, _, _, _, _, begun₃, worked, still₃, ran⟩ := Stage.performAll_ok ran due
  obtain ⟨same, remembered, state, made, saved, inner, full, ends⟩ := persist_ok about worked
  cases ran
  rw [begun.disk] at read elsewhere
  rw [(still₁.trans begun₂).disk] at removed cleared
  rw [(still₂.trans begun₃).disk, cleared] at made saved
  rw [← still₃.disk] at saved
  exact ⟨bytes, main, described, remembered, packaged.disk, read, packed, same, manifest, state, mainHolds,
    manifestHolds, elsewhere, removed, made, saved, inner, full, ends⟩

end Registry

end Rebundle
