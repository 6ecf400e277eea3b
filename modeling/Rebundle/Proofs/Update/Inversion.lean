import Rebundle.Proofs.Disk.Ways
import Rebundle.Proofs.Update.Triple

/-!
# What successful runs have done

A run that succeeded has done each of its steps. Of every operation is said what must have been on the
disk for it to succeed, what it gave, and which files it made: a file is stored at one place, and the
others are the same as before.
-/

namespace Rebundle

/-- A file was written, and no other one changed. -/
structure Disk.Stored (place : Place) (content : Bytes) (disk after : Disk) : Prop where
  holds : after.content? place = some content
  elsewhere : ∀ other, other ≠ place → after.content? other = disk.content? other

/-- Nothing but records was added and time went by. -/
structure World.Still (world after : World) : Prop where
  host : after.host = world.host
  disk : after.disk = world.disk
  questions : after.questions = world.questions

namespace World.Still

variable {world between after : World}

theorem refl (world : World) : Still world world := ⟨rfl, rfl, rfl⟩

theorem trans (first : Still world between) (second : Still between after) : Still world after :=
  ⟨second.host.trans first.host, second.disk.trans first.disk, second.questions.trans first.questions⟩

end World.Still

namespace Run

open World (Still)

variable {α β ε : Type} {value : α} {world after : World}

theorem bind_ok {run : Run α} {next : α → Run β} {value : β}
    (done : (run >>= next) world = (.ok value, after)) :
    ∃ found between, run world = (.ok found, between) ∧ next found between = (.ok value, after) := by
  rw [bind_apply] at done
  rcases outcome : run world with ⟨_ | found, between⟩ <;> rw [outcome] at done
  · cases done
  · exact ⟨found, between, rfl, done⟩

theorem pure_ok {given : α} (done : (pure given : Run α) world = (.ok value, after)) :
    given = value ∧ Still world after := by
  cases done
  exact ⟨rfl, .refl _⟩

theorem write_ok {record : Log.Record} (done : write record world = (.ok (), after)) : Still world after := by
  cases done
  exact ⟨rfl, rfl, rfl⟩

theorem ofExcept_ok {result : Except ε α} {failure : ε → Failure}
    (done : ofExcept result failure world = (.ok value, after)) : result = .ok value ∧ Still world after := by
  cases result <;> cases done
  exact ⟨rfl, .refl _⟩

theorem ofLogged_ok {logged : Logged (Except Failure α)} (done : ofLogged logged world = (.ok value, after)) :
    logged.value = .ok value ∧ Still world after := by
  obtain ⟨_ | _, log⟩ := logged <;> cases done
  exact ⟨rfl, rfl, rfl, rfl⟩

theorem write_apply (record : Log.Record) (world : World) :
    write record world = (.ok (), { world with log := world.log ++ [record] }) := rfl

theorem ofLogged_apply (logged : Logged (Except Failure α)) (world : World) :
    ofLogged logged world = (logged.value, { world with log := world.log ++ logged.log }) := by
  obtain ⟨_ | _, _⟩ := logged <;> rfl

theorem ask_apply (question : Nat → Exchange α) (world : World) :
    ask question world = ((question world.questions).result,
      { world with
        requests := world.requests ++ (question world.questions).requests
        questions := world.questions + 1
        log := world.log ++ (question world.questions).log }) := by
  change (MonadExcept.ofExcept (question world.questions).result : Run α) _ = _
  cases (question world.questions).result <;> rfl

theorem ask_ok {question : Nat → Exchange α} (done : ask question world = (.ok value, after)) :
    (question world.questions).result = .ok value ∧ after.disk = world.disk ∧
      after.questions = world.questions + 1 ∧ after.host = world.host := by
  rw [ask_apply, Prod.mk.injEq] at done
  obtain ⟨result, rfl⟩ := done
  exact ⟨result, rfl, rfl, rfl⟩

theorem onDisk_ok {operation : Disk → Except SystemFault α × Disk}
    (done : onDisk operation world = (.ok value, after)) :
    (operation world.disk).1 = .ok value ∧ after.disk = (operation world.disk).2 ∧
      after.questions = world.questions ∧ after.host = world.host := by
  rw [onDisk_apply, Prod.mk.injEq] at done
  obtain ⟨result, rfl⟩ := done
  cases outcome : (operation world.disk).1 <;> rw [outcome] at result <;> cases result
  exact ⟨rfl, rfl, rfl, rfl⟩

end Run

namespace Storage

open World (Still)

variable {path : Text} {world after : World}

theorem readBytes_ok {bytes : Bytes} (done : readBytes path world = (.ok bytes, after)) :
    world.disk.content? (Place.ofText path) = some bytes ∧ Still world after := by
  obtain ⟨read, still⟩ := Run.ofExcept_ok (show Run.ofExcept (world.disk.read path) .system world = _ from done)
  exact ⟨Disk.content?_of_read read, still⟩

theorem readText_ok {text : Text} (done : readText path world = (.ok text, after)) :
    ∃ bytes, world.disk.content? (Place.ofText path) = some bytes ∧
      text = Text.unifyLineEnds (Utf8.decodeEscaped bytes) ∧ Still world after := by
  obtain ⟨bytes, between, read, done⟩ := Run.bind_ok done
  obtain ⟨holds, still⟩ := readBytes_ok read
  obtain ⟨rfl, still'⟩ := Run.pure_ok done
  exact ⟨bytes, holds, rfl, still.trans still'⟩

theorem ask_ok {act : Act} (done : onHost (·.ask act) world = (.ok (), after)) :
    world.host.refusal? act world.disk = none ∧ Still world after := by
  rw [onHost_apply] at done
  rcases world.host.ask_cases act world with ⟨unrefused, granted⟩ | ⟨failure, -, refused⟩
  · cases granted.symm.trans done
    exact ⟨unrefused, .refl _⟩
  · cases refused.symm.trans done

/-- What was written was encoded, and put at a place below the working directory. -/
theorem writeWhole_ok {content : Except Failure Bytes}
    (done : writeWhole path content world = (.ok (), after)) :
    ∃ bytes, content = .ok bytes ∧ Place.ofText path ≠ [] ∧
      after.disk = (world.disk.makeDirectories (Disk.directoryOf path)).2.put (Place.ofText path) (.file bytes) := by
  obtain ⟨_, between, made, done⟩ := Run.bind_ok done
  obtain ⟨bytes, _, encoded, settled⟩ := Run.bind_ok done
  obtain ⟨-, disk, -⟩ := Run.onDisk_ok made
  cases content <;> cases encoded
  obtain ⟨result, disk', -⟩ := Run.onDisk_ok settled
  rcases Disk.settle_cases path bytes between.disk with ⟨fault, refused⟩ | ⟨inner, settled⟩
  · rw [refused] at result
    cases result
  · rw [settled, disk] at disk'
    exact ⟨bytes, rfl, inner, disk'⟩

/-- What was written has a directory to lie in, and a path that is the path of a file. -/
theorem writeWhole_way {content : Except Failure Bytes}
    (done : writeWhole path content world = (.ok (), after)) :
    (world.disk.makeDirectories (Disk.directoryOf path)).1 = .ok () ∧ path ≠ [] ∧
      Disk.endsInSlash path = false := by
  obtain ⟨_, between, made, done⟩ := Run.bind_ok done
  obtain ⟨bytes, _, encoded, settled⟩ := Run.bind_ok done
  obtain ⟨result, -⟩ := Run.onDisk_ok made
  obtain ⟨settled, -⟩ := Run.onDisk_ok settled
  refine ⟨result, ?_⟩
  unfold Disk.settle at settled
  split at settled
  · cases settled
  · rename_i full
    split at settled
    · cases settled
    · split at settled
      · cases settled
      · rename_i ends
        exact ⟨by simpa using full, by simpa using ends⟩

theorem stored_writeWhole {content : Except Failure Bytes}
    (done : writeWhole path content world = (.ok (), after)) :
    ∃ bytes, content = .ok bytes ∧ Disk.Stored (Place.ofText path) bytes world.disk after.disk := by
  obtain ⟨bytes, encoded, inner, disk⟩ := writeWhole_ok done
  rw [disk]
  refine ⟨bytes, encoded, Disk.content?_put_file inner bytes _, fun other differ => ?_⟩
  rw [Disk.content?_put_of_ne differ, Disk.content?_makeDirectories]

theorem stored_writeBytes {content : Bytes} (done : writeBytes path content world = (.ok (), after)) :
    Disk.Stored (Place.ofText path) content world.disk after.disk := by
  obtain ⟨bytes, encoded, stored⟩ := stored_writeWhole (writeBytes_ok done)
  cases encoded
  exact stored

theorem host_writeBytes {content : Bytes} (done : writeBytes path content world = (.ok (), after)) :
    after.host = world.host := by
  have stays := stays_writeBytes path content world
  rwa [done] at stays

theorem stored_writeJson {value : Json} (done : writeJson path value world = (.ok (), after)) :
    ∃ bytes, jsonBytes value = .ok bytes ∧ Disk.Stored (Place.ofText path) bytes world.disk after.disk :=
  stored_writeWhole (writeJson_ok done)

theorem stored_writeText {text : Text} (done : writeText path text world = (.ok (), after)) :
    ∃ bytes, Utf8.encodeEscaped text = .ok bytes ∧
      Disk.Stored (Place.ofText path) bytes world.disk after.disk := by
  obtain ⟨bytes, piece, stored⟩ := stored_writeWhole (writeText_ok done)
  refine ⟨bytes, ?_, stored⟩
  rw [encoded] at piece
  cases made : Utf8.encodeEscaped text <;> rw [made] at piece <;> cases piece
  rfl

end Storage

/-- A bundle was taken out of the bytes of a file. -/
theorem Extraction.ofFile_ok {input output : Text} {markers : Markers} {e : Extraction} {world after : World}
    (done : ofFile input output markers world = (.ok e, after)) :
    ∃ buffer, world.disk.content? (Place.ofText input) = some buffer ∧ e = ofBuffer markers buffer ∧
      after.host = world.host ∧ Disk.Stored (Place.ofText output) e.payload world.disk after.disk := by
  have stays := keeps_ofFile (Storage.stays_writeBytes output) input markers world
  rw [done] at stays
  obtain ⟨_, _, wrote, done⟩ := Run.bind_ok done
  obtain ⟨buffer, _, read, done⟩ := Run.bind_ok done
  obtain ⟨found, _, reported, done⟩ := Run.bind_ok done
  obtain ⟨_, _, stored, done⟩ := Run.bind_ok done
  obtain ⟨_, _, wrote', done⟩ := Run.bind_ok done
  have begun := Run.write_ok wrote
  obtain ⟨holds, still⟩ := Storage.readBytes_ok read
  obtain ⟨value, still'⟩ := Run.ofLogged_ok reported
  have stored := Storage.stored_writeBytes stored
  obtain ⟨rfl, ended⟩ := Run.pure_ok done
  have same : found = ofBuffer markers buffer := (Except.ok.inj value).symm
  rw [(begun.trans (still.trans still')).disk] at stored
  rw [begun.disk] at holds
  rw [((Run.write_ok wrote').trans ended).disk]
  exact ⟨buffer, holds, same, stays, stored⟩

/-- The text of a file was patched, and the code of the patch was written. -/
theorem Patcher.patchFile_ok {patcher : Patcher} {input output : Text} {config : PatchConfig} {patch : Patch}
    {world after : World} (done : patcher.patchFile input output config world = (.ok patch, after)) :
    ∃ bytes code, world.disk.content? (Place.ofText input) = some bytes ∧
      (patcher.patch config (Text.unifyLineEnds (Utf8.decodeEscaped bytes)) (some input)).value = .ok patch ∧
      Utf8.encodeEscaped patch.code = .ok code ∧
      Disk.Stored (Place.ofText output) code world.disk after.disk := by
  obtain ⟨_, _, wrote, done⟩ := Run.bind_ok done
  obtain ⟨source, _, read, done⟩ := Run.bind_ok done
  obtain ⟨_, _, asked, done⟩ := Run.bind_ok done
  obtain ⟨found, _, patched, done⟩ := Run.bind_ok done
  obtain ⟨_, _, stored, done⟩ := Run.bind_ok done
  obtain ⟨_, _, wrote', done⟩ := Run.bind_ok done
  have begun := Run.write_ok wrote
  obtain ⟨bytes, holds, same, still⟩ := Storage.readText_ok read
  obtain ⟨value, still'⟩ := Run.ofLogged_ok patched
  replace still' := (Storage.ask_ok asked).2.trans still'
  obtain ⟨code, encoded, stored⟩ := Storage.stored_writeText stored
  obtain ⟨rfl, ended⟩ := Run.pure_ok done
  rw [same] at value
  rw [(begun.trans (still.trans still')).disk] at stored
  rw [begun.disk] at holds
  rw [((Run.write_ok wrote').trans ended).disk]
  exact ⟨bytes, code, holds, value, encoded, stored⟩

/-- The two files of a package were written one after the other. -/
theorem Package.write_ok {directory path : FilePath} {code : Text} {state : PackageState} {version : Text}
    {dependencies : Table Text Text} {world after : World}
    (done : write directory code state version dependencies world = (.ok path, after)) :
    ∃ main described between, Utf8.encodeEscaped code = .ok main ∧
      Storage.jsonBytes (manifest state version dependencies) = .ok described ∧
      Disk.Stored (Place.ofText (directory.child mainName).text) main
        (world.disk.ensureDirectory directory).2 between ∧
      Disk.Stored (Place.ofText (directory.child "package.json").text) described between after.disk := by
  obtain ⟨_, _, ensured, done⟩ := Run.bind_ok done
  obtain ⟨_, between, stored, done⟩ := Run.bind_ok done
  obtain ⟨_, _, stored', done⟩ := Run.bind_ok done
  obtain ⟨_, _, wrote, done⟩ := Run.bind_ok done
  obtain ⟨-, disk, -⟩ := Run.onDisk_ok ensured
  obtain ⟨main, encoded, stored⟩ := Storage.stored_writeText stored
  obtain ⟨described, encoded', stored'⟩ := Storage.stored_writeJson stored'
  obtain ⟨-, ended⟩ := Run.pure_ok done
  rw [disk] at stored
  rw [((Run.write_ok wrote).trans ended).disk]
  exact ⟨main, described, between.disk, encoded, encoded', stored, stored'⟩

namespace Work

variable {α β : Type} {value : α} {update last : Update} {world after : World}

theorem bind_ok {work : Work α} {next : α → Work β} {value : β}
    (done : (work >>= next) update world = ((.ok value, last), after)) :
    ∃ found passed between, work update world = ((.ok found, passed), between) ∧
      next found passed between = ((.ok value, last), after) := by
  rw [bind_apply] at done
  rcases outcome : work update world with ⟨⟨_ | found, passed⟩, between⟩ <;> rw [outcome] at done
  · cases done
  · exact ⟨found, passed, between, rfl, done⟩

theorem ofRun_ok {run : Run α} (done : ofRun run update world = ((.ok value, last), after)) :
    run world = (.ok value, after) ∧ update = last := by
  rw [ofRun_apply] at done
  rcases outcome : run world with ⟨_, _⟩
  rw [outcome] at done
  cases done
  exact ⟨rfl, rfl⟩

theorem run_ok {run : Run α} {next : α → Work β} {value : β}
    (done : (ofRun run >>= next) update world = ((.ok value, last), after)) :
    ∃ found between, run world = (.ok found, between) ∧
      next found update between = ((.ok value, last), after) := by
  obtain ⟨found, _, between, ran, rest⟩ := bind_ok done
  obtain ⟨outcome, rfl⟩ := ofRun_ok ran
  exact ⟨found, between, outcome, rest⟩

theorem read_ok {next : Update → Work α} (done : (get >>= next) update world = ((.ok value, last), after)) :
    next update update world = ((.ok value, last), after) := done

theorem change_ok {change : Update → Update} {next : Unit → Work α}
    (done : (modify change >>= next) update world = ((.ok value, last), after)) :
    next () (change update) world = ((.ok value, last), after) := done

theorem write_ok {record : Log.Record} (done : write record update world = ((.ok (), last), after)) :
    World.Still world after ∧ update = last := by
  obtain ⟨wrote, same⟩ := ofRun_ok done
  exact ⟨Run.write_ok wrote, same⟩

end Work

namespace Stage

variable {stage : Stage} {rest : List Stage} {timing : Timing} {timings : List Timing}
  {update last : Update} {world after : World}

/-- A stage that was performed did its work. -/
theorem perform_ok (done : stage.perform update world = ((.ok timing, last), after)) :
    ∃ begun ended, World.Still world begun ∧ stage.work update begun = ((.ok (), last), ended) ∧
      World.Still ended after := by
  obtain ⟨_, _, begun, timed, done⟩ := Work.bind_ok done
  cases timed
  obtain ⟨outcome, passed, ended, attempted, done⟩ := Work.bind_ok done
  rw [Work.attempt_apply] at attempted
  rcases worked : stage.work update { world with ticks := world.ticks + 1 } with ⟨⟨_, _⟩, _⟩
  rw [worked] at attempted
  cases attempted
  cases outcome with
  | error failure =>
      obtain ⟨failed, -⟩ := Work.ofRun_ok done
      cases (Run.ofLogged_ok failed).1
  | ok =>
      obtain ⟨_, _, _, timed, done⟩ := Work.bind_ok done
      cases timed
      cases done
      exact ⟨{ world with ticks := world.ticks + 1 }, ended, ⟨rfl, rfl, rfl⟩, worked, rfl, rfl, rfl⟩

/-- In an update that is not up to date at its end, a stage is followed by all that come after it. -/
theorem performAll_ok (done : performAll (stage :: rest) update world = ((.ok timings, last), after))
    (due : last.isUpToDate = false) :
    ∃ begun passed ended later timings', World.Still world begun ∧
      stage.work update begun = ((.ok (), passed), ended) ∧ World.Still ended later ∧
      performAll rest passed later = ((.ok timings', last), after) := by
  rw [performAll] at done
  obtain ⟨_, passed, performed, ran, done⟩ := Work.bind_ok done
  obtain ⟨begun, ended, still, worked, still'⟩ := perform_ok ran
  obtain ⟨_, _, _, looked, done⟩ := Work.bind_ok done
  cases looked
  obtain ⟨_, _, later, wrote, done⟩ := Work.bind_ok done
  obtain ⟨still'', rfl⟩ := Work.write_ok wrote
  split at done
  · rename_i current
    obtain ⟨_, _, _, wrote', done⟩ := Work.bind_ok done
    obtain ⟨-, rfl⟩ := Work.write_ok wrote'
    cases done
    cases current.symm.trans due
  · obtain ⟨timings', _, _, followed, done⟩ := Work.bind_ok done
    cases done
    exact ⟨begun, passed, ended, later, timings', still, worked, still'.trans still'', followed⟩

end Stage

end Rebundle
