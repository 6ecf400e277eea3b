import Rebundle.Proofs.Rewrite.Patched
import Rebundle.Proofs.Update.Inversion

/-!
# What failing runs leave

A file is written by making the directories that lead to it and putting it in its place when it is finished. So a run
that only reads before it writes, and does nothing behind it that can fail, leaves all files as they were when it
fails: at most some directories are new.
-/

namespace Rebundle

namespace Run

variable {α β ε : Type} {world after : World} {failure : Failure}

/-- A run of two steps fails in one of them. -/
theorem bind_error {run : Run α} {next : α → Run β} (failed : (run >>= next) world = (.error failure, after)) :
    run world = (.error failure, after) ∨
      ∃ value between, run world = (.ok value, between) ∧ next value between = (.error failure, after) := by
  rw [bind_apply] at failed
  rcases outcome : run world with ⟨_ | value, between⟩ <;> rw [outcome] at failed
  · cases failed
    exact .inl rfl
  · exact .inr ⟨value, between, rfl, failed⟩

theorem ofExcept_error {result : Except ε α} {reason : ε → Failure}
    (failed : ofExcept result reason world = (.error failure, after)) :
    (∃ fault, result = .error fault ∧ failure = reason fault) ∧ after = world := by
  cases result <;> cases failed
  exact ⟨⟨_, rfl, rfl⟩, rfl⟩

theorem ofLogged_error {logged : Logged (Except Failure α)}
    (failed : ofLogged logged world = (.error failure, after)) :
    logged.value = .error failure ∧ after.disk = world.disk := by
  obtain ⟨_ | _, log⟩ := logged <;> cases failed
  exact ⟨rfl, rfl⟩

/-- What only reports and gives a value does not fail. -/
theorem report_error {record : Log.Record} {value : α} :
    (Run.write record >>= fun _ => (pure value : Run α)) world ≠ (.error failure, after) := by
  rintro ⟨⟩

end Run

namespace Storage

variable {path : Text} {world after : World} {failure : Failure}

theorem readBytes_error (failed : readBytes path world = (.error failure, after)) :
    (∃ fault, failure = .system fault) ∧ after = world := by
  obtain ⟨⟨fault, _, same⟩, still⟩ := Run.ofExcept_error
    (show Run.ofExcept (world.disk.read path) .system world = _ from failed)
  exact ⟨⟨fault, same⟩, still⟩

theorem readText_of_read {bytes : Bytes} (read : world.disk.read path = .ok bytes) :
    readText path world = (.ok (Text.unifyLineEnds (Utf8.decodeEscaped bytes)), world) := by
  have bytes : readBytes path world = Run.ofExcept (world.disk.read path) .system world := rfl
  rw [readText, Run.bind_apply, bytes, read]
  rfl

theorem readText_of_refused {fault : SystemFault} (refused : world.disk.read path = .error fault) :
    readText path world = (.error (.system fault), world) := by
  have bytes : readBytes path world = Run.ofExcept (world.disk.read path) .system world := rfl
  rw [readText, Run.bind_apply, bytes, refused]
  rfl

theorem ask_error {act : Act} (failed : onHost (·.ask act) world = (.error failure, after)) :
    world.host.Refuses failure ∧ after = world := by
  rw [onHost_apply] at failed
  rcases world.host.ask_cases act world with ⟨-, granted⟩ | ⟨failure, refuses, refused⟩
  · cases granted.symm.trans failed
  · cases refused.symm.trans failed
    exact ⟨refuses, rfl⟩

theorem ask_of_granted {act : Act} (granted : world.host.refusal? act world.disk = none) :
    onHost (·.ask act) world = (.ok (), world) := by
  rw [onHost_apply, Host.ask, Run.bind_apply, Run.get_apply]
  simp only [granted]
  rfl

end Storage

variable {input output : Text} {world after : World} {failure : Failure}

/-- Only the system and the host keep a bundle from being taken out of a file, and then no file has changed. -/
theorem Extraction.ofFile_error {markers : Markers}
    (failed : ofFile input output markers world = (.error failure, after)) :
    Disk.Made (Disk.levels (Disk.directoryOf output)) world.disk after.disk ∧
      ((∃ fault, failure = .system fault) ∨ world.host.Refuses failure) := by
  rcases Run.bind_error failed with ⟨⟨⟩⟩ | ⟨_, _, wrote, failed⟩
  have begun := Run.write_ok wrote
  rcases Run.bind_error failed with refused | ⟨buffer, _, read, failed⟩
  · obtain ⟨system, rfl⟩ := Storage.readBytes_error refused
    exact ⟨begun.disk ▸ .refl _ _, .inl system⟩
  · obtain ⟨_, still⟩ := Storage.readBytes_ok read
    rcases Run.bind_error failed with ⟨⟨⟩⟩ | ⟨found, _, reported, failed⟩
    obtain ⟨_, still'⟩ := Run.ofLogged_ok reported
    rcases Run.bind_error failed with refused | ⟨_, _, _, failed⟩
    · have written := Storage.writeBytes_error refused
      have same := begun.trans (still.trans still')
      rwa [same.disk, same.host] at written
    · exact absurd failed Run.report_error

section

variable {patcher : Patcher} {config : PatchConfig}

/-- A file is not patched when the system or the host refuses it, or its text is granted but cannot be patched, and
then no file has changed. -/
theorem Patcher.patchFile_error (failed : patcher.patchFile input output config world = (.error failure, after)) :
    Disk.Made (Disk.levels (Disk.directoryOf output)) world.disk after.disk ∧
      ((∃ fault, failure = .system fault) ∨ world.host.Refuses failure ∨
        ∃ bytes, world.disk.read input = .ok bytes ∧
        world.host.refusal? (.patch (Text.unifyLineEnds (Utf8.decodeEscaped bytes))) world.disk = none ∧
        (patcher.patch config (Text.unifyLineEnds (Utf8.decodeEscaped bytes)) (some input)).value =
          .error failure) := by
  rcases Run.bind_error failed with ⟨⟨⟩⟩ | ⟨_, _, wrote, failed⟩
  have begun := Run.write_ok wrote
  rw [Run.bind_apply] at failed
  cases read : world.disk.read input with
  | error fault =>
      rw [Storage.readText_of_refused (begun.disk.symm ▸ read)] at failed
      cases failed
      exact ⟨begun.disk ▸ .refl _ _, .inl ⟨fault, rfl⟩⟩
  | ok bytes =>
      rw [Storage.readText_of_read (begun.disk.symm ▸ read)] at failed
      rcases Run.bind_error failed with refused | ⟨_, _, asked, failed⟩
      · obtain ⟨refuses, rfl⟩ := Storage.ask_error refused
        rw [begun.disk, ← begun.host]
        exact ⟨.refl _ _, .inr (.inl refuses)⟩
      obtain ⟨granted, still⟩ := Storage.ask_ok asked
      rw [begun.disk, begun.host] at granted
      replace begun := begun.trans still
      rcases Run.bind_error failed with refused | ⟨patch, _, patched, failed⟩
      · obtain ⟨value, disk⟩ := Run.ofLogged_error refused
        rw [disk, begun.disk]
        exact ⟨.refl _ _, .inr (.inr ⟨bytes, rfl, granted, value⟩)⟩
      · obtain ⟨value, still⟩ := Run.ofLogged_ok patched
        rcases Run.bind_error failed with refused | ⟨_, _, _, failed⟩
        · obtain ⟨_, _, _, _, code⟩ := Patcher.patch_ok value
          have written := Storage.writeText_error (code ▸ Utf8.encodeEscaped_decodeEscaped _) refused
          rw [(begun.trans still).disk, (begun.trans still).host] at written
          exact ⟨written.1, written.2.imp_right .inl⟩
        · exact absurd failed Run.report_error

/-- Nothing is written when a text cannot be patched. -/
theorem Patcher.patchFile_of_error {bytes : Bytes} (read : world.disk.read input = .ok bytes)
    (granted : world.host.refusal? (.patch (Text.unifyLineEnds (Utf8.decodeEscaped bytes))) world.disk = none)
    (refused : (patcher.patch config (Text.unifyLineEnds (Utf8.decodeEscaped bytes)) (some input)).value =
      .error failure) (output : Text) :
    ∃ after, patcher.patchFile input output config world = (.error failure, after) ∧ after.disk = world.disk := by
  have found (log : Log) : Storage.readText input { world with log } = (.ok _, { world with log }) :=
    Storage.readText_of_read read
  have asked (log : Log) := @Storage.ask_of_granted { world with log } _ granted
  simp only [patchFile, Run.bind_apply, Run.write_apply, found, asked, Run.ofLogged_apply, refused]
  exact ⟨_, rfl, rfl⟩

end

end Rebundle
