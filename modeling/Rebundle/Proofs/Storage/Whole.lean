import Rebundle.Proofs.Disk.Content
import Rebundle.Storage

/-!
# Files are written whole

Streaming into a temporary file changes nothing but that file, and the temporary file is gone in the end: it has
become the target, or the disk is as it was when the file was opened. So a file that could be written was written in
one step, with the bytes of all pieces, and a write that fails leaves no more behind than directories.
-/

namespace Rebundle

namespace Run

variable {α β : Type}

theorem bind_apply (run : Run α) (next : α → Run β) (world : World) :
    (run >>= next) world = match run world with
      | (.ok value, after) => next value after
      | (.error failure, after) => (.error failure, after) := by
  simp only [Bind.bind, ExceptT.bind, ExceptT.mk, StateT.bind, ExceptT.bindCont]
  rcases run world with ⟨_ | _, _⟩ <;> rfl

theorem onDisk_apply (operation : Disk → Except SystemFault α × Disk) (world : World) :
    Run.onDisk operation world =
      ((operation world.disk).1.mapError Failure.system,
        { world with disk := (operation world.disk).2 }) := by
  change (Run.ofExcept (operation world.disk).1 Failure.system : Run α) _ = _
  cases (operation world.disk).1 <;> rfl

theorem change_apply (operation : Disk → Disk) (world : World) :
    Run.change operation world = (.ok (), { world with disk := operation world.disk }) := rfl

theorem tryCatch_apply (run : Run α) (handler : Failure → Run α) (world : World) :
    tryCatch run handler world = match run world with
      | (.ok value, after) => (.ok value, after)
      | (.error failure, after) => handler failure after := by
  change (ExceptT.tryCatch run handler).run world = _
  simp only [ExceptT.tryCatch, ExceptT.run, ExceptT.mk, Bind.bind, StateT.bind]
  rcases run world with ⟨_ | _, _⟩ <;> rfl

theorem get_apply (world : World) : (get : Run World) world = (.ok world, world) := rfl

theorem throw_apply (failure : Failure) (world : World) :
    (throw failure : Run α) world = (.error failure, world) := rfl

end Run

/-! ## Temporary files -/

namespace Disk

variable {disk : Disk} {place : Place}

theorem put_put (place : Place) (first second : Node) (disk : Disk) :
    (disk.put place first).put place second = disk.put place second :=
  Table.put_put place first second disk

theorem extend_put (inner : place ≠ []) (content more : Bytes) (disk : Disk) :
    (disk.put place (.file content)).extend place more = disk.put place (.file (content ++ more)) := by
  rw [extend, node?_put_self inner]
  exact put_put place _ _ disk

/-- Taking a new file away gives the disk back. -/
theorem unlink_put (missing : disk.node? place = none) (node : Node) : (disk.put place node).unlink place = disk := by
  have inner := inner_of_missing missing
  rw [node?, if_neg (by simpa using inner)] at missing
  have others : ∀ entry ∈ disk, (entry.1 != place) = true := by
    intro entry mem
    rw [bne_iff_ne]
    rintro rfl
    exact Table.get?_eq_none_iff.mp missing (List.mem_map_of_mem mem)
  have gone : [(place, node)].filter (fun entry => entry.1 != place) = [] := by simp
  rw [unlink, put, Table.put_of_get?_eq_none missing, List.filter_append, List.filter_eq_self.mpr others, gone,
    List.append_nil]

/-- A new file that cannot be settled stays where it is. -/
theorem move_put (missing : disk.node? place = none) (path : Text) (content : Bytes) :
    (disk.put place (.file content)).move place path = match disk.settle path content with
      | (.ok (), after) => (.ok (), after)
      | (.error fault, _) => (.error fault, disk.put place (.file content)) := by
  rcases settled : disk.settle path content with ⟨_ | _, after⟩ <;>
    simp only [move, node?_put_self (inner_of_missing missing), unlink_put missing, settled]

end Disk

namespace Storage

/-- The bytes of pieces that come about one after the other, or the first failure among them. -/
def joined : List (Except Failure Bytes) → Except Failure Bytes
  | [] => .ok []
  | piece :: rest => do
      let bytes ← piece
      return bytes ++ (← joined rest)

/-- The bytes of pieces that are written one after the other. -/
def encodePieces : List Text → Except Failure Bytes
  | [] => .ok []
  | piece :: rest => do
      let bytes ← (Utf8.encodeEscaped piece).mapError Failure.encoding
      return bytes ++ (← encodePieces rest)

/-- The bytes of a JSON file. -/
def jsonBytes (value : Json) : Except Failure Bytes :=
  encodePieces (Json.prettyPieces value ++ ([("\n" : Text)] : List Text))

theorem joined_encoded (pieces : List Text) : joined (pieces.map encoded) = encodePieces pieces := by
  induction pieces with
  | nil => rfl
  | cons piece rest ih =>
      rw [List.map_cons, joined, ih]
      rfl

theorem joined_singleton (piece : Except Failure Bytes) : joined [piece] = piece := by
  cases piece with
  | error failure => rfl
  | ok bytes => exact congrArg Except.ok (List.append_nil bytes)

/-- Writes content that may fail to come about; then the target stays as it is. -/
def writeWhole (path : Text) (content : Except Failure Bytes) : Run Unit := do
  Run.onDisk (Disk.makeDirectories (Disk.directoryOf path))
  let content ← MonadExcept.ofExcept content
  Run.onDisk (Disk.settle path content)

end Storage

namespace Host

open Storage (joined writeWhole)

variable {host : Host} {world : World} {disk : Disk} {place : Place}

/-- A failure with which a host refuses some act. -/
def Refuses (host : Host) (failure : Failure) : Prop := ∃ act disk, host.refusal? act disk = some failure

/-- A host that refuses nothing. -/
def Free (host : Host) : Prop := ∀ act disk, host.refusal? act disk = none

theorem free_standard : standard.Free := fun _ _ => rfl

theorem Free.not_refuses (free : host.Free) (failure : Failure) : ¬ host.Refuses failure := by
  rintro ⟨act, disk, refused⟩
  cases (free act disk).symm.trans refused

/-- Asking for an act has no effect but the refusal. -/
theorem ask_cases (host : Host) (act : Act) (world : World) :
    host.refusal? act world.disk = none ∧ host.ask act world = (.ok (), world) ∨
      ∃ failure, host.Refuses failure ∧ host.ask act world = (.error failure, world) := by
  rw [ask, Run.bind_apply, Run.get_apply]
  dsimp only
  cases refused : host.refusal? act world.disk with
  | none => exact .inl ⟨rfl, rfl⟩
  | some failure => exact .inr ⟨failure, ⟨act, world.disk, refused⟩, rfl⟩

theorem Free.ask (free : host.Free) (act : Act) (world : World) : host.ask act world = (.ok (), world) := by
  rcases host.ask_cases act world with ⟨-, granted⟩ | ⟨failure, refuses, -⟩
  · exact granted
  · exact absurd refuses (free.not_refuses failure)

theorem makeLevels_cons (host : Host) (level : Text) (rest : List Text) (world : World) :
    host.makeLevels (level :: rest) world = (match world.disk.node? (Place.ofText level) with
      | some .directory => host.makeLevels rest
      | none => do
          host.ask (.makeDirectory level)
          Run.change (Disk.put (Place.ofText level) .directory)
          host.makeLevels rest
      | some (.file _) => Run.onDisk (Disk.makeLevels (level :: rest)) : Run Unit) world := by
  rw [makeLevels]
  rfl

/-- Where nothing is refused directories are made as on the disk. -/
theorem Free.makeLevels (free : host.Free) (levels : List Text) (world : World) :
    host.makeLevels levels world = Run.onDisk (Disk.makeLevels levels) world := by
  induction levels generalizing world with
  | nil => rfl
  | cons level rest ih =>
      rw [makeLevels_cons]
      have made := Disk.makeLevels.eq_def (level :: rest) world.disk
      rcases stands : world.disk.node? (Place.ofText level) with _ | _ | _ <;> simp only [stands] at made ⊢
      · simp only [Run.bind_apply, free.ask, Run.change_apply]
        rw [ih, Run.onDisk_apply, Run.onDisk_apply, made]
      · rw [ih, Run.onDisk_apply, Run.onDisk_apply, made]

/-- Directories are made up to the first that cannot be. When all are made they are made as on the disk. -/
theorem makeLevels_made (host : Host) (levels : List Text) (world : World) :
    ∃ result after, host.makeLevels levels world = (result, { world with disk := after }) ∧
      Disk.Made levels world.disk after ∧
      (result = .ok () → Disk.makeLevels levels world.disk = (.ok (), after)) ∧
      ∀ failure, result = .error failure → (∃ fault, failure = .system fault) ∨ host.Refuses failure := by
  induction levels generalizing world with
  | nil => exact ⟨.ok (), world.disk, rfl, .refl _ _, fun _ => rfl, fun _ failed => by cases failed⟩
  | cons level rest ih =>
      rw [makeLevels_cons]
      have alike := Disk.makeLevels.eq_def (level :: rest) world.disk
      rcases stands : world.disk.node? (Place.ofText level) with _ | _ | _ <;> simp only [stands] at alike ⊢
      · rw [Run.bind_apply]
        rcases host.ask_cases (.makeDirectory level) world with ⟨-, granted⟩ | ⟨failure, refuses, refused⟩
        · rw [granted, alike]
          obtain ⟨result, after, ran, made, whole, reason⟩ :=
            ih { world with disk := world.disk.put (Place.ofText level) .directory }
          exact ⟨result, after, ran, .put stands made, whole, reason⟩
        · rw [refused]
          exact ⟨_, world.disk, rfl, .refl _ _, nofun, fun _ failed => by cases failed; exact .inr refuses⟩
      · have made := Disk.made_makeLevels (level :: rest) world.disk
        rw [Run.onDisk_apply]
        refine ⟨_, _, rfl, made, fun done => ?_, fun failure failed => .inl ?_⟩
        · cases outcome : (Disk.makeLevels (level :: rest) world.disk).1 <;> rw [outcome] at done <;> cases done
          exact Prod.ext outcome rfl
        · cases outcome : (Disk.makeLevels (level :: rest) world.disk).1 <;> rw [outcome] at failed <;> cases failed
          exact ⟨_, rfl⟩
      · rw [alike]
        obtain ⟨result, after, ran, made, whole, reason⟩ := ih world
        exact ⟨result, after, ran, made.cons level, whole, reason⟩

/-- Streaming adds to the temporary file the bytes of the pieces, or of some of them before a failure. -/
theorem fill_cases (host : Host) (inner : place ≠ []) (pieces : List (Except Failure Bytes)) (world : World)
    (disk : Disk) (held : Bytes) :
    (∃ bytes, joined pieces = .ok bytes ∧
      host.fill place pieces { world with disk := disk.put place (.file held) } =
        (.ok (), { world with disk := disk.put place (.file (held ++ bytes)) })) ∨
    ∃ failure some, (joined pieces = .error failure ∨ host.Refuses failure) ∧
      host.fill place pieces { world with disk := disk.put place (.file held) } =
        (.error failure, { world with disk := disk.put place (.file some) }) := by
  -- what is held grows with every piece, while the disk around the temporary file stays the same
  induction pieces generalizing held with
  | nil =>
      rcases host.ask_cases .finish { world with disk := disk.put place (.file held) } with
        ⟨-, granted⟩ | ⟨failure, refuses, refused⟩
      · exact .inl ⟨[], rfl, by rw [fill, granted, List.append_nil]⟩
      · exact .inr ⟨failure, held, .inr refuses, refused⟩
  | cons piece rest ih =>
      cases piece with
      | error failure => exact .inr ⟨failure, held, .inl rfl, rfl⟩
      | ok more =>
          have streamed : host.fill place (.ok more :: rest) = (do
            host.ask (.write more)
            Run.change (Disk.extend place more)
            host.fill place rest) := rfl
          rw [streamed, Run.bind_apply]
          rcases host.ask_cases (.write more) { world with disk := disk.put place (.file held) } with
            ⟨-, granted⟩ | ⟨failure, refuses, refused⟩
          · rw [granted]
            simp only [Run.bind_apply, Run.change_apply, Disk.extend_put inner]
            rcases ih (held ++ more) with ⟨bytes, made, filled⟩ | ⟨failure, some, reason, filled⟩
            · refine .inl ⟨more ++ bytes, ?_, by rw [filled, List.append_assoc]⟩
              rw [joined, made]
              rfl
            · refine .inr ⟨failure, some, reason.imp_left fun broken => ?_, filled⟩
              rw [joined, broken]
              rfl
          · rw [refused]
            exact .inr ⟨failure, held, .inr refuses, rfl⟩

/-- Why a content is not written on a disk. -/
inductive Reason (host : Host) (path : Text) (content : Except Failure Bytes) (disk : Disk) : Failure → Prop where
  | content {failure : Failure} (broken : content = .error failure) : Reason host path content disk failure
  | system {bytes : Bytes} {fault : SystemFault} (made : content = .ok bytes)
      (refused : disk.settle path bytes = (.error fault, disk)) : Reason host path content disk (.system fault)
  | host {failure : Failure} (refuses : host.Refuses failure) : Reason host path content disk failure

/-- A temporary file is settled at the target, or it stands where it was when something goes wrong. -/
theorem deliver_cases (host : Host) (missing : disk.node? place = none) (path : Text)
    (pieces : List (Except Failure Bytes)) (world : World) :
    (∃ bytes after, joined pieces = .ok bytes ∧ disk.settle path bytes = (.ok (), after) ∧
      host.deliver place path pieces { world with disk := disk.put place (.file []) } =
        (.ok (), { world with disk := after })) ∨
    ∃ failure some, Reason host path (joined pieces) disk failure ∧
      host.deliver place path pieces { world with disk := disk.put place (.file []) } =
        (.error failure, { world with disk := disk.put place (.file some) }) := by
  rw [deliver, Run.bind_apply]
  rcases host.fill_cases (Disk.inner_of_missing missing) pieces world disk [] with
    ⟨bytes, made, filled⟩ | ⟨failure, some, reason, filled⟩ <;> rw [filled]
  · dsimp only
    rw [List.nil_append, Run.bind_apply]
    rcases host.ask_cases (.move path) { world with disk := disk.put place (.file bytes) } with
      ⟨-, granted⟩ | ⟨failure, refuses, refused⟩
    · rw [granted]
      dsimp only
      rw [Run.onDisk_apply, Disk.move_put missing]
      rcases Disk.settle_cases path bytes disk with ⟨fault, settled⟩ | ⟨-, settled⟩
      · rw [settled]
        exact .inr ⟨.system fault, bytes, .system made settled, rfl⟩
      · rw [settled]
        exact .inl ⟨bytes, _, made, settled, rfl⟩
    · rw [refused]
      exact .inr ⟨failure, bytes, .host refuses, rfl⟩
  · exact .inr ⟨failure, some, reason.elim .content .host, rfl⟩

/-- A temporary file has become the target, or it is gone. -/
theorem stream_cases (host : Host) (missing : disk.node? place = none) (path : Text)
    (pieces : List (Except Failure Bytes)) (world : World) :
    let streamed := tryCatch (host.deliver place path pieces) (fun failure => do
      Run.change (Disk.unlink place)
      throw failure) { world with disk := disk.put place (.file []) }
    (∃ bytes after, joined pieces = .ok bytes ∧ disk.settle path bytes = (.ok (), after) ∧
      streamed = (.ok (), { world with disk := after })) ∨
    ∃ failure, Reason host path (joined pieces) disk failure ∧
      streamed = (.error failure, { world with disk := disk }) := by
  intro streamed
  simp only [streamed, Run.tryCatch_apply]
  rcases host.deliver_cases missing path pieces world with
    ⟨bytes, after, made, settled, delivered⟩ | ⟨failure, some, reason, delivered⟩ <;> rw [delivered]
  · exact .inl ⟨bytes, after, made, settled, rfl⟩
  · refine .inr ⟨failure, reason, ?_⟩
    simp only [Run.bind_apply, Run.change_apply, Disk.unlink_put missing, Run.throw_apply]

/-- A write stops where directories are missing. Behind them it puts its content at the target, or it leaves the disk
alone. -/
theorem write_cases (host : Host) (path : Text) (pieces : List (Except Failure Bytes)) (world : World) :
    (∃ failure between, host.makeLevels (Disk.levels (Disk.directoryOf path)) world = (.error failure, between) ∧
      host.write path pieces world = (.error failure, between)) ∨
    ∃ between, host.makeLevels (Disk.levels (Disk.directoryOf path)) world = (.ok (), between) ∧
      ((∃ bytes after, joined pieces = .ok bytes ∧ between.disk.settle path bytes = (.ok (), after) ∧
          host.refusal? (.create (Disk.directoryOf path)) between.disk = none ∧
          host.write path pieces world = (.ok (), { between with disk := after })) ∨
        ∃ failure, Reason host path (joined pieces) between.disk failure ∧
          host.write path pieces world = (.error failure, between)) := by
  rw [write, Run.bind_apply]
  rcases made : host.makeLevels (Disk.levels (Disk.directoryOf path)) world with ⟨failure | _, between⟩
  · exact .inl ⟨failure, between, rfl, rfl⟩
  · refine .inr ⟨between, rfl, ?_⟩
    dsimp only
    rw [Run.bind_apply]
    rcases host.ask_cases (.create (Disk.directoryOf path)) between with
      ⟨create, granted⟩ | ⟨failure, refuses, refused⟩
    · rw [granted]
      rcases host.stream_cases (host.unused (Place.ofText (Disk.directoryOf path)) between.disk)
          path pieces between with
        ⟨bytes, after, whole, settled, wrote⟩ | failed
      · exact .inl ⟨bytes, after, whole, settled, create, wrote⟩
      · exact .inr failed
    · rw [refused]
      exact .inr ⟨failure, .host refuses, rfl⟩

variable {path : Text} {pieces : List (Except Failure Bytes)} {after : World}

theorem writeWhole_of_made {between : World}
    (made : Run.onDisk (Disk.makeDirectories (Disk.directoryOf path)) world = (.ok (), between))
    (content : Except Failure Bytes) : writeWhole path content world = (do
      let content ← MonadExcept.ofExcept content
      Run.onDisk (Disk.settle path content) : Run Unit) between := by
  rw [writeWhole, Run.bind_apply, made]

/-- A file that could be written was written in one step. -/
theorem write_ok (done : host.write path pieces world = (.ok (), after)) :
    writeWhole path (joined pieces) world = (.ok (), after) := by
  obtain ⟨result, disk, ran, -, whole, -⟩ := host.makeLevels_made (Disk.levels (Disk.directoryOf path)) world
  rcases host.write_cases path pieces world with
    ⟨failure, between, -, wrote⟩ |
      ⟨between, made, ⟨bytes, settled, content, moved, -, wrote⟩ | ⟨failure, -, wrote⟩⟩ <;>
    cases done.symm.trans wrote
  cases ran.symm.trans made
  have directories : Run.onDisk (Disk.makeDirectories (Disk.directoryOf path)) world =
      (.ok (), { world with disk := disk }) := by
    rw [Run.onDisk_apply, Disk.makeDirectories, whole rfl]
    rfl
  rw [writeWhole_of_made directories, content]
  change Run.onDisk (Disk.settle path bytes) { world with disk := disk } = _
  rw [Run.onDisk_apply, moved]
  rfl

/-- A write fails on its content, or the system or the host refuses it, and then only directories are new. -/
theorem write_error {failure : Failure} (failed : host.write path pieces world = (.error failure, after)) :
    Disk.Made (Disk.levels (Disk.directoryOf path)) world.disk after.disk ∧
      after = { world with disk := after.disk } ∧
      (joined pieces = .error failure ∨ (∃ fault, failure = .system fault) ∨ host.Refuses failure) := by
  obtain ⟨result, disk, ran, made, -, reason⟩ := host.makeLevels_made (Disk.levels (Disk.directoryOf path)) world
  rcases host.write_cases path pieces world with
    ⟨failure, between, stopped, wrote⟩ |
    ⟨between, ready, ⟨bytes, settled, content, moved, -, wrote⟩ | ⟨failure, why, wrote⟩⟩ <;>
    cases failed.symm.trans wrote
  · cases ran.symm.trans stopped
    exact ⟨made, rfl, .inr (reason _ rfl)⟩
  · cases ran.symm.trans ready
    refine ⟨made, rfl, ?_⟩
    cases why with
    | content broken => exact .inl broken
    | system => exact .inr (.inl ⟨_, rfl⟩)
    | host refuses => exact .inr (.inr refuses)

/-- Where nothing is refused a file is written in one step. -/
theorem Free.write_eq (free : host.Free) (path : Text) (pieces : List (Except Failure Bytes)) :
    host.write path pieces = writeWhole path (joined pieces) := by
  funext world
  have directories : Run.onDisk (Disk.makeDirectories (Disk.directoryOf path)) world =
      host.makeLevels (Disk.levels (Disk.directoryOf path)) world := (free.makeLevels _ world).symm
  rcases host.write_cases path pieces world with
    ⟨failure, between, made, wrote⟩ |
    ⟨between, made, ⟨bytes, after, content, settled, -, wrote⟩ | ⟨failure, reason, wrote⟩⟩ <;>
    rw [wrote]
  · rw [writeWhole, Run.bind_apply, directories, made]
  · rw [writeWhole_of_made (directories.trans made), content]
    change _ = Run.onDisk (Disk.settle path bytes) between
    rw [Run.onDisk_apply, settled]
    rfl
  · rw [writeWhole_of_made (directories.trans made)]
    cases reason with
    | content broken =>
        rw [broken]
        rfl
    | system content settled =>
        rename_i bytes fault
        rw [content]
        change _ = Run.onDisk (Disk.settle path bytes) between
        rw [Run.onDisk_apply, settled]
        rfl
    | host refuses => exact absurd refuses (free.not_refuses failure)

end Host

/-! What is written is written by the host of the world. -/

namespace Storage

variable {path : Text} {world after : World} {failure : Failure}

theorem onHost_apply (act : Host → Run Unit) (world : World) : onHost act world = act world.host world := rfl

theorem writeBytes_eq (free : world.host.Free) (path : Text) (content : Bytes) :
    writeBytes path content world = writeWhole path (.ok content) world := by
  rw [writeBytes, onHost_apply, Host.writeBytes, free.write_eq, joined_singleton]

theorem writeJson_eq (free : world.host.Free) (path : Text) (value : Json) :
    writeJson path value world = writeWhole path (jsonBytes value) world := by
  rw [writeJson, onHost_apply, Host.writeJson, free.write_eq, joined_encoded, jsonBytes]

theorem writeText_of_encoded {text : Text} {bytes : Bytes} (made : Utf8.encodeEscaped text = .ok bytes)
    (path : Text) : writeText path text = writeBytes path bytes := by
  have piece : encoded text = .ok bytes := by
    rw [encoded, made]
    rfl
  simp only [writeText, writeBytes, Host.writeText, Host.writeBytes, piece]

theorem writeBytes_ok {content : Bytes} (done : writeBytes path content world = (.ok (), after)) :
    writeWhole path (.ok content) world = (.ok (), after) := by
  rw [writeBytes, onHost_apply, Host.writeBytes] at done
  rw [← joined_singleton (.ok content)]
  exact Host.write_ok done

theorem writeText_ok {content : Text} (done : writeText path content world = (.ok (), after)) :
    writeWhole path (encoded content) world = (.ok (), after) := by
  rw [writeText, onHost_apply, Host.writeText] at done
  rw [← joined_singleton (encoded content)]
  exact Host.write_ok done

theorem writeJson_ok {value : Json} (done : writeJson path value world = (.ok (), after)) :
    writeWhole path (jsonBytes value) world = (.ok (), after) := by
  rw [writeJson, onHost_apply, Host.writeJson] at done
  rw [jsonBytes, ← joined_encoded]
  exact Host.write_ok done

/-- Bytes are not written only when the system or the host refuses. -/
theorem writeBytes_error {bytes : Bytes} (failed : writeBytes path bytes world = (.error failure, after)) :
    Disk.Made (Disk.levels (Disk.directoryOf path)) world.disk after.disk ∧
      ((∃ fault, failure = .system fault) ∨ world.host.Refuses failure) := by
  rw [writeBytes, onHost_apply, Host.writeBytes] at failed
  obtain ⟨made, -, broken | refused⟩ := Host.write_error failed
  · rw [joined_singleton] at broken
    cases broken
  · exact ⟨made, refused⟩

/-- A text that can be encoded is not written only when the system or the host refuses. -/
theorem writeText_error {text : Text} {bytes : Bytes} (encoded : Utf8.encodeEscaped text = .ok bytes)
    (failed : writeText path text world = (.error failure, after)) :
    Disk.Made (Disk.levels (Disk.directoryOf path)) world.disk after.disk ∧
      ((∃ fault, failure = .system fault) ∨ world.host.Refuses failure) :=
  writeBytes_error (writeText_of_encoded encoded path ▸ failed)

/-- JSON is not written only when a text in it cannot be encoded, or the system or the host refuses. -/
theorem writeJson_error {value : Json} (failed : writeJson path value world = (.error failure, after)) :
    Disk.Made (Disk.levels (Disk.directoryOf path)) world.disk after.disk ∧
      (jsonBytes value = .error failure ∨ (∃ fault, failure = .system fault) ∨ world.host.Refuses failure) := by
  rw [writeJson, onHost_apply, Host.writeJson] at failed
  obtain ⟨made, -, reason⟩ := Host.write_error failed
  rw [joined_encoded] at reason
  exact ⟨made, reason⟩

end Storage

end Rebundle
