import Rebundle.Proofs.Package.State
import Rebundle.Update.Stages

/-!
# Runs that spare a file

A run spares a place when it leaves the content of the file there alone, also when it fails. Runs that
only read, ask and report spare every place, and a file that is written is the only one that changes. The host
is the same behind every run.
-/

namespace Rebundle

namespace Run

variable {α β γ ε : Type} {seen : Host → Disk → γ} {place : Place}

/-- A run, failed or not, behind which the same is seen of the host and the disk. -/
def Keeps (seen : Host → Disk → γ) (run : Run α) : Prop :=
  ∀ world, seen (Prod.snd (run world)).host (Prod.snd (run world)).disk = seen world.host world.disk

/-- A run, failed or not, that leaves the content of the file at a place alone. -/
abbrev Spares (place : Place) (run : Run α) : Prop := Keeps (fun _ disk => disk.content? place) run

/-- A run that stays on its host. -/
abbrev Stays (run : Run α) : Prop := Keeps (fun host _ => host) run

namespace Keeps

theorem pure (value : α) : Keeps seen (Pure.pure value : Run α) := fun _ => rfl

theorem bind {run : Run α} {next : α → Run β} (first : Keeps seen run)
    (rest : ∀ value, Keeps seen (next value)) : Keeps seen (run >>= next) := by
  intro world
  have begun := first world
  rw [bind_apply]
  rcases outcome : run world with ⟨_ | value, after⟩
  · rw [outcome] at begun
    exact begun
  · rw [outcome] at begun
    exact (rest value after).trans begun

theorem ofExcept (result : Except ε α) (failure : ε → Failure) : Keeps seen (Run.ofExcept result failure) := by
  cases result <;> exact fun _ => rfl

theorem ofLogged (logged : Logged (Except Failure α)) : Keeps seen (Run.ofLogged logged) := by
  obtain ⟨_ | _, _⟩ := logged <;> exact fun _ => rfl

theorem write (record : Log.Record) : Keeps seen (Run.write record) := fun _ => rfl

theorem get : Keeps seen (MonadState.get : Run World) := fun _ => rfl

theorem attempt {run : Run α} (keeps : Keeps seen run) : Keeps seen (Run.attempt run) := keeps

theorem ask (question : Nat → Exchange α) : Keeps seen (Run.ask question) := by
  intro world
  change seen (Prod.snd ((MonadExcept.ofExcept (question world.questions).result : Run α) _)).host
    (Prod.snd ((MonadExcept.ofExcept (question world.questions).result : Run α) _)).disk = _
  cases (question world.questions).result <;> rfl

theorem onDisk {operation : Disk → Except SystemFault α × Disk}
    (keeps : ∀ host disk, seen host (operation disk).2 = seen host disk) :
    Keeps seen (Run.onDisk operation) := fun world => by
  rw [onDisk_apply]
  exact keeps world.host world.disk

end Keeps

/-- A run that only looks at the disk and its host: it leaves them alone, and its outcome depends on nothing else. -/
structure Reads (run : Run α) : Prop where
  disk : ∀ world, (Prod.snd (run world)).disk = world.disk
  host : ∀ world, (Prod.snd (run world)).host = world.host
  outcome : ∀ world other : World, world.disk = other.disk → world.host = other.host →
    Prod.fst (run world) = Prod.fst (run other)

namespace Reads

theorem keeps {run : Run α} (reads : Reads run) : Keeps seen run := fun world => by rw [reads.host, reads.disk]

theorem pure (value : α) : Reads (Pure.pure value : Run α) := ⟨fun _ => rfl, fun _ => rfl, fun _ _ _ _ => rfl⟩

theorem throw (failure : Failure) : Reads (throw failure : Run α) :=
  ⟨fun _ => rfl, fun _ => rfl, fun _ _ _ _ => rfl⟩

theorem ofExcept (result : Except ε α) (failure : ε → Failure) :
    Reads (Run.ofExcept result failure) := by
  cases result <;> exact ⟨fun _ => rfl, fun _ => rfl, fun _ _ _ _ => rfl⟩

theorem ofLogged (logged : Logged (Except Failure α)) : Reads (Run.ofLogged logged) := by
  obtain ⟨_ | _, _⟩ := logged <;> exact ⟨fun _ => rfl, fun _ => rfl, fun _ _ _ _ => rfl⟩

theorem write (record : Log.Record) : Reads (Run.write record) :=
  ⟨fun _ => rfl, fun _ => rfl, fun _ _ _ _ => rfl⟩

theorem bind {run : Run α} {next : α → Run β} (first : Reads run)
    (rest : ∀ value, Reads (next value)) : Reads (run >>= next) where
  disk world := by
    have begun := first.disk world
    rw [bind_apply]
    rcases outcome : run world with ⟨_ | value, after⟩ <;> rw [outcome] at begun
    · exact begun
    · exact ((rest value).disk after).trans begun
  host world := by
    have begun := first.host world
    rw [bind_apply]
    rcases outcome : run world with ⟨_ | value, after⟩ <;> rw [outcome] at begun
    · exact begun
    · exact ((rest value).host after).trans begun
  outcome world other disk host := by
    have begun := first.outcome world other disk host
    have here := And.intro (first.disk world) (first.host world)
    have there := And.intro (first.disk other) (first.host other)
    rw [bind_apply, bind_apply]
    rcases one : run world with ⟨_ | value, after⟩ <;>
      rcases two : run other with ⟨_ | value', after'⟩ <;>
      rw [one] at begun here <;> rw [two] at begun there <;> cases begun
    · rfl
    · exact (rest value).outcome after after' (here.1.trans (disk.trans there.1.symm))
        (here.2.trans (host.trans there.2.symm))

/-- Looking at the disk and its host and going on. -/
theorem look {next : World → Run α}
    (same : ∀ world other, world.disk = other.disk → world.host = other.host → next world = next other)
    (rest : ∀ world, Reads (next world)) : Reads (get >>= next) where
  disk world := (rest world).disk world
  host world := (rest world).host world
  outcome world other disk host := by
    change Prod.fst (next world world) = Prod.fst (next other other)
    rw [same world other disk host]
    exact (rest other).outcome world other disk host

end Reads

end Run

namespace Storage

variable {γ : Type} {seen : Host → Disk → γ} {place : Place}

theorem reads_readBytes (path : Text) : Run.Reads (readBytes path) :=
  .look (fun world other disk _ => by rw [disk]) fun _ => .ofExcept _ _

theorem reads_readText (path : Text) : Run.Reads (readText path) :=
  .bind (reads_readBytes path) fun _ => .pure _

theorem reads_noJson (path : FilePath) (why : Text) : Run.Reads (noJson path why) :=
  .bind (.write _) fun _ => .pure _

theorem reads_readJson (path : FilePath) : Run.Reads (readJson path) := by
  refine .look (fun world other disk host => by rw [disk, host]) fun world => ?_
  split
  · exact .bind (.write _) fun _ => .pure _
  · split
    · exact reads_noJson path _
    · refine .bind (.ofExcept _ _) fun text => ?_
      split
      · exact .pure _
      · exact reads_noJson path _
      · exact .throw _

/-- What the host of the world does keeps what it keeps on every host. -/
theorem keeps_onHost {act : Host → Run Unit} (keeps : ∀ host, Run.Keeps seen (act host)) :
    Run.Keeps seen (onHost act) := fun world => keeps world.host world

theorem keeps_ask (act : Act) : Run.Keeps seen (onHost (·.ask act)) :=
  keeps_onHost fun host world => by
    rcases host.ask_cases act world with ⟨-, granted⟩ | ⟨failure, -, refused⟩
    · rw [granted]
    · rw [refused]

/-- A file is written whole at its own place. -/
theorem spares_writeWhole {path : Text} (differ : place ≠ Place.ofText path)
    (content : Except Failure Bytes) : Run.Spares place (writeWhole path content) :=
  .bind (.onDisk fun _ disk => Disk.content?_makeDirectories _ disk place) fun _ =>
    .bind (by cases content <;> exact fun _ => rfl) fun bytes =>
      .onDisk fun _ disk => Disk.content?_settle_of_ne differ bytes disk

theorem stays_writeWhole (path : Text) (content : Except Failure Bytes) : Run.Stays (writeWhole path content) :=
  .bind (.onDisk fun _ _ => rfl) fun _ =>
    .bind (by cases content <;> exact fun _ => rfl) fun _ => .onDisk fun _ _ => rfl

/-- A host writes at one place, and elsewhere it only makes directories. -/
theorem spares_write (host : Host) {path : Text} (differ : place ≠ Place.ofText path)
    (pieces : List (Except Failure Bytes)) : Run.Spares place (host.write path pieces) := by
  intro world
  rcases wrote : host.write path pieces world with ⟨failure | _, after⟩
  · exact (Host.write_error wrote).1.content? place
  · have whole := spares_writeWhole differ (joined pieces) world
    rwa [Host.write_ok wrote] at whole

theorem stays_write (host : Host) (path : Text) (pieces : List (Except Failure Bytes)) :
    Run.Stays (host.write path pieces) := by
  intro world
  rcases wrote : host.write path pieces world with ⟨failure | _, after⟩
  · rw [(Host.write_error wrote).2.1]
  · have whole := stays_writeWhole path (joined pieces) world
    rwa [Host.write_ok wrote] at whole

theorem stays_writeBytes (path : Text) (content : Bytes) : Run.Stays (writeBytes path content) :=
  keeps_onHost fun host => stays_write host path _

theorem spares_writeBytes {path : Text} (differ : place ≠ Place.ofText path) (content : Bytes) :
    Run.Spares place (writeBytes path content) :=
  keeps_onHost fun host => spares_write host differ _

theorem spares_writeText {path : Text} (differ : place ≠ Place.ofText path) (content : Text) :
    Run.Spares place (writeText path content) :=
  keeps_onHost fun host => spares_write host differ _

theorem spares_writeJson {path : Text} (differ : place ≠ Place.ofText path) (value : Json) :
    Run.Spares place (writeJson path value) :=
  keeps_onHost fun host => spares_write host differ _

end Storage

namespace PackageState

theorem reads_load (path : FilePath) : Run.Reads (load path) :=
  .bind (Storage.reads_readJson path) fun _ => .ofLogged _

theorem named_of_load {path : FilePath} {world : World} {state : PackageState}
    (loaded : Prod.fst (load path world) = .ok state) : state.Named := by
  rw [load, Run.bind_apply] at loaded
  rcases outcome : Storage.readJson path world with ⟨_ | content, after⟩ <;> rw [outcome] at loaded
  · cases loaded
  · cases loaded
    exact named_ofContent path content

end PackageState

variable {γ : Type} {seen : Host → Disk → γ} {place : Place}

theorem Version.keeps_latest (url : Text) (script : Nat → Exchange Text) (fallback : Option Text) :
    Run.Keeps seen (latest url script fallback) :=
  .bind (.attempt (.ask script)) fun _ => .ofLogged _

theorem UpdateStage.keeps_verified (remote : Remote) (url : Text) (data : Bytes) :
    Run.Keeps seen (verified remote url data) :=
  .bind (.ask _) fun _ => .ofLogged _

/-- Taking out a bundle keeps what writing the bundle keeps. -/
theorem Extraction.keeps_ofFile {output : Text}
    (wrote : ∀ payload, Run.Keeps seen (Storage.writeBytes output payload))
    (input : Text) (markers : Markers) : Run.Keeps seen (ofFile input output markers) :=
  .bind (.write _) fun _ => .bind (Storage.reads_readBytes input).keeps fun _ =>
    .bind (.ofLogged _) fun _ => .bind (wrote _) fun _ => .bind (.write _) fun _ => .pure _

theorem Extraction.spares_ofFile {output : Text} (differ : place ≠ Place.ofText output)
    (input : Text) (markers : Markers) : Run.Spares place (ofFile input output markers) :=
  keeps_ofFile (Storage.spares_writeBytes differ) input markers

theorem Patcher.spares_patchFile (patcher : Patcher) {output : Text}
    (differ : place ≠ Place.ofText output) (input : Text) (config : PatchConfig) :
    Run.Spares place (patcher.patchFile input output config) :=
  .bind (.write _) fun _ => .bind (Storage.reads_readText input).keeps fun _ =>
    .bind (Storage.keeps_ask _) fun _ => .bind (.ofLogged _) fun _ =>
      .bind (Storage.spares_writeText differ _) fun _ => .bind (.write _) fun _ => .pure _

/-- A package is written below its directory. -/
theorem Package.spares_write {directory : FilePath}
    (main : place ≠ Place.ofText (directory.child mainName).text)
    (manifest : place ≠ Place.ofText (directory.child "package.json").text) (code : Text)
    (state : PackageState) (version : Text) (dependencies : Table Text Text) :
    Run.Spares place (write directory code state version dependencies) :=
  .bind (.onDisk fun _ disk => Disk.content?_ensureDirectory directory disk place) fun _ =>
    .bind (Storage.spares_writeText main _) fun _ =>
      .bind (Storage.spares_writeJson manifest _) fun _ => .bind (.write _) fun _ => .pure _

end Rebundle
