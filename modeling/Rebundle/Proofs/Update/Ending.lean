import Rebundle.Proofs.Package.Loading
import Rebundle.Proofs.Update.Completion

/-!
# How stages end

Stages end at the first one that fails, and at one that finds the package up to date. Taking the time and
telling what has happened is idle: it leaves the disk and the remote alone. The first stage loads the state,
which is idle too, asks the remote once, and compares.
-/

namespace Rebundle

/-- Nothing but records was added and time went by, and nothing was requested. -/
structure World.Idle (world after : World) : Prop extends World.Still world after where
  requests : after.requests = world.requests

namespace World.Idle

variable {world between after : World}

theorem refl (world : World) : Idle world world := ⟨.refl world, rfl⟩

theorem trans (first : Idle world between) (second : Idle between after) : Idle world after :=
  ⟨first.toStill.trans second.toStill, second.requests.trans first.requests⟩

end World.Idle

namespace Run

variable {α β ε : Type}

/-- A run, failed or not, that leaves the disk and the remote alone. -/
def Idles (run : Run α) : Prop := ∀ world, World.Idle world (Prod.snd (run world))

namespace Idles

theorem pure (value : α) : Idles (Pure.pure value : Run α) := fun world => .refl world

theorem throw (failure : Failure) : Idles (throw failure : Run α) := fun world => .refl world

theorem write (record : Log.Record) : Idles (Run.write record) := fun _ => ⟨⟨rfl, rfl, rfl⟩, rfl⟩

theorem ofExcept (result : Except ε α) (failure : ε → Failure) : Idles (Run.ofExcept result failure) := by
  intro world
  cases result <;> exact .refl world

theorem ofLogged (logged : Logged (Except Failure α)) : Idles (Run.ofLogged logged) := by
  intro world
  obtain ⟨_ | _, log⟩ := logged <;> exact ⟨⟨rfl, rfl, rfl⟩, rfl⟩

theorem bind {run : Run α} {next : α → Run β} (first : Idles run) (rest : ∀ value, Idles (next value)) :
    Idles (run >>= next) := by
  intro world
  have begun := first world
  rw [bind_apply]
  rcases outcome : run world with ⟨_ | value, between⟩ <;> rw [outcome] at begun
  · exact begun
  · exact begun.trans (rest value between)

theorem look {next : World → Run α} (rest : ∀ world, Idles (next world)) : Idles (get >>= next) :=
  fun world => rest world world

end Idles

end Run

/-- Looking for a state is idle. -/
theorem PackageState.idles_load (path : FilePath) : Run.Idles (load path) := by
  refine .bind (.look fun world => ?_) fun content => .ofLogged _
  split
  · exact .bind (.write _) fun _ => .pure _
  · split
    · exact .bind (.write _) fun _ => .pure _
    · refine .bind (.ofExcept _ _) fun text => ?_
      split
      · exact .pure _
      · exact .bind (.write _) fun _ => .pure _
      · exact .throw _

namespace Work

theorem write_apply (record : Log.Record) (update : Update) (world : World) :
    write record update world = ((.ok (), update), { world with log := world.log ++ [record] }) := rfl

theorem get_apply (update : Update) (world : World) :
    (get : Work Update) update world = ((.ok update, update), world) := rfl

end Work

namespace Stage

variable {stage : Stage} {update passed : Update} {world ended : World}

/-- A stage that did its work is performed. -/
theorem perform_of_ok (worked : stage.work update { world with ticks := world.ticks + 1 } = ((.ok (), passed), ended)) :
    ∃ seconds after, stage.perform update world = ((.ok ⟨stage.name, seconds⟩, passed), after) ∧
      World.Idle ended after := by
  have time (world : World) :
      Run.time world = (.ok world.ticks, { world with ticks := world.ticks + 1 }) := rfl
  refine ⟨Timing.secondsOf (ended.ticks - world.ticks), { ended with ticks := ended.ticks + 1 }, ?_,
    ⟨rfl, rfl, rfl⟩, rfl⟩
  simp only [perform, Work.bind_apply, Work.ofRun_apply, time, Work.attempt_apply, worked]
  rfl

/-- The failure of a stage is the failure of all stages, whatever stages would follow. -/
theorem performAll_of_error (stage : Stage) {failure : Failure}
    (worked : stage.work update { world with ticks := world.ticks + 1 } = ((.error failure, passed), ended)) :
    ∃ after, World.Idle ended after ∧
      ∀ rest, performAll (stage :: rest) update world = ((.error (stage.failed failure).1, passed), after) := by
  have time (world : World) :
      Run.time world = (.ok world.ticks, { world with ticks := world.ticks + 1 }) := rfl
  refine ⟨{ ended with log := ended.log ++ (stage.failed failure).2 }, ⟨⟨rfl, rfl, rfl⟩, rfl⟩,
    fun rest => ?_⟩
  rw [performAll, Work.bind_apply]
  simp only [perform, Work.bind_apply, Work.ofRun_apply, time, Work.attempt_apply, worked]
  rfl

/-- A stage that finds the package up to date is the last one, whatever stages would follow. -/
theorem performAll_of_current (stage : Stage)
    (worked : stage.work update { world with ticks := world.ticks + 1 } = ((.ok (), passed), ended))
    (current : passed.isUpToDate = true) :
    ∃ seconds after, World.Idle ended after ∧
      ∀ rest, performAll (stage :: rest) update world = ((.ok [⟨stage.name, seconds⟩], passed), after) := by
  obtain ⟨seconds, between, performed, idle⟩ := perform_of_ok worked
  let record := completed ⟨stage.name, seconds⟩ (passed.notes.get? stage.name)
  let found := Log.info ("version " ++ passed.version ++ " is already packaged, nothing to do")
  refine ⟨seconds, { between with log := between.log ++ [record] ++ [found] },
    idle.trans ⟨⟨rfl, rfl, rfl⟩, rfl⟩, fun rest => ?_⟩
  rw [performAll, Work.bind_apply, performed]
  simp only [Work.bind_apply, Work.get_apply, Work.write_apply, current, if_true]
  rfl

/-- The end of stages behind one that took some time. -/
def followed (timing : Timing) : (Except Failure (List Timing) × Update) × World →
    (Except Failure (List Timing) × Update) × World
  | ((.ok timings, last), after) => ((.ok (timing :: timings), last), after)
  | ((.error failure, last), after) => ((.error failure, last), after)

/-- A stage that leaves the update due is followed by the others. -/
theorem performAll_of_due (stage : Stage)
    (worked : stage.work update { world with ticks := world.ticks + 1 } = ((.ok (), passed), ended))
    (due : passed.isUpToDate = false) :
    ∃ seconds later, World.Idle ended later ∧
      ∀ rest, performAll (stage :: rest) update world =
        followed ⟨stage.name, seconds⟩ (performAll rest passed later) := by
  obtain ⟨seconds, between, performed, idle⟩ := perform_of_ok worked
  let record := completed ⟨stage.name, seconds⟩ (passed.notes.get? stage.name)
  refine ⟨seconds, { between with log := between.log ++ [record] }, idle.trans ⟨⟨rfl, rfl, rfl⟩, rfl⟩,
    fun rest => ?_⟩
  rw [performAll, Work.bind_apply, performed]
  simp only [Work.bind_apply, Work.get_apply, Work.write_apply, due, Bool.false_eq_true, if_false]
  rcases performAll rest passed { between with log := between.log ++ [record] } with
    ⟨⟨_ | timings, last⟩, after⟩ <;>
    rfl

/-- Every failure of a stage is told with a stage. -/
theorem failed_stage (stage : Stage) (failure : Failure) :
    ∃ name cause, (stage.failed failure).1 = .stage name cause := by
  cases failure <;> exact ⟨_, _, rfl⟩

theorem performAll_error {stages : List Stage} {failure : Failure}
    (ran : performAll stages update world = ((.error failure, passed), ended)) :
    ∃ name cause, failure = .stage name cause := by
  induction stages generalizing update world with
  | nil => cases ran
  | cons stage rest ih =>
      rcases worked : stage.work update { world with ticks := world.ticks + 1 } with
        ⟨⟨failing | _, between⟩, later⟩
      · obtain ⟨after, -, ran'⟩ := performAll_of_error stage worked
        cases (ran' rest).symm.trans ran
        exact stage.failed_stage failing
      · cases current : between.isUpToDate with
        | true =>
            obtain ⟨seconds, after, -, ran'⟩ := performAll_of_current stage worked current
            cases (ran' rest).symm.trans ran
        | false =>
            obtain ⟨seconds, last, -, ran'⟩ := performAll_of_due stage worked current
            rw [ran'] at ran
            rcases outcome : performAll rest between last with ⟨⟨_ | _, _⟩, _⟩ <;>
              rw [outcome] at ran <;> cases ran
            exact ih outcome

end Stage

namespace Version

/-- The version that a remote announces, or the fallback for it. -/
def told (options : UpdateOptions) (remote : Remote) (questions : Nat) : Except Failure Text :=
  (settle options.fallback (ofScript options.scriptUrl (remote.text options.scriptUrl questions).result)).value

/-- The version that a script announces needs no fallback. -/
theorem told_of_announced {options : UpdateOptions} {remote : Remote} {questions : Nat} {script version : Text}
    (answered : (remote.text options.scriptUrl questions).result = .ok script)
    (announced : announced? script = some version) : told options remote questions = .ok version := by
  rw [told, answered, ofScript]
  simp only [Bind.bind, Except.bind, announced]
  rfl

theorem latest_apply (options : UpdateOptions) (remote : Remote) (world : World) :
    ∃ after, latest options.scriptUrl (remote.text options.scriptUrl) options.fallback world =
        (told options remote world.questions, after) ∧
      after.disk = world.disk ∧ after.questions = world.questions + 1 ∧
      after.requests = world.requests ++ (remote.text options.scriptUrl world.questions).requests := by
  have attempted (run : Run Text) : Run.attempt run world = (.ok (Prod.fst (run world)), Prod.snd (run world)) := rfl
  rw [latest, Run.bind_apply, attempted, Run.ask_apply]
  dsimp only
  rw [Run.ofLogged_apply]
  exact ⟨_, rfl, rfl, rfl, rfl⟩

end Version

namespace Update

/-- An update that has found a state and a version. -/
def resolved (options : UpdateOptions) (remote : Remote) (loaded : PackageState) (version : Text) : Update :=
  let current := !loaded.version.isEmpty && loaded.version == version
  { start options remote with state := loaded, version, isUpToDate := current }.note "resolve_version"
    [("version", .text version), ("previous", .text loaded.version), ("up_to_date", .bool current)]

theorem resolved_current {options : UpdateOptions} {remote : Remote} {loaded : PackageState} {version : Text}
    (known : version ≠ []) :
    (resolved options remote loaded version).isUpToDate = true ↔ loaded.version = version := by
  simp only [resolved, note, Bool.and_eq_true, Bool.not_eq_true', beq_iff_eq, List.isEmpty_eq_false_iff]
  exact ⟨And.right, fun same => ⟨same ▸ known, same⟩⟩

end Update

namespace UpdateStage

variable {options : UpdateOptions} {world : World}

/-- Nothing is asked when the state cannot be loaded. -/
theorem resolveVersion_unread (remote : Remote) {failure : Failure}
    (unread : Prod.fst (PackageState.load options.statePath world) = .error failure) :
    ∃ after, resolveVersion (Update.start options remote) world =
        ((.error failure, Update.start options remote), after) ∧ World.Idle world after := by
  have idle := PackageState.idles_load options.statePath world
  have read : resolveVersion (Update.start options remote) world = _ := rfl
  rcases outcome : PackageState.load options.statePath world with ⟨result, after⟩
  rw [outcome] at unread idle
  dsimp only at unread idle
  subst unread
  refine ⟨after, ?_, idle⟩
  change (Work.ofRun (PackageState.load options.statePath) >>= _) (Update.start options remote) world = _
  rw [Work.bind_apply, Work.ofRun_apply, outcome]

/-- The first stage has an outcome that only the loaded state and the announced version decide. -/
theorem resolveVersion_loaded (remote : Remote) {loaded : PackageState}
    (found : Prod.fst (PackageState.load options.statePath world) = .ok loaded) :
    ∃ last after, resolveVersion (Update.start options remote) world =
        (((Version.told options remote world.questions).map fun _ => (), last), after) ∧
      (∀ version, Version.told options remote world.questions = .ok version →
        last = Update.resolved options remote loaded version) ∧
      after.disk = world.disk ∧ after.questions = world.questions + 1 ∧
      after.requests = world.requests ++ (remote.text options.scriptUrl world.questions).requests := by
  have idle := PackageState.idles_load options.statePath world
  rcases outcome : PackageState.load options.statePath world with ⟨result, between⟩
  rw [outcome] at found idle
  dsimp only at found idle
  subst found
  obtain ⟨after, asked, disk, questions, requests⟩ := Version.latest_apply options remote between
  rw [idle.questions] at asked questions requests
  rw [idle.disk] at disk
  rw [idle.requests] at requests
  have ran : resolveVersion (Update.start options remote) world = (do
      let version ← Work.ofRun (Version.latest options.scriptUrl (remote.text options.scriptUrl) options.fallback)
      modify fun update => { update with
        version, isUpToDate := !loaded.version.isEmpty && loaded.version == version }
      Work.note "resolve_version" [("version", .text version), ("previous", .text loaded.version),
        ("up_to_date", .bool (!loaded.version.isEmpty && loaded.version == version))] : Work Unit)
      { Update.start options remote with state := loaded } between := by
    change (Work.ofRun (PackageState.load options.statePath) >>= _) (Update.start options remote) world = _
    rw [Work.bind_apply, Work.ofRun_apply, outcome]
    rfl
  rw [ran, Work.bind_apply, Work.ofRun_apply, asked]
  cases Version.told options remote world.questions with
  | error failure => exact ⟨_, after, rfl, (fun _ known => by cases known), disk, questions, requests⟩
  | ok version => exact ⟨_, after, rfl, (fun _ known => by cases known; rfl), disk, questions, requests⟩

end UpdateStage

namespace Registry

variable {update last : Update} {world ended : World}

theorem update_of_error {registry : Registry} {failure : Failure}
    (ran : registry.run [] [] update world = ((.error failure, last), ended)) :
    registry.update update world = ((.error failure, last), ended) := by
  rw [Registry.update, Work.bind_apply, ran]

/-- Nothing more happens when an update is up to date. -/
theorem update_of_current {registry : Registry} {timings : List Timing}
    (ran : registry.run [] [] update world = ((.ok timings, last), ended)) (current : last.isUpToDate = true) :
    ∃ after, registry.update update world = ((.ok (), last), after) ∧ World.Idle ended after := by
  rw [Registry.update, Work.bind_apply, ran]
  simp only [Work.bind_apply, Work.get_apply, Work.write_apply, current]
  exact ⟨_, rfl, ⟨rfl, rfl, rfl⟩, rfl⟩

/-- An update fails only in a stage. -/
theorem update_error {registry : Registry} {failure : Failure}
    (failed : registry.update update world = ((.error failure, last), ended)) :
    ∃ name cause, failure = .stage name cause := by
  rw [Registry.update, Work.bind_apply] at failed
  rcases ran : registry.run [] [] update world with ⟨⟨_ | timings, passed⟩, between⟩ <;> rw [ran] at failed
  · cases failed
    exact Stage.performAll_error ran
  · simp only [Work.bind_apply, Work.get_apply, Work.write_apply] at failed
    split at failed <;> cases failed

end Registry

/-! The first stage decides whether an update is due. -/

namespace Stage

/-- The stage that finds out the version. -/
def first : Stage := ⟨"resolve_version", 10, UpdateStage.resolveVersion⟩

variable {options : UpdateOptions} {remote : Remote} {world : World} {loaded : PackageState} {version : Text}

/-- Without a state the stages fail before anything is asked. -/
theorem performAll_unread (remote : Remote) (rest : List Stage) {failure : Failure}
    (unread : Prod.fst (PackageState.load options.statePath world) = .error failure) :
    ∃ after, performAll (first :: rest) (Update.start options remote) world =
      ((.error (first.failed failure).1, Update.start options remote), after) ∧ World.Idle world after := by
  have unread' := ((PackageState.reads_load options.statePath).outcome { world with ticks := world.ticks + 1 } world
    rfl rfl).trans unread
  obtain ⟨ended, worked, idle⟩ := UpdateStage.resolveVersion_unread remote unread'
  obtain ⟨after, idle', ran⟩ := performAll_of_error first worked
  have start : World.Idle world { world with ticks := world.ticks + 1 } := ⟨⟨rfl, rfl, rfl⟩, rfl⟩
  exact ⟨after, ran rest, start.trans (idle.trans idle')⟩

/-- The stages end at once when the version is the one that is remembered. -/
theorem performAll_current (rest : List Stage)
    (found : Prod.fst (PackageState.load options.statePath world) = .ok loaded)
    (told : Version.told options remote world.questions = .ok version)
    (current : (Update.resolved options remote loaded version).isUpToDate = true) :
    ∃ seconds after, performAll (first :: rest) (Update.start options remote) world =
        ((.ok [⟨"resolve_version", seconds⟩], Update.resolved options remote loaded version), after) ∧
      after.disk = world.disk ∧ after.questions = world.questions + 1 ∧
      after.requests = world.requests ++ (remote.text options.scriptUrl world.questions).requests := by
  have found' := ((PackageState.reads_load options.statePath).outcome { world with ticks := world.ticks + 1 } world
    rfl rfl).trans found
  obtain ⟨last, ended, worked, resolved, disk, questions, requests⟩ :=
    UpdateStage.resolveVersion_loaded remote found'
  rw [resolved _ told, told] at worked
  obtain ⟨seconds, after, idle, ran⟩ := performAll_of_current first worked current
  exact ⟨seconds, after, ran rest, idle.disk.trans disk, idle.questions.trans questions,
    idle.requests.trans requests⟩

end Stage

/-- All stages are run, the first one first. -/
theorem Registry.run_first : standard.run [] [] = Stage.performAll (Stage.first :: standard.stages.tail) := by
  rw [run_all, stages_standard]
  rfl

end Rebundle
