import Rebundle.Proofs.Update.Sparing

/-!
# Work that keeps a file

Work starts from an update of which something is known and from some content of the file at one place.
However it ends, a failure must leave that content; what else is known at the end is said of the value,
the update and the content that was found. Work that keeps the file leaves the content in either case, so
it can be followed by more work.
-/

namespace Rebundle

namespace Work

variable {α β : Type} {place : Place} {before : Option Bytes}
  {pre mid : Update → Prop} {done : α → Update → Option Bytes → Prop}

theorem bind_apply (work : Work α) (next : α → Work β) (update : Update) (world : World) :
    (work >>= next) update world = match work update world with
      | ((.ok value, update), after) => next value update after
      | ((.error failure, update), after) => ((.error failure, update), after) := by
  simp only [Bind.bind, ExceptT.bind, ExceptT.mk, StateT.bind, ExceptT.bindCont]
  rcases work update world with ⟨⟨_ | _, _⟩, _⟩ <;> rfl

theorem ofRun_apply (run : Run α) (update : Update) (world : World) :
    ofRun run update world = match run world with
      | (result, after) => ((result, update), after) := rfl

theorem attempt_apply (work : Work α) (update : Update) (world : World) :
    attempt work update world = match work update world with
      | ((result, update), after) => ((.ok result, update), after) := rfl

/-- How work ended for the file at a place: a failure leaves the content that was there before. -/
def Ended (place : Place) (before : Option Bytes) (done : α → Update → Option Bytes → Prop) :
    (Except Failure α × Update) × World → Prop
  | ((.ok value, update), after) => done value update (after.disk.content? place)
  | ((.error _, _), after) => after.disk.content? place = before

/-- What work makes of the file at a place that has some content before. -/
def Meets (place : Place) (before : Option Bytes) (pre : Update → Prop) (work : Work α)
    (done : α → Update → Option Bytes → Prop) : Prop :=
  ∀ update world, pre update → world.disk.content? place = before →
    Ended place before done (work update world)

/-- Work that leaves the content of the file, and what it makes of the update. -/
def Keeps (place : Place) (before : Option Bytes) (pre : Update → Prop) (work : Work α)
    (post : α → Update → Prop) : Prop :=
  Meets place before pre work fun value update content => content = before ∧ post value update

theorem Ended.imp {done' : α → Update → Option Bytes → Prop}
    {outcome : (Except Failure α × Update) × World} (ended : Ended place before done outcome)
    (more : ∀ value update content, done value update content → done' value update content) :
    Ended place before done' outcome := by
  obtain ⟨⟨_ | value, update⟩, after⟩ := outcome
  · exact ended
  · exact more value update _ ended

/-- Work that has kept the file is followed by what starts where it ended. -/
theorem Ended.bind {work : Work α} {next : α → Work β} {post : α → Update → Prop}
    {done : β → Update → Option Bytes → Prop} {update : Update} {world : World}
    (first : Ended place before (fun value update content => content = before ∧ post value update)
      (work update world))
    (rest : ∀ value, Meets place before (post value) (next value) done) :
    Ended place before done ((work >>= next) update world) := by
  rw [bind_apply]
  rcases outcome : work update world with ⟨⟨_ | value, update'⟩, after⟩ <;> rw [outcome] at first
  · exact first
  · exact rest value update' after first.2 first.1

namespace Meets

theorem imp {work : Work α} (meets : Meets place before mid work done)
    (given : ∀ update, pre update → mid update) : Meets place before pre work done :=
  fun update world known => meets update world (given update known)

/-- What is known of an update may be used for all that follows. -/
theorem assume {work : Work α} {fact : Prop} (known : ∀ update, pre update → fact)
    (meets : fact → Meets place before pre work done) : Meets place before pre work done :=
  fun update world start => meets (known update start) update world start

theorem throw (failure : Failure) : Meets place before pre (throw failure : Work α) done :=
  fun _ _ _ same => same

theorem bind {work : Work α} {next : α → Work β} {post : α → Update → Prop}
    {done : β → Update → Option Bytes → Prop} (first : Keeps place before pre work post)
    (rest : ∀ value, Meets place before (post value) (next value) done) :
    Meets place before pre (work >>= next) done :=
  fun update world start same => (first update world start same).bind rest

/-- Looking at the update and going on from what is known of it. -/
theorem read {next : Update → Work α}
    (rest : ∀ seen, pre seen → Meets place before pre (next seen) done) :
    Meets place before pre (get >>= next) done :=
  fun update world start same => rest update start update world start same

end Meets

namespace Keeps

variable {post : α → Update → Prop}

theorem imp {work : Work α} {post' : α → Update → Prop} (keeps : Keeps place before mid work post')
    (given : ∀ update, pre update → mid update)
    (more : ∀ value update, post' value update → post value update) :
    Keeps place before pre work post :=
  fun update world known start => (keeps update world (given update known) start).imp
    fun value update _ => And.imp_right (more value update)

theorem pure (value : α) : Keeps place before pre (Pure.pure value : Work α) fun _ => pre :=
  fun _ _ start same => ⟨same, start⟩

theorem get (known : ∀ update, pre update → mid update) :
    Keeps place before pre (MonadState.get : Work Update) fun value update => value = update ∧ mid update :=
  fun update _ start same => ⟨same, rfl, known update start⟩

theorem modify {change : Update → Update} (known : ∀ update, pre update → mid (change update)) :
    Keeps place before pre (modify change : Work Unit) fun _ => mid :=
  fun update _ start same => ⟨same, known update start⟩

theorem ofRun {run : Run α} (spares : Run.Spares place run) :
    Keeps place before pre (Work.ofRun run) fun _ => pre := by
  intro update world start same
  have kept := (spares world).trans same
  rw [ofRun_apply]
  rcases outcome : run world with ⟨_ | value, after⟩ <;> rw [outcome] at kept
  · exact kept
  · exact ⟨kept, start⟩

theorem map {work : Work α} (keeps : Keeps place before pre work fun _ => mid) (f : α → β) :
    Keeps place before pre (f <$> work) fun _ => mid := by
  rw [map_eq_pure_bind]
  exact Meets.bind keeps fun value => Keeps.pure (f value)

theorem write (record : Log.Record) : Keeps place before pre (Work.write record) fun _ => pre :=
  .ofRun (.write record)

end Keeps

/-- Work that cannot fail and leaves the disk alone; it makes one change to the update. -/
def Passes (change : Update → Update) (work : Work α) : Prop :=
  ∀ update world, ∃ value after,
    work update world = ((.ok value, change update), after) ∧ after.disk = world.disk

namespace Passes

theorem pure (value : α) : Passes id (Pure.pure value : Work α) :=
  fun _ world => ⟨value, world, rfl, rfl⟩

theorem write (record : Log.Record) : Passes id (Work.write record) :=
  fun _ world => ⟨(), { world with log := world.log ++ [record] }, rfl, rfl⟩

theorem note (stage : Text) (members : List (Text × Datum)) :
    Passes (Update.note stage members) (Work.note stage members) :=
  fun _ world => ⟨(), world, rfl, rfl⟩

theorem get : Passes id (MonadState.get : Work Update) :=
  fun update world => ⟨update, world, rfl, rfl⟩

theorem bind {work : Work α} {next : α → Work β} {change : Update → Update} (first : Passes id work)
    (rest : ∀ value, Passes change (next value)) : Passes change (work >>= next) := by
  intro update world
  obtain ⟨value, between, outcome, same⟩ := first update world
  obtain ⟨value', after, outcome', same'⟩ := rest value update between
  exact ⟨value', after, by rw [bind_apply, outcome]; exact outcome', same'.trans same⟩

end Passes

/-- Work that has met its end also does so with more behind it that cannot fail. -/
theorem Ended.andThen {work : Work α} {next : α → Work β} {change : Update → Update}
    {done done' : Update → Option Bytes → Prop} {update : Update} {world : World}
    (first : Ended place before (fun _ => done) (work update world))
    (rest : ∀ value, Passes change (next value))
    (ends : ∀ update content, done update content → done' (change update) content) :
    Ended place before (fun _ => done') ((work >>= next) update world) := by
  rw [bind_apply]
  rcases outcome : work update world with ⟨⟨_ | value, update'⟩, after⟩ <;> rw [outcome] at first
  · exact first
  · obtain ⟨_, last, outcome', kept⟩ := rest value update' after
    have ended := ends update' _ first
    rw [← kept] at ended
    dsimp only
    rw [outcome']
    exact ended

theorem Meets.andThen {work : Work α} {next : α → Work β} {change : Update → Update}
    {done done' : Update → Option Bytes → Prop}
    (first : Meets place before pre work fun _ => done) (rest : ∀ value, Passes change (next value))
    (ends : ∀ update content, done update content → done' (change update) content) :
    Meets place before pre (work >>= next) fun _ => done' :=
  fun update world start same => (first update world start same).andThen rest ends

end Work

namespace Stage

variable {place : Place} {before : Option Bytes} {pre mid : Update → Prop} {stage : Stage}
  {done : Update → Option Bytes → Prop}

/-- Taking the time of a stage and naming its failure changes nothing else. -/
theorem ended_perform {update : Update} {world : World}
    (ended : Work.Ended place before (fun _ => done)
      (stage.work update { world with ticks := world.ticks + 1 })) :
    Work.Ended place before (fun _ => done) (stage.perform update world) := by
  have time (world : World) :
      Run.time world = (.ok world.ticks, { world with ticks := world.ticks + 1 }) := rfl
  simp only [perform, Work.bind_apply, Work.ofRun_apply, time, Work.attempt_apply]
  rcases outcome : stage.work update { world with ticks := world.ticks + 1 } with
    ⟨⟨failure | value, after⟩, later⟩ <;> rw [outcome] at ended
  · exact ended
  · exact ended

/-- The stages behind one that has kept the file start where it ended, unless all is up to date. -/
theorem ended_performAll {rest : List Stage} {update : Update} {world : World}
    (first : Work.Ended place before (fun _ update content => content = before ∧ mid update)
      (stage.work update { world with ticks := world.ticks + 1 }))
    (stop : ∀ update, mid update → update.isUpToDate = true → done update before)
    (later : Work.Meets place before (fun update => mid update ∧ update.isUpToDate = false)
      (performAll rest) fun _ => done) :
    Work.Ended place before (fun _ => done) (performAll (stage :: rest) update world) := by
  rw [performAll]
  refine .bind (ended_perform first) fun timing => ?_
  refine .bind (.get fun _ => id) fun seen => ?_
  refine .bind (.write _) fun _ => ?_
  split
  · rename_i current
    refine .bind (.write _) fun _ => ?_
    rintro update world ⟨rfl, known⟩ same
    exact same ▸ stop seen known current
  · rename_i outdated
    refine .andThen (later.imp ?_) (fun _ => .pure _) fun _ _ => id
    rintro update ⟨rfl, known⟩
    exact ⟨known, by simpa using outdated⟩

theorem meets_performAll {rest : List Stage}
    (first : Work.Keeps place before pre stage.work fun _ => mid)
    (stop : ∀ update, mid update → update.isUpToDate = true → done update before)
    (later : Work.Meets place before (fun update => mid update ∧ update.isUpToDate = false)
      (performAll rest) fun _ => done) :
    Work.Meets place before pre (performAll (stage :: rest)) fun _ => done :=
  fun update world start same =>
    ended_performAll (first update { world with ticks := world.ticks + 1 } start same) stop later

/-- The last stage ends the work. -/
theorem meets_performAll_last (last : Work.Meets place before pre stage.work fun _ => done) :
    Work.Meets place before pre (performAll [stage]) fun _ => done := by
  rw [performAll]
  have performed : Work.Meets place before pre stage.perform fun _ => done :=
    fun update world start same => ended_perform (last update _ start same)
  refine performed.andThen (fun timing => (?_ : Work.Passes id _)) fun _ _ => id
  refine .bind .get fun seen => .bind (.write _) fun _ => ?_
  split
  · exact .bind (.write _) fun _ => .pure _
  · exact .pure _

end Stage

end Rebundle
