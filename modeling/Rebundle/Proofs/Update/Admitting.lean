import Rebundle.Proofs.Update.Triple

/-!
# What work may leave at a place

Work admits some contents at a place when, failed or not, it leaves the file there as it was or with such a
content, and keeps the options of the update. The stages behind the download admit nothing but an empty place
where the binary was, unless the state is saved there.
-/

namespace Rebundle

namespace UpdateOptions

end UpdateOptions

namespace Work

variable {α β : Type} {place : Place} {options : UpdateOptions} {allowed : Option Bytes → Prop}

/-- What work leaves that admits some contents at a place, and the options that it keeps. -/
structure Admitted (place : Place) (options : UpdateOptions) (allowed : Option Bytes → Prop)
    (before : Option Bytes) (last : Update) (after : World) : Prop where
  options : last.options = options
  content : after.disk.content? place = before ∨ allowed (after.disk.content? place)

/-- Work that puts allowed contents only at a place. -/
def Admits (place : Place) (options : UpdateOptions) (allowed : Option Bytes → Prop) (work : Work α) : Prop :=
  ∀ update world, update.options = options →
    Admitted place options allowed (world.disk.content? place) (Prod.snd (Prod.fst (work update world)))
      (Prod.snd (work update world))

/-- Work that has admitted allowed contents only is followed by what does so, too. -/
theorem Admitted.bind {work : Work α} {next : α → Work β} {update : Update} {world : World}
    (first : Admitted place options allowed (world.disk.content? place) (Prod.snd (Prod.fst (work update world)))
      (Prod.snd (work update world)))
    (rest : ∀ value, Admits place options allowed (next value)) :
    Admitted place options allowed (world.disk.content? place)
      (Prod.snd (Prod.fst ((work >>= next) update world))) (Prod.snd ((work >>= next) update world)) := by
  rw [bind_apply]
  rcases outcome : work update world with ⟨⟨_ | value, passed⟩, between⟩ <;> rw [outcome] at first
  · exact first
  · have ended := rest value passed between first.options
    refine ⟨ended.options, ?_⟩
    rcases ended.content with same | content
    · rw [same]
      exact first.content
    · exact .inr content

/-- Taking the time moves the clock and nothing else. -/
theorem Admitted.timed {next : Nat → Work α} {update : Update} {world : World}
    (rest : Admitted place options allowed (world.disk.content? place)
      (Prod.snd (Prod.fst (next world.ticks update { world with ticks := world.ticks + 1 })))
      (Prod.snd (next world.ticks update { world with ticks := world.ticks + 1 }))) :
    Admitted place options allowed (world.disk.content? place)
      (Prod.snd (Prod.fst ((ofRun Run.time >>= next) update world)))
      (Prod.snd ((ofRun Run.time >>= next) update world)) :=
  rest

namespace Admits

theorem pure (value : α) : Admits place options allowed (Pure.pure value : Work α) :=
  fun _ _ same => ⟨same, .inl rfl⟩

theorem throw (failure : Failure) : Admits place options allowed (throw failure : Work α) :=
  fun _ _ same => ⟨same, .inl rfl⟩

theorem bind {work : Work α} {next : α → Work β} (first : Admits place options allowed work)
    (rest : ∀ value, Admits place options allowed (next value)) : Admits place options allowed (work >>= next) :=
  fun update world same => (first update world same).bind rest

/-- Looking at the update and going on. -/
theorem read {next : Update → Work α}
    (rest : ∀ seen, seen.options = options → Admits place options allowed (next seen)) :
    Admits place options allowed (get >>= next) :=
  fun update world same => rest update same update world same

theorem modify {change : Update → Update} (keeps : ∀ update, (change update).options = update.options) :
    Admits place options allowed (modify change : Work Unit) :=
  fun update _ same => ⟨(keeps update).trans same, .inl rfl⟩

theorem ofRun {run : Run α} (spares : Run.Spares place run) : Admits place options allowed (ofRun run) :=
  fun _ world same => ⟨same, .inl (spares world)⟩

theorem write (record : Log.Record) : Admits place options allowed (Work.write record) := .ofRun (.write record)

theorem note (stage : Text) (members : List (Text × Datum)) : Admits place options allowed (Work.note stage members) :=
  .modify fun _ => rfl

theorem removeTree (path : FilePath) (none : allowed Option.none) :
    Admits place options allowed (Work.ofRun (Run.onDisk (Disk.removeTree path))) := by
  intro update world same
  refine ⟨same, ?_⟩
  rw [ofRun_apply, Run.onDisk_apply]
  dsimp only
  rw [Disk.content?_removeTree]
  split
  · exact .inr none
  · exact .inl rfl

end Admits

end Work

namespace Stage

open Work (Admits)

variable {place : Place} {options : UpdateOptions} {allowed : Option Bytes → Prop} {stage : Stage}

end Stage

namespace UpdateStage

open Work (Admits)

variable {options : UpdateOptions} {allowed : Option Bytes → Prop}

end UpdateStage

end Rebundle
