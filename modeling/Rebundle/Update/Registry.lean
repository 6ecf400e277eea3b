import Rebundle.Number.Shortest
import Rebundle.Text.Blank
import Rebundle.Update.Basic

/-!
# Registries of stages

A registry knows stages by their names. They are run by their place in the order, and by name where
two have the same place; a run ends at the first stage that fails, or that finds the package up to
date. Some stages may be skipped, or only some be run.
-/

namespace Rebundle

/-- How long a stage took, in seconds. -/
structure Timing where
  stage : Text
  seconds : Binary64

namespace Timing

/-- The seconds that ticks of the clock take; a tick is an eighth of a second. -/
def secondsOf (ticks : Nat) : Binary64 := Binary64.ofRatio false ticks 8

/-- The text with blanks behind it, up to a width. -/
def fill (width : Nat) (t : Text) : Text := t ++ List.replicate (width - t.length) (' ' : CodePoint)

/-- One line of a table. -/
def row (width : Nat) (timing : Timing) : Text :=
  fill width timing.stage ++ "  " ++ timing.seconds.thousandths ++ "s"

/-- A table of timings, with a head; nothing when there are none. -/
def table : List Timing → Text
  | [] => []
  | timings =>
      let width := (timings.map fun timing => timing.stage.length).foldl max 0
      Text.join "\n" ((fill width "Pass" ++ "  Duration") :: timings.map (row width))

end Timing

structure Stage where
  name : Text
  place : Int
  work : Work Unit

namespace Stage

/-- Whether a stage is run before another. -/
def precedes (a b : Stage) : Bool :=
  a.place < b.place || (a.place == b.place && Text.precedes a.name b.name)

/-- What the note of a stage adds to the record of its end. -/
def remarks (note : Json) : List Text :=
  let shown (key : String) : Option Text :=
    match note.member? key with
    | none | some .null | some (.string []) => none
    | some v => some (key ++ "=" ++ v.plainText)
  let warnings : Option Text :=
    match note.member? "warnings" with
    | some (.array (first :: rest)) => some ("warnings=" ++ Text.ofNat (first :: rest).length)
    | _ => none
  ["version", "bytes", "status", "edits"].filterMap shown ++ warnings.toList

/-- The record of the end of a stage. -/
def completed (timing : Timing) (note? : Option Json) : Log.Record :=
  let remarks := (note?.map remarks).getD []
  let suffix : Text := if remarks.isEmpty then [] else " (" ++ Text.join ", " remarks ++ ")"
  Log.info <| "pass " ++ timing.stage ++ " completed in " ++ timing.seconds.thousandths ++ "s" ++ suffix

/-- A failure as the failure of a stage; one that is known to be of a stage stays as it is. -/
def failed (stage : Stage) : Failure → Failure × Log
  | .stage name cause => (.stage name cause, [])
  | failure =>
      (.stage stage.name failure,
        [Log.error ("pass " ++ stage.name ++ " failed: " ++ failure.message)])

/-- Does the work of a stage and takes its time. -/
def perform (stage : Stage) : Work Timing := do
  let start ← Work.ofRun Run.time
  match ← Work.attempt stage.work with
  | .error failure =>
      let (failure, log) := stage.failed failure
      Work.ofRun (Run.ofLogged ⟨.error failure, log⟩)
  | .ok () =>
      let stop ← Work.ofRun Run.time
      return ⟨stage.name, Timing.secondsOf (stop - start)⟩

/-- Performs stages one after the other, and gives the timings of those that were performed. -/
def performAll : List Stage → Work (List Timing)
  | [] => pure []
  | stage :: rest => do
      let timing ← stage.perform
      let update ← get
      Work.write (completed timing (update.notes.get? stage.name))
      if update.isUpToDate then
        Work.write (Log.info
          ("version " ++ update.version ++ " is already packaged, nothing to do"))
        return [timing]
      else return timing :: (← performAll rest)

end Stage

/-- The place and the work of every stage by its name. -/
abbrev Registry := Table Text (Int × Work Unit)

namespace Registry

/-- Registers a stage, in place of one of the same name. -/
def register (name : Text) (place : Int) (work : Work Unit) (registry : Registry) : Registry :=
  registry.put name (place, work)

/-- The stages in the order in which they are run. -/
def stages (registry : Registry) : List Stage :=
  (registry.map fun entry => Stage.mk entry.1 entry.2.1 entry.2.2).mergeSort
    fun a b => !b.precedes a

def names (registry : Registry) : List Text := registry.stages.map (·.name)

/-- The names in a list that may have blanks around them and empty entries. -/
def chosen (names : List Text) : List Text :=
  (names.filter fun name => !name.isEmpty).map Text.trim

/-- Whether a stage is run: it is not among those to skip, and it is among those to run when some
are given. -/
def selects (skip only : List Text) (stage : Stage) : Bool :=
  !(chosen skip).contains stage.name
    && ((chosen only).isEmpty || (chosen only).contains stage.name)

/-- Runs the selected stages. -/
def run (skip only : List Text) (registry : Registry) : Work (List Timing) :=
  Stage.performAll (registry.stages.filter (selects skip only))

/-- Runs all stages, and reports the timings and the package. -/
def update (registry : Registry) : Work Unit := do
  let timings ← registry.run [] []
  Work.write (Log.debug ("pass timings:\n" ++ Timing.table timings))
  let update ← get
  if !update.isUpToDate then
    Work.write <| Log.info <|
      "packaged " ++ update.state.packageName ++ " " ++ update.version ++ " into "
        ++ update.options.packageDirectory.text

end Registry

end Rebundle
