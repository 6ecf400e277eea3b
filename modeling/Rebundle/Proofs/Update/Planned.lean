import Mathlib.Data.List.Induction
import Rebundle.Proofs.Update.Ending

/-!
# Runs follow the plan

Of all registrations of a name the last one counts. Those that count and are selected, in the order of their
places and of their names where two have the same place, are the plan of a run. A run calls the stages of the
plan one after the other, and it ends at the first one that fails or that finds the package up to date, or
behind the last one; the stages behind that one have no part in it.
-/

namespace Rebundle

namespace CodePoint

instance : Trans (fun a b : CodePoint => a < b) (fun a b => a < b) (fun a b => a < b) :=
  ⟨fun first second => Nat.lt_trans first second⟩

instance : Std.Asymm (fun a b : CodePoint => a < b) := ⟨fun _ _ => Nat.lt_asymm⟩

instance : Std.Trichotomous (fun a b : CodePoint => a < b) where
  trichotomous a b below above := by
    have same : a.val = b.val := Nat.le_antisymm (Nat.le_of_not_lt above) (Nat.le_of_not_lt below)
    obtain ⟨n, _⟩ := a
    obtain ⟨m, _⟩ := b
    cases same
    rfl

end CodePoint

/-- The order of texts is the lexicographic one. -/
theorem Text.precedes_iff {s t : Text} : Text.precedes s t = true ↔ s < t := by
  induction s generalizing t with
  | nil =>
      cases t with
      | nil => simp [Text.precedes]
      | cons b t => simp [Text.precedes, List.nil_lt_cons]
  | cons a s ih =>
      cases t with
      | nil => simp [Text.precedes]
      | cons b t =>
          have same : a.val = b.val ↔ a = b := by
            obtain ⟨n, _⟩ := a
            obtain ⟨m, _⟩ := b
            simp
          have below : a.val < b.val ↔ a < b := Iff.rfl
          simp [Text.precedes, List.cons_lt_cons_iff, ih, same, below]

namespace Stage

variable {a b c : Stage}

theorem precedes_iff : a.precedes b = true ↔ a.place < b.place ∨ a.place = b.place ∧ a.name < b.name := by
  simp [precedes, Text.precedes_iff]

end Stage

namespace Registry

end Registry

/-! ## Plans -/

/-- A name is among entries, which may have blanks around them; empty entries are none. -/
def Stage.Named (entries : List Text) (name : Text) : Prop := ∃ entry ∈ entries, entry ≠ [] ∧ entry.trim = name

namespace Registry

end Registry

/-! ## Runs -/

namespace Stage

/-- One stage after the other was called and returned with the update due. Only time went by and records were
written between them. -/
inductive Passed : List Stage → Update → World → Update → World → Prop where
  | nil (update : Update) (world : World) : Passed [] update world update world
  | cons {stage : Stage} {rest : List Stage} {update passed last : Update} {world ended later final : World}
      (worked : stage.work update { world with ticks := world.ticks + 1 } = ((.ok (), passed), ended))
      (due : passed.isUpToDate = false) (idle : World.Idle ended later)
      (others : Passed rest passed later last final) : Passed (stage :: rest) update world last final

/-- How stages end of which some were called and others not. -/
inductive Ends (update : Update) (world : World) : List Stage → List Stage →
    (Except Failure (List Timing) × Update) × World → Prop where
  /-- All were called and returned. -/
  | through {called : List Stage} {last : Update} {ended : World} {timings : List Timing}
      (passed : Passed called update world last ended)
      (timed : timings.map (·.stage) = called.map (·.name)) :
      Ends update world called [] ((.ok timings, last), ended)
  /-- The last one called returned with the package up to date. -/
  | current {earlier others : List Stage} {stage : Stage} {met last : Update} {between ended after : World}
      {timings : List Timing} (passed : Passed earlier update world met between)
      (worked : stage.work met { between with ticks := between.ticks + 1 } = ((.ok (), last), ended))
      (current : last.isUpToDate = true) (idle : World.Idle ended after)
      (timed : timings.map (·.stage) = (earlier ++ [stage]).map (·.name)) :
      Ends update world (earlier ++ [stage]) others ((.ok timings, last), after)
  /-- The last one called failed. -/
  | failed {earlier others : List Stage} {stage : Stage} {met last : Update} {between ended after : World}
      {cause failure : Failure} (passed : Passed earlier update world met between)
      (worked : stage.work met { between with ticks := between.ticks + 1 } = ((.error cause, last), ended))
      (idle : World.Idle ended after)
      (kept : (∃ name inner, cause = .stage name inner) → failure = cause)
      (told : (¬ ∃ name inner, cause = .stage name inner) → failure = .stage stage.name cause) :
      Ends update world (earlier ++ [stage]) others ((.error failure, last), after)

variable {update passed : Update} {world ended later : World}

/-- A stage in front that leaves the update due takes part in every end. -/
theorem Ends.cons {stage : Stage} {called others : List Stage} {seconds : Binary64}
    {outcome : (Except Failure (List Timing) × Update) × World}
    (worked : stage.work update { world with ticks := world.ticks + 1 } = ((.ok (), passed), ended))
    (due : passed.isUpToDate = false) (idle : World.Idle ended later) (ends : Ends passed later called others outcome) :
    Ends update world (stage :: called) others (followed ⟨stage.name, seconds⟩ outcome) := by
  cases ends with
  | through rest timed => exact .through (.cons worked due idle rest) (congrArg (stage.name :: ·) timed)
  | current rest worked' current idle' timed =>
      exact .current (.cons worked due idle rest) worked' current idle' (congrArg (stage.name :: ·) timed)
  | failed rest worked' idle' kept told => exact .failed (.cons worked due idle rest) worked' idle' kept told

end Stage

end Rebundle
