import Rebundle.Failure

/-!
# Hosts

The machine that a program runs on. It names temporary files and sets limits, its parser gives the trees of sources,
and it may refuse what it is asked for.
-/

namespace Rebundle

/-- What a host is asked for when a file is written, and when the constructs of a source are gone through. -/
inductive Act where
  | makeDirectory (level : Text)
  | create (directory : Text)
  | write (more : Bytes)
  | finish
  | move (path : Text)
  | patch (source : Text)

/-- The name of a temporary file, around the part that the host makes up. -/
def temporaryName (part : Text) : Text := ".tmp-" ++ part ++ ".partial"

/-- A host names temporary files so that nothing stands in their places, and it may refuse an act, as when a
permission is missing, there is no room, or a source is nested too deep. It limits what it reads as JSON, and how
many levels of data it summarises. -/
structure Host where
  part : Place → Disk → Text
  unused : ∀ (place : Place) (disk : Disk), disk.node? (place ++ [temporaryName (part place disk)]) = none
  refusal? : Act → Disk → Option Failure
  limits : Json.Limits
  levels : Nat
  parser : Parser

namespace Host

/-! The host at hand refuses nothing, and makes names up that are longer than all names on the disk. -/

/-- The length of the longest last name of a place. -/
def longest : Disk → Nat
  | [] => 0
  | (place, _) :: rest => max (place.getLast?.getD []).length (longest rest)

theorem length_le_longest {place : Place} {disk : Disk} (stands : Table.get? place disk ≠ none) :
    (place.getLast?.getD []).length ≤ longest disk := by
  induction disk with
  | nil => exact absurd rfl stands
  | cons entry rest ih =>
      obtain ⟨here, node⟩ := entry
      rw [longest]
      by_cases same : here = place
      · rw [same]
        exact Nat.le_max_left _ _
      · rw [Table.get?, if_neg same] at stands
        exact Nat.le_trans (ih stands) (Nat.le_max_right _ _)

def standard : Host where
  part _ disk := List.replicate (longest disk) ('_' : CodePoint)
  unused place disk := by
    rw [Disk.node?, if_neg (by simp)]
    refine Decidable.byContradiction fun stands => ?_
    have short := length_le_longest stands
    have lead : (Text.ofString ".tmp-").length = 5 := rfl
    simp only [List.getLast?_concat, Option.getD_some, temporaryName, List.length_append,
      List.length_replicate] at short
    omega
  refusal? _ _ := none
  limits := ⟨4300, 990, by decide⟩
  levels := 495
  parser := Parser.standard

end Host

end Rebundle
