import Mathlib.Logic.Relation
import Rebundle.Datum.Summary

/-!
# What keeps data from being summarised

A summary shows the items of rows, the values of maps and the fields of records, and takes the records that it comes
to apart. This goes through the keys of maps as well, but not into sets, and copies all else. It fails at what cannot
be copied and at a key with a record in it, which would become a map. So a datum has a summary exactly when no record
that would be shown is tangled in this way, and no more levels are nested in it than the host takes.
-/

namespace Rebundle.Datum

/-- What a datum is made of directly. -/
def parts : Datum → List Datum
  | .list items | .tuple items | .set items => items
  | .map entries => entries.flatMap fun entry => [entry.1, entry.2]
  | .record _ fields => fields.map (·.2)
  | _ => []

/-- The parts that the summary of a datum shows: all but keys. -/
def shown : Datum → List Datum
  | .map entries => entries.map (·.2)
  | datum => datum.parts

/-- The parts that are taken apart with a datum: all but what is in a set. -/
def opened : Datum → List Datum
  | .set _ => []
  | datum => datum.parts

/-- Whether a datum is another one or a part of it, or a part of a part, and so on. -/
def Reaches (next : Datum → List Datum) : Datum → Datum → Prop := Relation.ReflTransGen fun d p => p ∈ next d

end Rebundle.Datum
