/-!
# Tables

A table is a list of entries in the order in which their keys were first put in. Putting a value for
a key that is there replaces the value and keeps the place.
-/

namespace Rebundle

abbrev Table (κ α : Type) := List (κ × α)

namespace Table

variable {κ α : Type} [DecidableEq κ]

def get? (key : κ) : Table κ α → Option α
  | [] => none
  | (k, value) :: rest => if k = key then some value else get? key rest

def put (key : κ) (value : α) : Table κ α → Table κ α
  | [] => [(key, value)]
  | (k, old) :: rest => if k = key then (k, value) :: rest else (k, old) :: put key value rest

/-- The table of entries put in one after the other. -/
def ofList (entries : List (κ × α)) : Table κ α :=
  entries.foldl (fun table (key, value) => table.put key value) []

def keys (table : Table κ α) : List κ := table.map (·.1)

def contains (key : κ) (table : Table κ α) : Bool := (table.get? key).isSome

theorem get?_put_self (key : κ) (value : α) (table : Table κ α) :
    (table.put key value).get? key = some value := by
  induction table with
  | nil => simp [put, get?]
  | cons entry rest ih =>
      obtain ⟨k, old⟩ := entry
      by_cases h : k = key <;> simp [put, get?, h, ih]

theorem get?_put_of_ne {key other : κ} (h : other ≠ key) (value : α) (table : Table κ α) :
    (table.put key value).get? other = table.get? other := by
  induction table with
  | nil => simp [put, get?, h.symm]
  | cons entry rest ih =>
      obtain ⟨k, old⟩ := entry
      by_cases hk : k = key
      · subst hk
        simp [put, get?, h.symm]
      · simp only [put, hk, if_false]
        by_cases ho : k = other <;> simp [get?, ho, ih]

end Table

end Rebundle
