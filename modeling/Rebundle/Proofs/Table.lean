import Rebundle.Table

/-!
# Entries of a table

What putting an entry in does to the keys, to the entries and to what is found. Where no key comes twice a
table finds a value exactly when it has the entry.
-/

namespace Rebundle.Table

variable {κ α : Type} [DecidableEq κ]

theorem mem_of_get? {table : Table κ α} {key : κ} {value : α} (found : table.get? key = some value) :
    (key, value) ∈ table := by
  induction table with
  | nil => cases found
  | cons entry rest ih =>
      obtain ⟨k, old⟩ := entry
      simp only [get?] at found
      split at found
      · rename_i same
        cases found
        rw [same]
        exact List.mem_cons_self
      · exact List.mem_cons_of_mem _ (ih found)

theorem contains_iff {table : Table κ α} {key : κ} : table.contains key = true ↔ key ∈ table.keys := by
  rw [contains]
  induction table with
  | nil => simp [get?, keys]
  | cons entry rest ih =>
      obtain ⟨k, old⟩ := entry
      by_cases same : k = key
      · simp [get?, keys, same]
      · simp only [get?, if_neg same, ih]
        simp [keys, Ne.symm same]

theorem get?_eq_none_iff {table : Table κ α} {key : κ} : table.get? key = none ↔ key ∉ table.keys := by
  rw [← contains_iff, contains, Option.not_isSome_iff_eq_none]

theorem keys_put (key : κ) (value : α) (table : Table κ α) :
    (table.put key value).keys = if key ∈ table.keys then table.keys else table.keys ++ [key] := by
  induction table with
  | nil => simp [put, keys]
  | cons entry rest ih =>
      obtain ⟨k, old⟩ := entry
      by_cases same : k = key
      · simp [put, keys, same]
      · simp only [put, if_neg same]
        change k :: Table.keys (put key value rest) = _
        rw [ih]
        change _ = if key ∈ k :: Table.keys rest then k :: Table.keys rest
          else k :: Table.keys rest ++ [key]
        by_cases mem : key ∈ Table.keys rest <;> simp [mem, Ne.symm same]

/-- Putting values in keeps the keys apart. -/
theorem nodup_keys_put {table : Table κ α} (nodup : table.keys.Nodup) (key : κ) (value : α) :
    (table.put key value).keys.Nodup := by
  rw [keys_put]
  split
  · exact nodup
  · rename_i absent
    refine List.nodup_append.mpr ⟨nodup, by simp, ?_⟩
    intro k mem other single same
    rw [List.mem_singleton.mp single] at same
    exact absent (same ▸ mem)

theorem keys_put_of_not_mem {key : κ} {table : Table κ α} (fresh : key ∉ table.keys) (value : α) :
    (table.put key value).keys = table.keys ++ [key] := by
  rw [keys_put, if_neg fresh]

/-- The last of two values put in for a key is the one that counts. -/
theorem put_put (key : κ) (first second : α) (table : Table κ α) :
    (table.put key first).put key second = table.put key second := by
  induction table with
  | nil => simp [put]
  | cons entry rest ih =>
      obtain ⟨k, old⟩ := entry
      by_cases same : k = key <;> simp [put, same, ih]

/-- An entry with a new key is the last one. -/
theorem put_of_get?_eq_none {key : κ} {table : Table κ α} (fresh : table.get? key = none) (value : α) :
    table.put key value = table ++ [(key, value)] := by
  induction table with
  | nil => rfl
  | cons entry rest ih =>
      obtain ⟨k, old⟩ := entry
      by_cases same : k = key
      · simp [get?, same] at fresh
      · simp only [get?, if_neg same] at fresh
        simp [put, same, ih fresh]

theorem mem_put {table : Table κ α} {key : κ} {value : α}
    {entry : κ × α} (mem : entry ∈ table.put key value) : entry = (key, value) ∨ entry ∈ table := by
  induction table with
  | nil => exact .inl (List.mem_singleton.mp mem)
  | cons first rest ih =>
      obtain ⟨k, old⟩ := first
      simp only [put] at mem
      split at mem
      · rename_i same
        rw [same] at mem
        rcases List.mem_cons.mp mem with here | later
        · exact .inl here
        · exact .inr (List.mem_cons_of_mem _ later)
      · rcases List.mem_cons.mp mem with rfl | later
        · exact .inr List.mem_cons_self
        · rcases ih later with here | below
          · exact .inl here
          · exact .inr (List.mem_cons_of_mem _ below)

theorem get?_put (key other : κ) (value : α) (table : Table κ α) :
    (table.put key value).get? other = if other = key then some value else table.get? other := by
  split
  · rename_i same
    rw [same]
    exact get?_put_self key value table
  · rename_i differ
    exact get?_put_of_ne differ value table

theorem get?_of_mem {table : Table κ α} (nodup : table.keys.Nodup) {key : κ}
    {value : α} (mem : (key, value) ∈ table) : table.get? key = some value := by
  induction table with
  | nil => cases mem
  | cons entry rest ih =>
      obtain ⟨absent, nodup⟩ := List.nodup_cons.mp nodup
      rcases List.mem_cons.mp mem with rfl | later
      · exact if_pos rfl
      · have other : entry.1 ≠ key := by
          rintro rfl
          exact absent (List.mem_map.mpr ⟨_, later, rfl⟩)
        exact (if_neg other).trans (ih nodup later)

theorem get?_foldl_put (places : List κ) (value : α) (key : κ)
    (table : Table κ α) : (places.foldl (fun table place => table.put place value) table).get? key =
      if key ∈ places then some value else table.get? key := by
  induction places generalizing table with
  | nil => rfl
  | cons place rest ih =>
      rw [List.foldl_cons, ih]
      by_cases later : key ∈ rest
      · rw [if_pos later, if_pos (List.mem_cons_of_mem _ later)]
      · rw [if_neg later]
        by_cases here : key = place
        · rw [if_pos (here ▸ List.mem_cons_self), here, get?_put_self]
        · rw [get?_put_of_ne here, if_neg (by simp [here, later])]

theorem get?_filter (keeps : κ → Bool) (key : κ) (table : Table κ α) :
    Table.get? key (table.filter fun entry => keeps entry.1) =
      if keeps key then table.get? key else none := by
  induction table with
  | nil => simp [get?]
  | cons entry rest ih =>
      obtain ⟨k, value⟩ := entry
      by_cases kept : keeps k
      · by_cases same : k = key <;> simp_all [get?]
      · by_cases same : k = key <;> simp_all [get?]

end Rebundle.Table
