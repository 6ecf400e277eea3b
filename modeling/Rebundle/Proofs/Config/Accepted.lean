import Rebundle.Config
import Mathlib.Data.List.Basic

/-!
# Accepted configurations

The values that are read as a configuration, and the configuration they are read as. For each field
the last value under either of its keys counts. A field of names is given as nothing, as a list of
names or as an object, of which the keys are taken; a field of entries is given as nothing or as an
object.
-/

namespace Rebundle

namespace PatchConfig

namespace Field

variable {field : Field} {key : Text}

/-- A key that names the field, in one of its two spellings. -/
def Spelt (field : Field) (key : Text) : Prop :=
  key = Text.ofString field.name ∨ key = Text.ofString field.snakeName

theorem ofKey?_eq_some_iff : ofKey? key = some field ↔ field.Spelt key := by
  constructor
  · intro found
    have spelt := List.find?_some found
    simp only [Bool.or_eq_true, beq_iff_eq] at spelt
    exact spelt.imp Eq.symm Eq.symm
  · rintro (rfl | rfl) <;> cases field <;> decide

end Field

/-- What the members of an object give for a field: the last value under a key of the field, and null
when no key is one. -/
inductive Gives (field : Field) : List (Text × Json) → Json → Prop where
  | nowhere {members : List (Text × Json)} (others : ∀ member ∈ members, ¬field.Spelt member.1) :
      Gives field members .null
  | last (before : List (Text × Json)) {key : Text} (value : Json) {after : List (Text × Json)}
      (spelt : field.Spelt key) (others : ∀ member ∈ after, ¬field.Spelt member.1) :
      Gives field (before ++ (key, value) :: after) value

/-- A value that lists names. -/
inductive Lists : Json → List Text → Prop where
  | none : Lists .null []
  | texts {names : List Text} (filled : ∀ name ∈ names, name ≠ []) :
      Lists (.array (names.map .string)) names
  | keys {members : List (Text × Json)} (filled : ∀ member ∈ members, member.1 ≠ []) :
      Lists (.object members) (members.map (·.1))

/-- A value that maps names to texts. -/
inductive Maps : Json → Table Text Text → Prop where
  | none : Maps .null []
  | texts {entries : Table Text Text} (filled : ∀ entry ∈ entries, entry.1 ≠ []) :
      Maps (.object (entries.map fun entry => (entry.1, .string entry.2))) entries

/-- A configuration whose fields hold what the members of an object give for them. -/
structure DescribedBy (config : PatchConfig) (members : List (Text × Json)) : Prop where
  removed : ∃ value, Gives .removeIdentifiers members value ∧ Lists value config.removeIdentifiers
  renamed : ∃ value, Gives .renameIdentifiers members value ∧ Maps value config.renameIdentifiers
  targets : ∀ entry ∈ config.renameIdentifiers, entry.2 ≠ []
  calls : ∃ value, Gives .removeFunctionCalls members value ∧ Lists value config.removeFunctionCalls
  bodies : ∃ value, Gives .replaceFunctionBody members value ∧ Maps value config.replaceFunctionBody

/-- Configurations with the same names and entries. -/
structure Same (config other : PatchConfig) : Prop where
  removed : ∀ name, name ∈ config.removeIdentifiers ↔ name ∈ other.removeIdentifiers
  renamed : config.renameIdentifiers = other.renameIdentifiers
  calls : ∀ name, name ∈ config.removeFunctionCalls ↔ name ∈ other.removeFunctionCalls
  bodies : config.replaceFunctionBody = other.replaceFunctionBody

section Given

variable {field : Field} {members : List (Text × Json)} {value : Json}

theorem gives_lastGiven (field : Field) (members : List (Text × Json)) :
    Gives field members (lastGiven field members) := by
  unfold lastGiven
  split
  · rename_i key value found
    obtain ⟨spelt, after, before, parts, others⟩ := List.find?_eq_some_iff_append.mp found
    have whole : members = before.reverse ++ (key, value) :: after.reverse := by
      rw [← members.reverse_reverse, parts]
      simp
    rw [whole]
    refine .last _ _ (Field.ofKey?_eq_some_iff.mp (by simpa using spelt)) fun member mem spelt => ?_
    have other := others member (List.mem_reverse.mp mem)
    rw [Field.ofKey?_eq_some_iff.mpr spelt] at other
    simp at other
  · rename_i none
    refine .nowhere fun member mem spelt => ?_
    have other := List.find?_eq_none.mp none member (List.mem_reverse.mpr mem)
    exact other (by simp [Field.ofKey?_eq_some_iff.mpr spelt])

theorem Gives.lastGiven_eq (gives : Gives field members value) : lastGiven field members = value := by
  have passed {row : List (Text × Json)} (others : ∀ member ∈ row, ¬field.Spelt member.1) :
      (row.reverse.find? fun member => Field.ofKey? member.1 == some field) = none := by
    refine List.find?_eq_none.mpr fun member mem found => ?_
    exact others member (List.mem_reverse.mp mem) (Field.ofKey?_eq_some_iff.mp (by simpa using found))
  cases gives with
  | nowhere others => rw [lastGiven, passed others]
  | last before value spelt others =>
      rw [lastGiven, List.reverse_append, List.reverse_cons, List.append_assoc, List.find?_append,
        passed others, List.singleton_append, List.find?_cons_of_pos]
      · rfl
      · simp [Field.ofKey?_eq_some_iff.mpr spelt]

/-- A field is given exactly one value. -/
theorem gives_iff : Gives field members value ↔ lastGiven field members = value :=
  ⟨Gives.lastGiven_eq, fun same => same ▸ gives_lastGiven field members⟩

/-- Keys of no field give nothing for any. -/
theorem lastGiven_filter (field : Field) (members : List (Text × Json)) :
    lastGiven field (members.filter fun member => (Field.ofKey? member.1).isSome) =
      lastGiven field members := by
  have narrower (row : List (Text × Json)) :
      (row.filter fun member => (Field.ofKey? member.1).isSome).find?
          (fun member => Field.ofKey? member.1 == some field) =
        row.find? fun member => Field.ofKey? member.1 == some field := by
    rw [List.find?_filter]
    congr 1
    funext member
    rw [Bool.eq_iff_iff]
    cases Field.ofKey? member.1 <;> simp
  rw [lastGiven, lastGiven, ← List.filter_reverse, narrower]

end Given

section Values

variable {field : Field}

theorem names_eq_ok_iff {items : List Json} {row : List Text} :
    names field items = .ok row ↔ items = row.map .string ∧ ∀ name ∈ row, name ≠ [] := by
  induction items generalizing row with
  | nil => cases row <;> simp [names]
  | cons item rest ih =>
      constructor
      · intro given
        unfold names at given
        split at given
        · rename_i c t
          cases left : names field rest with
          | error fault => simp [left, Except.map] at given
          | ok others =>
              obtain ⟨rfl, filled⟩ := ih.mp left
              simp only [left, Except.map, Except.ok.injEq] at given
              subst given
              exact ⟨rfl, List.forall_mem_cons.mpr ⟨List.cons_ne_nil c t, filled⟩⟩
        · cases given
      · rintro ⟨items, filled⟩
        obtain ⟨name, others, rfl, rfl, rfl⟩ := List.map_eq_cons_iff.mp items.symm
        obtain ⟨known, rest⟩ := List.forall_mem_cons.mp filled
        obtain ⟨c, t, rfl⟩ := List.exists_cons_of_ne_nil known
        rw [names, ih.mpr ⟨rfl, rest⟩]
        rfl

theorem namesOf_eq_ok_iff {value : Json} {row : List Text} :
    namesOf field value = .ok row ↔ Lists value row := by
  constructor
  · intro given
    cases value with
    | null =>
        cases given
        exact .none
    | array items =>
        obtain ⟨rfl, filled⟩ := names_eq_ok_iff.mp given
        exact .texts filled
    | object members =>
        obtain ⟨items, filled⟩ := names_eq_ok_iff.mp given
        have keys : row = members.map (·.1) := by
          refine List.map_injective_iff.mpr (fun _ _ => Json.string.inj) (items.symm.trans ?_)
          rw [List.map_map]
          rfl
        subst keys
        exact .keys fun member mem => filled _ (List.mem_map_of_mem mem)
    | bool | number | string => cases given
  · intro lists
    cases lists with
    | none => rfl
    | texts filled => exact names_eq_ok_iff.mpr ⟨rfl, filled⟩
    | @keys members filled =>
        refine names_eq_ok_iff.mpr ⟨?_, List.forall_mem_map.mpr filled⟩
        rw [List.map_map]
        rfl

theorem entries_eq_ok_iff {members : List (Text × Json)} {table : Table Text Text} :
    entries field members = .ok table ↔
      members = table.map (fun entry => (entry.1, .string entry.2)) ∧
        ∀ entry ∈ table, entry.1 ≠ [] := by
  induction members generalizing table with
  | nil => cases table <;> simp [entries]
  | cons member rest ih =>
      obtain ⟨key, value⟩ := member
      constructor
      · intro given
        unfold entries at given
        split at given
        · cases given
        · rename_i filledKey
          split at given
          · rename_i t
            cases left : entries field rest with
            | error fault => simp [left, Except.map] at given
            | ok others =>
                obtain ⟨rfl, filled⟩ := ih.mp left
                simp only [left, Except.map, Except.ok.injEq] at given
                subst given
                exact ⟨rfl, List.forall_mem_cons.mpr ⟨by simpa using filledKey, filled⟩⟩
          · cases given
      · rintro ⟨members, filled⟩
        obtain ⟨⟨name, t⟩, others, rfl, same, rfl⟩ := List.map_eq_cons_iff.mp members.symm
        obtain ⟨rfl, rfl⟩ := Prod.mk.inj same
        obtain ⟨known, rest⟩ := List.forall_mem_cons.mp filled
        rw [entries, if_neg (by simpa using known), ih.mpr ⟨rfl, rest⟩]
        rfl

theorem entriesOf_eq_ok_iff {value : Json} {table : Table Text Text} :
    entriesOf field value = .ok table ↔ Maps value table := by
  constructor
  · intro given
    cases value with
    | null =>
        cases given
        exact .none
    | object members =>
        obtain ⟨rfl, filled⟩ := entries_eq_ok_iff.mp given
        exact .texts filled
    | bool | number | string | array => cases given
  · intro maps
    cases maps with
    | none => rfl
    | texts filled => exact entries_eq_ok_iff.mpr ⟨rfl, filled⟩

end Values

section Whole

variable {members : List (Text × Json)} {config : PatchConfig}

theorem bind_eq_ok_iff {ε α β : Type} {first : Except ε α} {next : α → Except ε β} {result : β} :
    first >>= next = .ok result ↔ ∃ value, first = .ok value ∧ next value = .ok result := by
  cases first with
  | error fault => exact ⟨nofun, nofun⟩
  | ok value => exact ⟨fun last => ⟨value, rfl, last⟩, fun ⟨_, same, last⟩ => Except.ok.inj same ▸ last⟩

/-- The fields are read one after the other, and the new names of a renaming are looked at last. -/
theorem ofMembers_eq_ok_iff : ofMembers members = .ok config ↔ config.DescribedBy members := by
  have filled_iff {renames : Table Text Text} : (renames.find? fun entry => entry.2.isEmpty) = none ↔
      ∀ entry ∈ renames, entry.2 ≠ [] := by
    simp [List.find?_eq_none]
  rw [ofMembers]
  constructor
  · intro given
    obtain ⟨removed, lists, given⟩ := bind_eq_ok_iff.mp given
    obtain ⟨renamed, maps, given⟩ := bind_eq_ok_iff.mp given
    obtain ⟨calls, lists', given⟩ := bind_eq_ok_iff.mp given
    obtain ⟨bodies, maps', given⟩ := bind_eq_ok_iff.mp given
    split at given
    · cases given
    · rename_i filled
      cases given
      exact ⟨⟨_, gives_lastGiven _ _, namesOf_eq_ok_iff.mp lists⟩,
        ⟨_, gives_lastGiven _ _, entriesOf_eq_ok_iff.mp maps⟩, filled_iff.mp filled,
        ⟨_, gives_lastGiven _ _, namesOf_eq_ok_iff.mp lists'⟩,
        ⟨_, gives_lastGiven _ _, entriesOf_eq_ok_iff.mp maps'⟩⟩
  · rintro ⟨⟨_, given₁, lists⟩, ⟨_, given₂, maps⟩, targets, ⟨_, given₃, lists'⟩,
      ⟨_, given₄, maps'⟩⟩
    refine bind_eq_ok_iff.mpr ⟨_, namesOf_eq_ok_iff.mpr (given₁.lastGiven_eq ▸ lists), ?_⟩
    refine bind_eq_ok_iff.mpr ⟨_, entriesOf_eq_ok_iff.mpr (given₂.lastGiven_eq ▸ maps), ?_⟩
    refine bind_eq_ok_iff.mpr ⟨_, namesOf_eq_ok_iff.mpr (given₃.lastGiven_eq ▸ lists'), ?_⟩
    refine bind_eq_ok_iff.mpr ⟨_, entriesOf_eq_ok_iff.mpr (given₄.lastGiven_eq ▸ maps'), ?_⟩
    rw [filled_iff.mpr targets]
    rfl

theorem ofJson_eq_ok_iff {v : Json} :
    (ofJson v).value = .ok config ↔ ∃ members, v = .object members ∧ config.DescribedBy members := by
  cases v with
  | object members =>
      rw [show (ofJson (.object members)).value = ofMembers members from rfl, ofMembers_eq_ok_iff]
      simp
  | null | bool | number | string | array => simp [ofJson]

theorem ofMembers_filter (members : List (Text × Json)) :
    ofMembers (members.filter fun member => (Field.ofKey? member.1).isSome) = ofMembers members := by
  simp only [ofMembers, lastGiven_filter]

theorem Lists.filled {value : Json} {names : List Text} (lists : Lists value names) :
    ∀ name ∈ names, name ≠ [] := by
  cases lists with
  | none => simp
  | texts filled => exact filled
  | keys filled => exact List.forall_mem_map.mpr filled

theorem Maps.filled {value : Json} {entries : Table Text Text} (maps : Maps value entries) :
    ∀ entry ∈ entries, entry.1 ≠ [] := by
  cases maps with
  | none => simp
  | texts filled => exact filled

theorem mem_sortUnique {name : Text} {names : List Text} :
    name ∈ Text.sortUnique names ↔ name ∈ names := by
  rw [Text.sortUnique, List.mem_mergeSort, List.mem_eraseDups]

/-- A configuration with its names in order. -/
def ordered (config : PatchConfig) : PatchConfig :=
  { config with
    removeIdentifiers := Text.sortUnique config.removeIdentifiers
    removeFunctionCalls := Text.sortUnique config.removeFunctionCalls }

theorem ordered_same (config : PatchConfig) : config.ordered.Same config :=
  ⟨fun _ => mem_sortUnique, rfl, fun _ => mem_sortUnique, rfl⟩

/-- The description of a configuration is read as the configuration with its names in order. -/
theorem ofJson_toJson (described : config.DescribedBy members) :
    (ofJson config.toJson).value = .ok config.ordered := by
  obtain ⟨⟨_, -, removed⟩, ⟨_, -, renamed⟩, targets, ⟨_, -, calls⟩, ⟨_, -, bodies⟩⟩ := described
  have sorted {names : List Text} (filled : ∀ name ∈ names, name ≠ []) :
      ∀ name ∈ Text.sortUnique names, name ≠ [] := fun name mem => filled name (mem_sortUnique.mp mem)
  refine ofJson_eq_ok_iff.mpr ⟨_, rfl, ⟨_, gives_iff.mpr rfl, .texts (sorted removed.filled)⟩,
    ⟨_, gives_iff.mpr rfl, .texts renamed.filled⟩, targets,
    ⟨_, gives_iff.mpr rfl, .texts (sorted calls.filled)⟩, ⟨_, gives_iff.mpr rfl, .texts bodies.filled⟩⟩

/-- A value is read as a configuration when it is an object that gives a fitting value for each field;
the configuration holds what is given, and its description is read as the same names and entries. Every
other value is refused, and keys that name no field change nothing. -/
theorem ofJson_accepts (v : Json) :
    (∀ config, (ofJson v).value = .ok config ↔
      ∃ members, v = .object members ∧ config.DescribedBy members) ∧
    ((∃ fault, (ofJson v).value = .error fault) ↔
      ¬∃ (config : PatchConfig) (members : List (Text × Json)),
        v = .object members ∧ config.DescribedBy members) ∧
    (∀ members : List (Text × Json),
      (ofJson (.object (members.filter fun member => (Field.ofKey? member.1).isSome))).value =
        (ofJson (.object members)).value) ∧
    ∀ config, (ofJson v).value = .ok config →
      ∃ again, (ofJson config.toJson).value = .ok again ∧ again.Same config := by
  refine ⟨fun config => ofJson_eq_ok_iff, ?_, ofMembers_filter, fun config given => ?_⟩
  · constructor
    · rintro ⟨fault, refused⟩ ⟨config, described⟩
      rw [ofJson_eq_ok_iff.mpr described] at refused
      cases refused
    · intro undescribed
      cases result : (ofJson v).value with
      | error fault => exact ⟨fault, rfl⟩
      | ok config => exact absurd ⟨config, ofJson_eq_ok_iff.mp result⟩ undescribed
  · obtain ⟨members, -, described⟩ := ofJson_eq_ok_iff.mp given
    exact ⟨config.ordered, ofJson_toJson described, config.ordered_same⟩

-- An object is taken for the list of its keys.
example : (ofJson (.object [("removeIdentifiers", .object [("a", .ofNat 1)])])).value =
    .ok { empty with removeIdentifiers := ["a"] } := rfl

end Whole

end PatchConfig

end Rebundle
