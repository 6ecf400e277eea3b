import Rebundle.Proofs.Rewrite.Capture
import Rebundle.Proofs.Scope.Free

/-!
# Collision reports

Renaming reports a binding whose scope declares the new name at the start. Whether two bindings of a
scope end up with one name depends on the whole configuration: the new name may be vacated, because it
is the old name or is renamed itself, and it may be given to another binding of the scope as well. So a
report can be groundless, and a collision can go unreported; both cases are described exactly.
-/

namespace Rebundle.Renaming

open Scope

variable {renames : Table Text Text} {names : List Text} {entry : Text × Text}

/-- Whether another one of these names ends up as this one does. -/
def Collides (renames : Table Text Text) (names : List Text) (name : Text) : Prop :=
  ∃ other ∈ names, other ≠ name ∧ finalName renames other = finalName renames name

instance (renames : Table Text Text) (names : List Text) (name : Text) :
    Decidable (Collides renames names name) :=
  inferInstanceAs (Decidable (∃ other ∈ names, other ≠ name ∧ finalName renames other = finalName renames name))

/-- Whether another one of these names is configured to get the same new name. -/
def Merged (renames : Table Text Text) (names : List Text) (entry : Text × Text) : Prop :=
  ∃ other ∈ names, other ≠ entry.1 ∧ renames.get? other = some entry.2

/-- Whether the new name has no other bearer in the end: it is the old name, or is renamed itself. -/
def Vacated (renames : Table Text Text) (entry : Text × Text) : Prop :=
  entry.2 = entry.1 ∨ (renames.get? entry.2).isSome

instance (renames : Table Text Text) (names : List Text) (entry : Text × Text) :
    Decidable (Merged renames names entry) :=
  inferInstanceAs (Decidable (∃ other ∈ names, other ≠ entry.1 ∧ renames.get? other = some entry.2))

instance (renames : Table Text Text) (entry : Text × Text) : Decidable (Vacated renames entry) :=
  inferInstanceAs (Decidable (_ ∨ _))

theorem finalName_eq_iff {name new : Text} :
    finalName renames name = new ↔ renames.get? name = some new ∨ renames.get? name = none ∧ name = new := by
  cases configured : renames.get? name with
  | none => simp [finalName_of_none configured]
  | some other => simp [finalName_of_some configured]

/-- A collision comes from another name with the same new name, or from a name that stays as it is. -/
theorem collides_iff (configured : renames.get? entry.1 = some entry.2) :
    Collides renames names entry.1 ↔
      Merged renames names entry ∨ entry.2 ∈ names ∧ ¬Vacated renames entry := by
  have vacated : ¬Vacated renames entry ↔ entry.2 ≠ entry.1 ∧ renames.get? entry.2 = none := by
    simp [Vacated]
  rw [Collides, finalName_of_some configured, vacated]
  constructor
  · rintro ⟨other, mem, differ, final⟩
    rcases finalName_eq_iff.mp final with same | ⟨stays, rfl⟩
    · exact .inl ⟨other, mem, differ, same⟩
    · exact .inr ⟨mem, differ, stays⟩
  · rintro (⟨other, mem, differ, same⟩ | ⟨mem, differ, stays⟩)
    · exact ⟨other, mem, differ, finalName_eq_iff.mpr (.inl same)⟩
    · exact ⟨entry.2, mem, differ, finalName_eq_iff.mpr (.inr ⟨stays, rfl⟩)⟩

/-- A report without a collision. -/
theorem groundless_iff (configured : renames.get? entry.1 = some entry.2) :
    entry.2 ∈ names ∧ ¬Collides renames names entry.1 ↔
      entry.2 ∈ names ∧ Vacated renames entry ∧ ¬Merged renames names entry := by
  rw [collides_iff configured]
  refine and_congr_right fun mem => ?_
  rw [not_or, not_and, not_not, and_comm]
  exact and_congr_left' ⟨fun vacated => vacated mem, fun vacated _ => vacated⟩

/-- A collision without a report. -/
theorem unreported_iff (configured : renames.get? entry.1 = some entry.2) :
    entry.2 ∉ names ∧ Collides renames names entry.1 ↔ entry.2 ∉ names ∧ Merged renames names entry := by
  rw [collides_iff configured]
  refine and_congr_right fun absent => ⟨fun collides => ?_, .inl⟩
  rcases collides with merged | ⟨mem, -⟩
  · exact merged
  · exact absurd mem absent

theorem warnings_visit (cursor : Cursor) (rewrite : Rewrite) :
    (visit cursor rewrite).2.warnings = rewrite.warnings := by
  unfold visit
  split
  · rfl
  · split <;> rfl

/-- The renaming reports each renamed binding whose scope declares the new name, and nothing else. The
report is groundless where the new name is vacated and not given to another name of the scope; a binding
collides without a report where another name of the scope gets the same new name, which is new to the
scope. -/
theorem prepare_reports {rewrite : Rewrite} (keys : rewrite.config.renameIdentifiers.keys.Nodup) :
    let renames := rewrite.config.renameIdentifiers
    (prepare rewrite).warnings = rewrite.warnings ++ renames.flatMap (collisions rewrite.scopes) ∧
    (∀ cursor state, (visit cursor state).2.warnings = state.warnings) ∧
    ∀ entry ∈ renames, ∀ bound ∈ rewrite.scopes.bindingsNamed entry.1,
      let names := declared rewrite.scopes.scopes bound.1.scope
      entry.1 ∈ names ∧
      (Collides renames names entry.1 ↔
        Merged renames names entry ∨ entry.2 ∈ names ∧ ¬Vacated renames entry) ∧
      (entry.2 ∈ names ∧ ¬Collides renames names entry.1 ↔
        entry.2 ∈ names ∧ Vacated renames entry ∧ ¬Merged renames names entry) ∧
      (entry.2 ∉ names ∧ Collides renames names entry.1 ↔
        entry.2 ∉ names ∧ Merged renames names entry) := by
  intro renames
  refine ⟨warnings_prepare rewrite, warnings_visit, fun entry mem bound known => ?_⟩
  have configured : renames.get? entry.1 = some entry.2 := Table.get?_of_mem keys mem
  exact ⟨ScopeTable.exists_bindingsNamed.mp ⟨bound, known, rfl⟩, collides_iff configured,
    groundless_iff configured, unreported_iff configured⟩

/-- Exchanging `a` and `c`. -/
def exchanging : PatchConfig :=
  { PatchConfig.empty with renameIdentifiers := [("a", "c"), ("c", "a")] }

/-- The exchange in `entangled` before it begins. -/
def exchangingStart : Rewrite :=
  Patcher.start exchanging entangled (Patcher.scopesFor exchanging entangled).value

/-- In `entangled` an exchange is reported twice although nothing collides, and the two bindings that get
one name are not reported. -/
theorem entangled_reports :
    exchanging.renameIdentifiers.keys.Nodup ∧ entangling.renameIdentifiers.keys.Nodup ∧
      (prepare exchangingStart).warnings = [collision ("a", "c"), collision ("c", "a")] ∧
      (∀ bound ∈ exchangingStart.scopes.bindingsNamed "a",
        ¬Collides exchanging.renameIdentifiers (declared exchangingStart.scopes.scopes bound.1.scope) "a") ∧
      (prepare entangledStart).warnings = [] ∧
      ∃ bound ∈ entangledStart.scopes.bindingsNamed "c",
        Collides entangling.renameIdentifiers (declared entangledStart.scopes.scopes bound.1.scope) "c" := by
  have keys : exchanging.renameIdentifiers.keys.Nodup := by decide
  have keys' : entangling.renameIdentifiers.keys.Nodup := by decide
  obtain ⟨warned, -, reports⟩ := @prepare_reports exchangingStart keys
  obtain ⟨quiet, -, reports'⟩ := @prepare_reports entangledStart keys'
  refine ⟨keys, keys', warned.trans (by decide +kernel), fun bound known => ?_,
    quiet.trans (by decide +kernel), ?_⟩
  · have vacated : ∀ bound ∈ exchangingStart.scopes.bindingsNamed "a",
        Text.ofString "c" ∈ declared exchangingStart.scopes.scopes bound.1.scope ∧
          Vacated exchanging.renameIdentifiers ("a", "c") ∧
          ¬Merged exchanging.renameIdentifiers (declared exchangingStart.scopes.scopes bound.1.scope)
            ("a", "c") := by decide +kernel
    exact ((reports ("a", "c") (by decide) bound known).2.2.1.mpr (vacated bound known)).2
  · have merged : ∃ bound ∈ entangledStart.scopes.bindingsNamed "c",
        Text.ofString "d" ∉ declared entangledStart.scopes.scopes bound.1.scope ∧
          Merged entangling.renameIdentifiers (declared entangledStart.scopes.scopes bound.1.scope)
            ("c", "d") := by decide +kernel
    obtain ⟨bound, known, merged⟩ := merged
    exact ⟨bound, known, ((reports' ("c", "d") (by decide) bound known).2.2.2.mpr merged).2⟩

end Rebundle.Renaming
