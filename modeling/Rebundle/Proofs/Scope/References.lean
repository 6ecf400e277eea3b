import Rebundle.Proofs.Scope.Chain
import Rebundle.Proofs.Scope.Entering
import Rebundle.Proofs.Syntax.Descent

/-!
# References

The walk of an analysis declares names and refers to none. Resolving attaches every collected
reference to the binding that its scope sees, in the order of collection, and leaves the others free;
it changes neither the chains nor the declared names, so the order does not matter to what is seen.
-/

namespace Rebundle

namespace Scope

/-- A scope whose names are declared once and not yet referred to. -/
structure Unreferred (scope : Scope) : Prop where
  nodup : scope.bindings.keys.Nodup
  references : ∀ entry ∈ scope.bindings, entry.2.references = []

theorem Unreferred.declare {scope : Scope} (clean : scope.Unreferred) (name : Text)
    (kind : BindingKind) (place : Range) : (scope.declare name kind place).Unreferred where
  nodup := Table.nodup_keys_put clean.nodup name _
  references := by
    intro entry mem
    rcases Table.mem_put mem with rfl | known
    · cases found : scope.bindings.get? name with
      | none => rfl
      | some binding => exact clean.references (name, binding) (Table.mem_of_get? found)
    · exact clean.references entry known

theorem forall_modify {holds : Scope → Prop} {f : Scope → Scope} {scopes : List Scope}
    (before : ∀ scope ∈ scopes, holds scope) (step : ∀ scope, holds scope → holds (f scope)) (i : Nat) :
    ∀ scope ∈ scopes.modify i f, holds scope := by
  intro scope mem
  obtain ⟨j, found⟩ := List.mem_iff_getElem?.mp mem
  rw [List.getElem?_modify] at found
  cases old : scopes[j]? with
  | none =>
      rw [old] at found
      cases found
  | some scope' =>
      have known := before scope' (List.mem_of_getElem? old)
      rw [old] at found
      simp only [Option.map_eq_map, Option.map_some, Option.some.injEq] at found
      split at found
      · exact found ▸ step scope' known
      · exact found ▸ known

end Scope

namespace ScopeWalk

/-- What holds of the scopes during the walk. -/
def Clean (walk : ScopeWalk) : Prop := ∀ scope ∈ walk.scopes, scope.Unreferred

variable {walk : ScopeWalk}

theorem Clean.openScope (clean : walk.Clean) (kind : ScopeKind) (t : Tree) :
    (walk.openScope kind t).Clean := by
  intro scope mem
  rcases List.mem_append.mp mem with known | new
  · exact clean scope known
  · rw [List.mem_singleton.mp new]
    exact ⟨List.nodup_nil, by simp⟩

theorem Clean.leave (clean : walk.Clean) (t : Tree) : (walk.leave t).Clean := by
  rw [ScopeWalk.leave]
  split
  · split
    · exact clean
    · exact clean
  · exact clean

theorem Clean.declare (clean : walk.Clean) (source : Bytes) (scope : Nat) (kind : BindingKind)
    (t : Tree) : (walk.declare source scope kind t).Clean := by
  rw [ScopeWalk.declare]
  split
  · exact clean
  · exact Scope.forall_modify clean (fun _ known => known.declare _ _ _) scope

theorem stable_clean (source : Bytes) (t : Tree) : Stable source t Clean where
  opens _ kind clean := clean.openScope kind t
  declares _ scope kind name _ _ clean := clean.declare source scope kind name
  ignores _ _ clean := clean
  notes _ _ clean := clean
  collects _ clean := clean

end ScopeWalk

theorem ScopeTable.clean_walk (source : Bytes) (skipBefore : Nat) (root : Tree) :
    (ScopeTable.walk source skipBefore root).Clean := by
  apply Visitor.walk_preserves ScopeWalk.Clean
  · intro cursor walk _ clean
    simp only [ScopeWalk.visitor]
    split
    · exact clean
    · exact (ScopeWalk.stable_clean source cursor.focus).enter clean
  · intro cursor walk _ clean
    exact clean.leave cursor.focus
  · exact ScopeWalk.Clean.openScope (by simp [ScopeWalk.Clean, ScopeWalk.start]) _ _

/-! Resolving attaches references and leaves the declared names as they are. -/

namespace Scope

theorem keys_refer (name : Text) (place : Range) (scope : Scope) :
    (scope.refer name place).bindings.keys = scope.bindings.keys := by
  rw [refer]
  split
  · rename_i binding found
    have known : name ∈ scope.bindings.keys :=
      Table.contains_iff.mp (by rw [Table.contains, found]; rfl)
    rw [Table.keys_put, if_pos known]
  · rfl

theorem parent_refer (name : Text) (place : Range) (scope : Scope) :
    (scope.refer name place).parent = scope.parent := by
  rw [refer]
  split <;> rfl

theorem get?_refer (name other : Text) (place : Range) (scope : Scope) :
    (scope.refer name place).bindings.get? other =
      if other = name then (scope.bindings.get? other).map fun binding =>
        { binding with references := binding.references ++ [place] }
      else scope.bindings.get? other := by
  rw [refer]
  split
  · rename_i binding found
    by_cases same : other = name
    · rw [if_pos same, same, found]
      exact Table.get?_put_self _ _ _
    · rw [if_neg same]
      exact Table.get?_put_of_ne same _ _
  · rename_i absent
    by_cases same : other = name
    · rw [if_pos same, same, absent]
      rfl
    · rw [if_neg same]

variable {scopes : List Scope} (name : Text) (place : Range) (k : Nat)

theorem chain_modify_refer (i : Nat) :
    chain (scopes.modify k (refer name place)) i = chain scopes i := by
  apply chain_congr
  intro j
  rw [List.getElem?_modify]
  cases scopes[j]? with
  | none => rfl
  | some scope =>
      by_cases same : k = j
      · simp [same, parent_refer]
      · simp [same]

theorem declared_modify_refer (i : Nat) :
    declared (scopes.modify k (refer name place)) i = declared scopes i := by
  rw [declared, declared, List.getElem?_modify]
  cases scopes[i]? with
  | none => rfl
  | some scope =>
      by_cases same : k = i
      · simp [same, keys_refer]
      · simp [same]

theorem lookup_modify_refer (other : Text) (i : Nat) :
    lookup (scopes.modify k (refer name place)) other i = lookup scopes other i := by
  simp only [lookup_eq_find?, chain_modify_refer, declared_modify_refer]

end Scope

/-- The binding that a reference sees. -/
def PendingReference.target (reference : PendingReference) (scopes : List Scope) : Option BindingRef :=
  Scope.lookup scopes reference.name reference.scope

namespace ScopeWalk

variable (table : ScopeTable) (reference : PendingReference)

theorem lookup_resolve (name : Text) (i : Nat) :
    Scope.lookup (resolve table reference).scopes name i = Scope.lookup table.scopes name i := by
  rw [resolve]
  split
  · rfl
  · exact Scope.lookup_modify_refer _ _ _ _ _

theorem binding?_resolve (ref : BindingRef) :
    (resolve table reference).binding? ref =
      if reference.target table.scopes = some ref then (table.binding? ref).map fun binding =>
        { binding with references := binding.references ++ [reference.place] }
      else table.binding? ref := by
  rw [resolve, PendingReference.target]
  cases found : Scope.lookup table.scopes reference.name reference.scope with
  | none => rfl
  | some target =>
      have name := (Scope.lookup_eq_some_iff.mp found).1
      simp only [ScopeTable.binding?, List.getElem?_modify]
      cases table.scopes[ref.scope]? with
      | none => simp
      | some scope =>
          by_cases here : target.scope = ref.scope
          · simp only [here, if_true, Option.map_eq_map, Option.map_some, Option.bind_some,
              Scope.get?_refer]
            by_cases same : ref.name = reference.name
            · have equal : target = ref := by
                cases target
                cases ref
                simp_all
              simp [same, equal]
            · have other : target ≠ ref := by
                rintro rfl
                exact same name
              simp [same, other]
          · have other : target ≠ ref := by
              rintro rfl
              exact here rfl
            simp [here, other]

theorem declared_resolve (i : Nat) :
    Scope.declared (resolve table reference).scopes i = Scope.declared table.scopes i := by
  rw [resolve]
  split
  · rfl
  · exact Scope.declared_modify_refer _ _ _ _

theorem unresolved_resolve :
    (resolve table reference).unresolved =
      table.unresolved ++ if reference.target table.scopes = none then
        [(reference.name, reference.place)] else [] := by
  rw [resolve, PendingReference.target]
  cases Scope.lookup table.scopes reference.name reference.scope with
  | none => rfl
  | some ref => simp

theorem target_resolve (other : PendingReference) :
    other.target (resolve table reference).scopes = other.target table.scopes :=
  lookup_resolve table reference other.name other.scope

end ScopeWalk

/-- A table in which the bindings have the places of the collected references that see them, and the
references that see none are left free. -/
structure ScopeTable.Resolves (pending : List PendingReference) (table : ScopeTable) : Prop where
  nodup : ∀ i, (Scope.declared table.scopes i).Nodup
  references : ∀ ref binding, table.binding? ref = some binding → binding.references =
    (pending.filter fun reference => reference.target table.scopes = some ref).map (·.place)
  unresolved : table.unresolved =
    (pending.filter fun reference => reference.target table.scopes = none).map
      fun reference => (reference.name, reference.place)

namespace ScopeTable.Resolves

theorem ofClean {walk : ScopeWalk} (clean : walk.Clean) (byPlace : Table Range BindingRef) :
    Resolves [] ⟨walk.scopes, [], byPlace⟩ where
  nodup i := by
    rw [Scope.declared]
    cases found : walk.scopes[i]? with
    | none => exact List.nodup_nil
    | some scope => exact (clean scope (List.mem_of_getElem? found)).nodup
  references ref binding found := by
    obtain ⟨scope, mem, known⟩ := Option.bind_eq_some_iff.mp found
    exact (clean scope (List.mem_of_getElem? mem)).references _ (Table.mem_of_get? known)
  unresolved := rfl

/-- One more reference is attached to what it sees. -/
theorem resolve {pending : List PendingReference} {table : ScopeTable}
    (resolves : table.Resolves pending) (reference : PendingReference) :
    (ScopeWalk.resolve table reference).Resolves (pending ++ [reference]) where
  nodup i := by
    rw [ScopeWalk.declared_resolve]
    exact resolves.nodup i
  references ref binding found := by
    simp only [ScopeWalk.target_resolve, List.filter_append, List.map_append]
    rw [ScopeWalk.binding?_resolve] at found
    by_cases sees : reference.target table.scopes = some ref
    · rw [if_pos sees] at found
      obtain ⟨before, known, rfl⟩ := Option.map_eq_some_iff.mp found
      simp [resolves.references ref before known, sees]
    · rw [if_neg sees] at found
      simp [resolves.references ref binding found, sees]
  unresolved := by
    simp only [ScopeWalk.target_resolve, ScopeWalk.unresolved_resolve, List.filter_append,
      List.map_append, resolves.unresolved]
    by_cases free : reference.target table.scopes = none
    · simp [free]
    · simp [free]

theorem foldl_resolve {pending : List PendingReference} {table : ScopeTable}
    (resolves : table.Resolves pending) (row : List PendingReference) :
    (row.foldl ScopeWalk.resolve table).Resolves (pending ++ row) := by
  induction row generalizing pending table with
  | nil =>
      rw [List.append_nil]
      exact resolves
  | cons reference rest ih =>
      have next := ih (resolves.resolve reference)
      rw [List.append_assoc] at next
      exact next

/-- The table of a program resolves the references that the walk through it collects. -/
theorem ofTree (source : Bytes) (skipBefore : Nat) (root : Tree) :
    (ScopeTable.ofTree source skipBefore root).value.Resolves
      (ScopeTable.walk source skipBefore root).pending := by
  have all := (ofClean (clean_walk source skipBefore root)
    (ScopeTable.walk source skipBefore root).byPlace).foldl_resolve
    (ScopeTable.walk source skipBefore root).pending
  exact all

end ScopeTable.Resolves

end Rebundle
