import Mathlib.Data.List.Nodup
import Rebundle.Proofs.Rewrite.Frame
import Rebundle.Proofs.Scope.References

/-!
# Captured names

Renaming warns of a scope that declares a configured name and its new name. Between scopes nothing is
checked: a new name may be that of a binding which a reference crosses, or the text of a free
reference, and two names of one scope may get the same new name. Without a warning these three are all
that can go wrong.
-/

namespace Rebundle

open Scope

/-- The scope with its bindings under their final names. -/
def Scope.renamed (final : Text → Text) (scope : Scope) : Scope :=
  { scope with bindings := scope.bindings.map fun (name, binding) => (final name, binding) }

namespace Scope

variable (final : Text → Text) (scopes : List Scope)

theorem chain_renamed (i : Nat) : chain (scopes.map (renamed final)) i = chain scopes i := by
  apply chain_congr
  intro j
  rw [List.getElem?_map]
  cases scopes[j]? <;> rfl

theorem crossed_renamed (i outer : Nat) :
    crossed (scopes.map (renamed final)) i outer = crossed scopes i outer := by
  rw [crossed, crossed, chain_renamed]

theorem declared_renamed (i : Nat) :
    declared (scopes.map (renamed final)) i = (declared scopes i).map final := by
  rw [declared, declared, List.getElem?_map]
  cases scopes[i]? with
  | none => rfl
  | some scope =>
      simp only [Option.map_some, Option.getD_some, renamed, Table.keys, List.map_map]
      rfl

/-- Whether looking up the final name of a binding leads to this binding and to no other. -/
def Finds (i : Nat) (ref : BindingRef) : Prop :=
  lookup (scopes.map (renamed final)) (final ref.name) i = some ⟨ref.scope, final ref.name⟩ ∧
    ∀ name ∈ declared scopes ref.scope, final name = final ref.name → name = ref.name

instance (i : Nat) (ref : BindingRef) : Decidable (Finds final scopes i ref) :=
  inferInstanceAs (Decidable (_ ∧ _))

variable {final scopes}

/-- The final name of a binding that a reference sees finds the binding again unless a scope crossed
on the way or the scope of the binding has another binding with this final name. -/
theorem finds_iff {name : Text} {i : Nat} {ref : BindingRef}
    (sees : lookup scopes name i = some ref) :
    Finds final scopes i ref ↔
      (∀ j ∈ crossed scopes i ref.scope, ∀ other ∈ declared scopes j,
        final other ≠ final ref.name) ∧
      ∀ other ∈ declared scopes ref.scope, final other = final ref.name → other = ref.name := by
  obtain ⟨rfl, mem, declares, _⟩ := lookup_eq_some_iff.mp sees
  rw [Finds, lookup_eq_some_iff]
  simp only [chain_renamed, crossed_renamed, declared_renamed, List.mem_map, not_exists, not_and,
    true_and]
  constructor
  · rintro ⟨⟨_, _, front⟩, alone⟩
    exact ⟨front, alone⟩
  · rintro ⟨front, alone⟩
    exact ⟨⟨mem, ⟨ref.name, declares, rfl⟩, front⟩, alone⟩

end Scope

theorem ScopeTable.exists_bindingsNamed {table : ScopeTable} {name : Text} {i : Nat} :
    (∃ bound ∈ table.bindingsNamed name, bound.1.scope = i) ↔ name ∈ declared table.scopes i := by
  constructor
  · rintro ⟨⟨ref, binding⟩, mem, rfl⟩
    obtain ⟨known, same⟩ := List.mem_filter.mp mem
    obtain ⟨⟨scope, j⟩, at_, entry⟩ := List.mem_flatMap.mp known
    obtain ⟨⟨other, _⟩, here, made⟩ := List.mem_map.mp entry
    cases made
    have found : table.scopes[j]? = some scope := List.mem_zipIdx_iff_getElem?.mp at_
    have equal : other = name := by simpa using same
    rw [declared, found]
    exact equal ▸ List.mem_map_of_mem here
  · intro declares
    rw [declared] at declares
    cases found : table.scopes[i]? with
    | none =>
        rw [found] at declares
        cases declares
    | some scope =>
        rw [found] at declares
        obtain ⟨⟨other, binding⟩, here, rfl⟩ := List.mem_map.mp declares
        refine ⟨(⟨i, other⟩, binding), ?_, rfl⟩
        refine List.mem_filter.mpr ⟨List.mem_flatMap.mpr ⟨(scope, i), ?_, ?_⟩, by simp⟩
        · exact List.mem_zipIdx_iff_getElem?.mpr found
        · exact List.mem_map.mpr ⟨(other, binding), here, rfl⟩

namespace Renaming

/-- The name that a binding carries in the end. -/
def finalName (renames : Table Text Text) (name : Text) : Text := (renames.get? name).getD name

/-- The report of a new name that a scope has already. -/
def collision (entry : Text × Text) : Text :=
  "renaming " ++ entry.1 ++ " to " ++ entry.2 ++ " collides with an existing " ++ entry.2
    ++ " in the same scope"

/-- The reports for one configured name: one for each of its bindings in a scope with the new name. -/
def collisions (table : ScopeTable) (entry : Text × Text) : List Text :=
  ((table.bindingsNamed entry.1).filter fun bound =>
    (declared table.scopes bound.1.scope).contains entry.2).map fun _ => collision entry

theorem warnings_renameBinding (entry : Text × Text) (ref : BindingRef) (binding : Binding)
    (rewrite : Rewrite) :
    (renameBinding entry.1 entry.2 ref binding rewrite).warnings =
      rewrite.warnings ++
        if (declared rewrite.scopes.scopes ref.scope).contains entry.2 then [collision entry]
        else [] := by
  have taken : ((rewrite.scopes.scopes[ref.scope]?).any fun scope =>
      scope.bindings.contains entry.2) =
        (declared rewrite.scopes.scopes ref.scope).contains entry.2 := by
    rw [declared]
    cases rewrite.scopes.scopes[ref.scope]? with
    | none => rfl
    | some scope =>
        rw [Bool.eq_iff_iff]
        simp [Table.contains_iff]
  simp only [renameBinding, taken]
  split
  · rfl
  · exact (List.append_nil _).symm

theorem warnings_renameAll (rewrite : Rewrite) (entry : Text × Text) :
    (renameAll rewrite entry).warnings = rewrite.warnings ++ collisions rewrite.scopes entry := by
  have step (bound : List (BindingRef × Binding)) (state : Rewrite)
      (same : state.scopes = rewrite.scopes) :
      (bound.foldl (fun rewrite bound =>
        renameBinding entry.1 entry.2 bound.1 bound.2 rewrite) state).warnings =
      state.warnings ++ (bound.filter fun bound =>
        (declared rewrite.scopes.scopes bound.1.scope).contains entry.2).map
          fun _ => collision entry := by
    induction bound generalizing state with
    | nil => simp
    | cons first rest ih =>
        have next := ih (renameBinding entry.1 entry.2 first.1 first.2 state)
          ((keeps_renameBinding _ _ _ _ _).scopes.trans same)
        rw [List.foldl_cons]
        refine next.trans ?_
        rw [warnings_renameBinding, same, List.filter_cons]
        split <;> simp
  rw [renameAll]
  split
  · rename_i none
    rw [collisions, none]
    exact (List.append_nil _).symm
  · exact step _ rewrite rfl

/-- Preparing a renaming reports all collisions, in the order of the configured names. -/
theorem warnings_prepare (rewrite : Rewrite) :
    (prepare rewrite).warnings = rewrite.warnings ++
      rewrite.config.renameIdentifiers.flatMap (collisions rewrite.scopes) := by
  have step (entries : List (Text × Text)) (state : Rewrite)
      (same : state.scopes = rewrite.scopes) :
      (entries.foldl renameAll state).warnings =
        state.warnings ++ entries.flatMap (collisions rewrite.scopes) := by
    induction entries generalizing state with
    | nil => simp
    | cons entry rest ih =>
        rw [List.foldl_cons, ih _ ((keeps_renameAll _ _).scopes.trans same), warnings_renameAll, same,
          List.flatMap_cons, List.append_assoc]
  exact step _ rewrite rfl

/-- Nothing is reported if and only if no scope declares a configured name and its new name. -/
theorem quiet_iff {rewrite : Rewrite} :
    (prepare rewrite).warnings = rewrite.warnings ↔
      ∀ entry ∈ rewrite.config.renameIdentifiers, ∀ i, entry.1 ∈ declared rewrite.scopes.scopes i →
        entry.2 ∉ declared rewrite.scopes.scopes i := by
  rw [warnings_prepare, List.append_right_eq_self, List.flatMap_eq_nil_iff]
  constructor
  · intro quiet entry mem i declares taken
    obtain ⟨bound, known, rfl⟩ := ScopeTable.exists_bindingsNamed.mpr declares
    have none := List.map_eq_nil_iff.mp (quiet entry mem)
    have free := List.filter_eq_nil_iff.mp none bound known
    exact free (List.contains_iff_mem.mpr taken)
  · intro free entry mem
    rw [collisions, List.map_eq_nil_iff, List.filter_eq_nil_iff]
    intro bound known taken
    have declares := ScopeTable.exists_bindingsNamed.mp ⟨bound, known, rfl⟩
    exact free entry mem _ declares (List.contains_iff_mem.mp taken)

/-- What the final names should keep: the bindings of a scope apart, every reference on its binding,
and the free references free. -/
structure CaptureFree (final : Text → Text) (pending : List PendingReference) (scopes : List Scope) :
    Prop where
  apart : ∀ i, (declared (scopes.map (renamed final)) i).Nodup
  bound : ∀ reference ∈ pending, ∀ ref, reference.target scopes = some ref →
    Finds final scopes reference.scope ref
  free : ∀ reference ∈ pending, reference.target scopes = none →
    lookup (scopes.map (renamed final)) reference.name reference.scope = none

/-- Whether no two of these names are configured to become one. -/
def Unmerged (renames : Table Text Text) (names : List Text) : Prop :=
  ∀ name ∈ names, ∀ other ∈ names, (renames.get? name).isSome →
    renames.get? name = renames.get? other → name = other

/-- Whether the new names are different, and new to the scopes and to the references. -/
structure Fresh (renames : Table Text Text) (pending : List PendingReference) (scopes : List Scope) :
    Prop where
  injective : ∀ name other new, renames.get? name = some new → renames.get? other = some new →
    name = other
  undeclared : ∀ name new, renames.get? name = some new → ∀ i, new ∉ declared scopes i
  unreferred : ∀ name new, renames.get? name = some new → ∀ reference ∈ pending, reference.name ≠ new

section

variable {renames : Table Text Text}

theorem finalName_of_some {name new : Text} (configured : renames.get? name = some new) :
    finalName renames name = new := by
  rw [finalName, configured]
  rfl

theorem finalName_of_none {name : Text} (absent : renames.get? name = none) :
    finalName renames name = name := by
  rw [finalName, absent]
  rfl

/-- Whether no name of a row has its new name in the row. -/
def Apart (renames : Table Text Text) (names : List Text) : Prop :=
  ∀ name ∈ names, ∀ new, renames.get? name = some new → new ∉ names

theorem Apart.get?_eq_none {names : List Text} (apart : Apart renames names) {name : Text}
    (mem : name ∈ names) (inside : finalName renames name ∈ names) : renames.get? name = none := by
  cases configured : renames.get? name with
  | none => rfl
  | some new =>
      rw [finalName_of_some configured] at inside
      exact absurd inside (apart name mem new configured)

/-- Final names agree for names that are configured to become one, and for no others. -/
theorem Apart.finalName_eq_iff {names : List Text} (apart : Apart renames names) {name other : Text}
    (mem : name ∈ names) (mem' : other ∈ names) :
    finalName renames name = finalName renames other ↔
      name = other ∨ (renames.get? name).isSome ∧ renames.get? name = renames.get? other := by
  constructor
  · intro same
    cases first : renames.get? name with
    | none =>
        rw [finalName_of_none first] at same
        have second := apart.get?_eq_none mem' (same ▸ mem)
        rw [finalName_of_none second] at same
        exact .inl same
    | some new =>
        cases second : renames.get? other with
        | none =>
            rw [finalName_of_none second] at same
            have none := apart.get?_eq_none mem (same ▸ mem')
            rw [first] at none
            cases none
        | some new' =>
            rw [finalName_of_some first, finalName_of_some second] at same
            exact .inr ⟨rfl, congrArg some same⟩
  · rintro (rfl | ⟨configured, same⟩)
    · rfl
    · obtain ⟨new, first⟩ := Option.isSome_iff_exists.mp configured
      rw [finalName_of_some first, finalName_of_some (same ▸ first)]

theorem Apart.nodup_iff {names : List Text} (apart : Apart renames names) (nodup : names.Nodup) :
    (names.map (finalName renames)).Nodup ↔ Unmerged renames names := by
  rw [List.nodup_map_iff_inj_on nodup]
  constructor
  · intro injective name mem other mem' configured same
    exact injective name mem other mem'
      ((apart.finalName_eq_iff mem mem').mpr (.inr ⟨configured, same⟩))
  · intro unmerged name mem other mem' same
    rcases (apart.finalName_eq_iff mem mem').mp same with equal | ⟨configured, same⟩
    · exact equal
    · exact unmerged name mem other mem' configured same

/-- A free reference stays free unless a scope that it sees declares a name that becomes its text. -/
theorem stays_free_iff {scopes : List Scope} {text : Text} {i : Nat}
    (free : lookup scopes text i = none) :
    lookup (scopes.map (renamed (finalName renames))) text i = none ↔
      ∀ j ∈ chain scopes i, ∀ name ∈ declared scopes j, renames.get? name ≠ some text := by
  rw [lookup_eq_none_iff] at free ⊢
  simp only [chain_renamed, declared_renamed, List.mem_map, not_exists, not_and]
  constructor
  · intro stays j mem name declares configured
    exact stays j mem name declares (finalName_of_some configured)
  · intro unclaimed j mem name declares same
    cases configured : renames.get? name with
    | none =>
        rw [finalName_of_none configured] at same
        exact free j mem (same ▸ declares)
    | some new =>
        rw [finalName_of_some configured] at same
        exact unclaimed j mem name declares (same ▸ configured)

/-- Under fresh names declared names keep apart, wherever they are declared. -/
theorem Fresh.finalName_injective {pending : List PendingReference} {scopes : List Scope}
    (fresh : Fresh renames pending scopes) {i j : Nat} {name other : Text}
    (declares : name ∈ declared scopes i) (declares' : other ∈ declared scopes j)
    (same : finalName renames name = finalName renames other) : name = other := by
  have apart : Apart renames (declared scopes i ++ declared scopes j) := by
    intro name _ new configured mem
    rcases List.mem_append.mp mem with mem | mem
    · exact fresh.undeclared name new configured i mem
    · exact fresh.undeclared name new configured j mem
  rcases (apart.finalName_eq_iff (List.mem_append_left _ declares)
    (List.mem_append_right _ declares')).mp same with equal | ⟨configured, same⟩
  · exact equal
  · obtain ⟨new, first⟩ := Option.isSome_iff_exists.mp configured
    exact fresh.injective name other new first (same ▸ first)

/-- Renaming to fresh names captures nothing. -/
theorem Fresh.captureFree {pending : List PendingReference} {table : ScopeTable}
    (fresh : Fresh renames pending table.scopes) (resolves : table.Resolves pending) :
    CaptureFree (finalName renames) pending table.scopes where
  apart i := by
    rw [declared_renamed, List.nodup_map_iff_inj_on (resolves.nodup i)]
    intro name declares other declares' same
    exact fresh.finalName_injective declares declares' same
  bound := by
    intro reference mem ref sees
    rw [finds_iff sees]
    obtain ⟨name, _, declares, front⟩ := lookup_eq_some_iff.mp sees
    constructor
    · intro j crosses other declares' same
      have equal := fresh.finalName_injective declares' (name ▸ declares) same
      exact front j crosses (name ▸ equal ▸ declares')
    · intro other declares' same
      exact fresh.finalName_injective declares' (name ▸ declares) same
  free := by
    intro reference mem sees
    rw [stays_free_iff sees]
    intro j _ name _ configured
    exact fresh.unreferred name reference.name configured reference mem rfl

end

/-- A renaming without a warning: no scope declares a configured name and its new name. The bindings of
a scope stay apart if and only if no two of them are configured to become one; a reference stays on
its binding if and only if no scope crossed on the way has a binding with the same final name, and its
binding stays apart; a free reference stays free if and only if no name in its scopes becomes its
text. -/
theorem quiet_captures {source : Bytes} {skipBefore : Nat} {root : Tree} {rewrite : Rewrite}
    (analysed : rewrite.scopes = (ScopeTable.ofTree source skipBefore root).value)
    (quiet : (prepare rewrite).warnings = rewrite.warnings) :
    let renames := rewrite.config.renameIdentifiers
    let final := finalName renames
    let pending := (ScopeTable.walk source skipBefore root).pending
    let scopes := rewrite.scopes.scopes
    rewrite.scopes.Resolves pending ∧
    (∀ entry ∈ renames, ∀ i, entry.1 ∈ declared scopes i → entry.2 ∉ declared scopes i) ∧
    (∀ i, (declared (scopes.map (renamed final)) i).Nodup ↔ Unmerged renames (declared scopes i)) ∧
    (∀ reference ∈ pending, ∀ ref, reference.target scopes = some ref →
      (Finds final scopes reference.scope ref ↔
        (∀ j ∈ crossed scopes reference.scope ref.scope, ∀ name ∈ declared scopes j,
          final name ≠ final ref.name) ∧
        ∀ name ∈ declared scopes ref.scope, (renames.get? name).isSome →
          renames.get? name = renames.get? ref.name → name = ref.name)) ∧
    (∀ reference ∈ pending, reference.target scopes = none →
      (lookup (scopes.map (renamed final)) reference.name reference.scope = none ↔
        ∀ j ∈ chain scopes reference.scope, ∀ name ∈ declared scopes j,
          renames.get? name ≠ some reference.name)) ∧
    (Fresh renames pending scopes → CaptureFree final pending scopes) := by
  intro renames final pending scopes
  have resolves : rewrite.scopes.Resolves pending := by
    rw [analysed]
    exact .ofTree source skipBefore root
  have uncollided := quiet_iff.mp quiet
  have apart (i : Nat) : Apart renames (declared scopes i) := by
    intro name declares new configured
    exact uncollided (name, new) (Table.mem_of_get? configured) i declares
  refine ⟨resolves, uncollided, ?_, ?_, ?_, ?_⟩
  · intro i
    rw [declared_renamed]
    exact (apart i).nodup_iff (resolves.nodup i)
  · intro reference mem ref sees
    obtain ⟨name, _, declares, _⟩ := lookup_eq_some_iff.mp sees
    rw [finds_iff sees]
    refine and_congr_right fun _ => ?_
    constructor
    · intro alone other declares' configured same
      exact alone other declares'
        (((apart _).finalName_eq_iff declares' (name ▸ declares)).mpr (.inr ⟨configured, same⟩))
    · intro alone other declares' same
      rcases ((apart _).finalName_eq_iff declares' (name ▸ declares)).mp same with
        equal | ⟨configured, same⟩
      · exact equal
      · exact alone other declares' configured same
  · intro reference mem free
    exact stays_free_iff free
  · intro fresh
    exact fresh.captureFree resolves

/-- The program `let a,c,e` with `b=>a` and `d` on the next lines. -/
def entangled : Prepared where
  source := [0x6C, 0x65, 0x74, 0x20, 0x61, 0x2C, 0x63, 0x2C, 0x65, 0x0A,
    0x62, 0x3D, 0x3E, 0x61, 0x0A, 0x64]
  start := 0
  root :=
    let leaf (kind : Kind) (role : Option Role) (start stop : Nat) : Tree :=
      .node ⟨kind, role, ⟨start, stop⟩, false⟩ []
    let declarator (start : Nat) : Tree :=
      .node ⟨.variableDeclarator, none, ⟨start, start + 1⟩, false⟩
        [leaf .identifier (some .name) start (start + 1)]
    .node ⟨.program, none, ⟨0, 16⟩, false⟩ [
      .node ⟨.lexicalDeclaration, none, ⟨0, 9⟩, false⟩ [
        leaf (.token "let") (some .kind) 0 3, declarator 4, leaf (.token ",") none 5 6,
        declarator 6, leaf (.token ",") none 7 8, declarator 8],
      .node ⟨.expressionStatement, none, ⟨10, 14⟩, false⟩ [
        .node ⟨.arrowFunction, none, ⟨10, 14⟩, false⟩ [
          leaf .identifier (some .parameter) 10 11, leaf (.token "=>") none 11 13,
          leaf .identifier (some .body) 13 14]],
      .node ⟨.expressionStatement, none, ⟨15, 16⟩, false⟩ [leaf .identifier none 15 16]]

/-- Renaming `a` to `b`, and both `c` and `e` to `d`. -/
def entangling : PatchConfig :=
  { PatchConfig.empty with renameIdentifiers := [("a", "b"), ("c", "d"), ("e", "d")] }

/-- The renaming of `entangled` before it begins. -/
def entangledStart : Rewrite :=
  Patcher.start entangling entangled (Patcher.scopesFor entangling entangled).value

theorem entangled_quiet_captures :
    (prepare entangledStart).warnings = entangledStart.warnings ∧
      ∀ i, (declared (entangledStart.scopes.scopes.map
          (renamed (finalName entangling.renameIdentifiers))) i).Nodup ↔
        Unmerged entangling.renameIdentifiers (declared entangledStart.scopes.scopes i) := by
  have quiet : (prepare entangledStart).warnings = entangledStart.warnings := by decide +kernel
  have analysed : entangledStart.scopes =
      (ScopeTable.ofTree entangled.source entangled.start entangled.root).value := rfl
  exact ⟨quiet, (quiet_captures analysed quiet).2.2.1⟩

/-- Nothing warns of it that two bindings of `entangled` get one name, that the new name of `a` is bound
by a parameter where `a` is used, and that the free `d` gets bound. -/
theorem entangled_not_captureFree :
    let pending := (ScopeTable.walk entangled.source entangled.start entangled.root).pending
    let scopes := entangledStart.scopes.scopes
    let final := finalName entangling.renameIdentifiers
    (prepare entangledStart).warnings = entangledStart.warnings ∧
      ¬ (declared (scopes.map (renamed final)) 0).Nodup ∧
      (∃ reference ∈ pending, reference.target scopes = some ⟨0, "a"⟩ ∧
        ¬ Finds final scopes reference.scope ⟨0, "a"⟩) ∧
      (∃ reference ∈ pending, reference.target scopes = none ∧
        lookup (scopes.map (renamed final)) reference.name reference.scope ≠ none) := by
  decide +kernel

end Renaming

end Rebundle
