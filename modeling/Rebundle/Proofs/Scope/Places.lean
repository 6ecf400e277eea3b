import Rebundle.Proofs.Scope.References

/-!
# The places of a scope table

A scope table knows no other places than those of the nodes that its walk enters and of the nodes below
them. The program and the errors in it declare nothing themselves.
-/

namespace Rebundle

variable {p : Range → Prop}

/-- Whether all places of the bindings of a scope have a property. -/
def Scope.Places (p : Range → Prop) (scope : Scope) : Prop :=
  ∀ entry ∈ scope.bindings, ∀ place ∈ entry.2.places, p place

namespace Scope.Places

variable {scope : Scope} {name : Text} {place : Range}

theorem declare (places : scope.Places p) (name : Text) (kind : BindingKind) (here : p place) :
    (scope.declare name kind place).Places p := by
  intro entry mem
  rcases Table.mem_put mem with rfl | known
  · cases found : scope.bindings.get? name with
    | none => simpa [Binding.places] using here
    | some binding =>
        have old := places (name, binding) (Table.mem_of_get? found)
        simp only [Binding.places, List.mem_append, List.mem_singleton] at old ⊢
        rintro other ((declares | rfl) | refers)
        · exact old other (.inl declares)
        · exact here
        · exact old other (.inr refers)
  · exact places entry known

theorem refer (places : scope.Places p) (name : Text) (here : p place) :
    (scope.refer name place).Places p := by
  rw [Scope.refer]
  split
  · rename_i binding found
    intro entry mem
    rcases Table.mem_put mem with rfl | known
    · have old := places (name, binding) (Table.mem_of_get? found)
      simp only [Binding.places, List.mem_append, List.mem_singleton] at old ⊢
      rintro other (declares | refers | rfl)
      · exact old other (.inl declares)
      · exact old other (.inr refers)
      · exact here
    · exact places entry known
  · exact places

end Scope.Places

/-- Whether all places that a walk knows of have a property. -/
structure ScopeWalk.Places (p : Range → Prop) (walk : ScopeWalk) : Prop where
  scopes : ∀ scope ∈ walk.scopes, scope.Places p
  pending : ∀ reference ∈ walk.pending, p reference.place
  byPlace : ∀ entry ∈ walk.byPlace, p entry.1

/-- Whether all places of a table have a property: those of its bindings, of its free references, and
those that it finds bindings for. -/
structure ScopeTable.Places (p : Range → Prop) (table : ScopeTable) : Prop where
  scopes : ∀ scope ∈ table.scopes, scope.Places p
  unresolved : ∀ entry ∈ table.unresolved, p entry.2
  byPlace : ∀ entry ∈ table.byPlace, p entry.1

namespace ScopeWalk.Places

variable {walk : ScopeWalk}

theorem openScope (places : walk.Places p) (kind : ScopeKind) (t : Tree) :
    (walk.openScope kind t).Places p where
  scopes := by
    intro scope mem
    rcases List.mem_append.mp mem with known | new
    · exact places.scopes scope known
    · rw [List.mem_singleton.mp new]
      intro entry none
      cases none
  pending := places.pending
  byPlace := places.byPlace

theorem leave (places : walk.Places p) (t : Tree) : (walk.leave t).Places p := by
  rw [ScopeWalk.leave]
  split
  · split
    · exact ⟨places.scopes, places.pending, places.byPlace⟩
    · exact places
  · exact places

theorem declare (places : walk.Places p) (source : Bytes) (scope : Nat) (kind : BindingKind)
    {t : Tree} (here : p t.range) : (walk.declare source scope kind t).Places p := by
  rw [ScopeWalk.declare]
  split
  · exact places
  · refine ⟨Scope.forall_modify places.scopes (fun _ known => known.declare _ _ here) scope,
      places.pending, ?_⟩
    intro entry mem
    rcases Table.mem_put mem with rfl | known
    · exact here
    · exact places.byPlace entry known

theorem collect (places : walk.Places p) {reference : PendingReference} (here : p reference.place) :
    ({ walk with pending := walk.pending ++ [reference] } : ScopeWalk).Places p where
  scopes := places.scopes
  pending := by
    intro other mem
    rcases List.mem_append.mp mem with known | new
    · exact places.pending other known
    · rw [List.mem_singleton.mp new]
      exact here
  byPlace := places.byPlace

/-- Where all nodes below a node have the property, entering it keeps to such places. -/
theorem stable (source : Bytes) {t : Tree} (below : ∀ node ∈ t.nodes, p node.range) :
    Stable source t (ScopeWalk.Places p) where
  opens _ kind places := places.openScope kind t
  declares _ scope kind name mem _ places := places.declare source scope kind (below name mem)
  ignores _ _ places := ⟨places.scopes, places.pending, places.byPlace⟩
  notes _ _ places := ⟨places.scopes, places.pending, places.byPlace⟩
  collects _ places := places.collect (below t (Tree.self_mem_nodes t))

/-- Entering the program or an error declares and collects nothing. -/
theorem enter (places : walk.Places p) (source : Bytes) {cursor : Cursor}
    (below : cursor.kind ≠ .program → cursor.kind ≠ .error →
      ∀ node ∈ cursor.focus.nodes, p node.range) :
    (walk.enter source cursor).Places p := by
  by_cases program : cursor.focus.kind = .program
  · simpa [ScopeWalk.enter, program, Kind.opensFunction, Kind.opensBlock,
      Kind.isVariableDeclaration, Kind.isName] using places
  · by_cases error : cursor.focus.kind = .error
    · simpa [ScopeWalk.enter, error, Kind.opensFunction, Kind.opensBlock,
        Kind.isVariableDeclaration, Kind.isName] using places
    · exact (stable source (below program error)).enter places

end ScopeWalk.Places

namespace ScopeTable

theorem Places.resolve {table : ScopeTable} (places : table.Places p) {reference : PendingReference}
    (here : p reference.place) : (ScopeWalk.resolve table reference).Places p := by
  rw [ScopeWalk.resolve]
  split
  · refine ⟨places.scopes, ?_, places.byPlace⟩
    intro entry mem
    rcases List.mem_append.mp mem with known | new
    · exact places.unresolved entry known
    · rw [List.mem_singleton.mp new]
      exact here
  · refine ⟨Scope.forall_modify places.scopes (fun _ known => known.refer _ here) _,
      places.unresolved, ?_⟩
    intro entry mem
    rcases Table.mem_put mem with rfl | known
    · exact here
    · exact places.byPlace entry known

theorem Places.foldl_resolve {table : ScopeTable} (places : table.Places p)
    {row : List PendingReference} (here : ∀ reference ∈ row, p reference.place) :
    (row.foldl ScopeWalk.resolve table).Places p := by
  induction row generalizing table with
  | nil => exact places
  | cons reference rest ih =>
      exact ih (places.resolve (here reference List.mem_cons_self))
        fun other mem => here other (List.mem_cons_of_mem _ mem)

/-- The places of a table have every property that all nodes have that lie below a node entered. -/
theorem places_ofTree (source : Bytes) {skipBefore : Nat} {root : Tree}
    (entered : ∀ t ∈ root.nodes, skipBefore < t.stop → t.kind ≠ .program → t.kind ≠ .error →
      ∀ node ∈ t.nodes, p node.range) :
    (ScopeTable.ofTree source skipBefore root).value.Places p := by
  have walked : (ScopeTable.walk source skipBefore root).Places p := by
    apply Visitor.walk_preserves (ScopeWalk.Places p)
    · intro cursor walk stands places
      simp only [ScopeWalk.visitor]
      split
      · exact places
      · rename_i visits
        simp only [Bool.and_eq_true, decide_eq_true_eq, bne_iff_ne, ne_eq, not_and, Decidable.not_not]
          at visits
        refine places.enter source fun program error => ?_
        refine entered cursor.focus (stands ▸ cursor.focus_mem_whole) ?_ program error
        rw [← Nat.not_le]
        exact fun early => program (visits early)
    · intro cursor walk _ places
      exact places.leave cursor.focus
    · exact ScopeWalk.Places.openScope
        ⟨by simp [ScopeWalk.start], by simp [ScopeWalk.start], by simp [ScopeWalk.start]⟩ _ _
  have start : ScopeTable.Places p ⟨(ScopeTable.walk source skipBefore root).scopes, [],
      (ScopeTable.walk source skipBefore root).byPlace⟩ :=
    ⟨walked.scopes, by simp, walked.byPlace⟩
  exact start.foldl_resolve walked.pending

end ScopeTable

end Rebundle
