import Rebundle.Proofs.Scope.Declared

/-!
# Places and their bindings

A table finds a binding at a place exactly where the binding has the place. Declaring a name attaches a new
place to a binding, and so does resolving a reference; a place that is attached stays where it is.
-/

namespace Rebundle

namespace Scope

/-- The binding of a name with one more declaration, when `old` was known of it. -/
def declaring (kind : BindingKind) (place : Range) (old : Option Binding) : Binding :=
  match old with
  | some binding => { binding with declarations := binding.declarations ++ [place] }
  | none => ⟨kind, [place], []⟩

theorem get?_declare (scope : Scope) (name other : Text) (kind : BindingKind) (place : Range) :
    (scope.declare name kind place).bindings.get? other =
      if other = name then some (declaring kind place (scope.bindings.get? name))
      else scope.bindings.get? other := by
  exact Table.get?_put _ _ _ _

theorem declarations_declaring (kind : BindingKind) (place : Range) (old : Option Binding) :
    (declaring kind place old).declarations ≠ [] := by
  cases old <;> simp [declaring]

theorem places_declaring (kind : BindingKind) (place : Range) (old : Option Binding) :
    (declaring kind place old).places.Perm (place :: (old.map Binding.places).getD []) := by
  cases old with
  | none => exact List.Perm.refl _
  | some binding =>
      simp only [declaring, Binding.places, Option.map_some, Option.getD_some, List.append_assoc]
      exact List.perm_middle

end Scope

namespace ScopeTable

variable {table next : ScopeTable} {place : Range} {ref : BindingRef} {binding : Binding}

/-- Whether a table finds a binding at a place exactly where the binding has the place, no binding has a
place twice, and every binding is declared somewhere. -/
structure Attaches (table : ScopeTable) : Prop where
  found : ∀ place ref, table.bindingFor place = some ref ↔
    ∃ binding, table.binding? ref = some binding ∧ place ∈ binding.places
  once : ∀ ref binding, table.binding? ref = some binding → binding.places.Nodup
  declared : ∀ ref binding, table.binding? ref = some binding → binding.declarations ≠ []

namespace Attaches

/-- A new place is attached to a binding. -/
theorem attach (attaches : table.Attaches) (ref : BindingRef) (binding : Binding)
    (fresh : table.bindingFor place = none)
    (bindingFor : ∀ other, next.bindingFor other = if other = place then some ref else table.bindingFor other)
    (same : ∀ other, other ≠ ref → next.binding? other = table.binding? other)
    (grown : next.binding? ref = some binding) (declared : binding.declarations ≠ [])
    (places : binding.places.Perm (place :: ((table.binding? ref).map Binding.places).getD [])) :
    next.Attaches := by
  have before {other : Range} : other ∈ ((table.binding? ref).map Binding.places).getD [] ↔
      table.bindingFor other = some ref := by
    rw [attaches.found]
    cases table.binding? ref <;> simp
  have absent : place ∉ ((table.binding? ref).map Binding.places).getD [] := by
    rw [before, fresh]
    simp
  refine ⟨fun other ref' => ?_, fun ref' binding' found => ?_, fun ref' binding' found => ?_⟩
  · rw [bindingFor]
    by_cases own : ref' = ref
    · subst own
      simp only [grown, Option.some.injEq, exists_eq_left', places.mem_iff, List.mem_cons, before]
      by_cases here : other = place <;> simp [here]
    · rw [same ref' own, ← attaches.found]
      by_cases here : other = place
      · simp [here, fresh, Ne.symm own]
      · simp [here]
  · by_cases own : ref' = ref
    · subst own
      rw [grown] at found
      cases found
      refine places.nodup_iff.mpr (List.nodup_cons.mpr ⟨absent, ?_⟩)
      cases known : table.binding? ref' with
      | none => exact List.nodup_nil
      | some old => exact attaches.once ref' old known
    · rw [same ref' own] at found
      exact attaches.once ref' binding' found
  · by_cases own : ref' = ref
    · subst own
      rw [grown] at found
      cases found
      exact declared
    · rw [same ref' own] at found
      exact attaches.declared ref' binding' found

theorem bindingFor_resolve_of_sees {reference : PendingReference}
    (sees : reference.target table.scopes = some ref) (other : Range) :
    (ScopeWalk.resolve table reference).bindingFor other =
      if other = reference.place then some ref else table.bindingFor other := by
  rw [PendingReference.target] at sees
  rw [ScopeWalk.resolve, sees]
  exact Table.get?_put _ _ _ _

/-- A reference at a new place is attached to the binding that it sees. -/
theorem resolve (attaches : table.Attaches) {reference : PendingReference}
    (fresh : table.bindingFor reference.place = none) : (ScopeWalk.resolve table reference).Attaches := by
  cases sees : reference.target table.scopes with
  | none =>
      have unchanged : ScopeWalk.resolve table reference =
          { table with unresolved := table.unresolved ++ [(reference.name, reference.place)] } := by
        rw [PendingReference.target] at sees
        rw [ScopeWalk.resolve, sees]
      rw [unchanged]
      exact ⟨attaches.found, attaches.once, attaches.declared⟩
  | some ref =>
      have name := (Scope.lookup_eq_some_iff.mp sees).1
      have known : (table.binding? ref).isSome = true := by
        rw [isSome_binding?, name]
        exact (Scope.lookup_eq_some_iff.mp sees).2.2.1
      obtain ⟨binding, known⟩ := Option.isSome_iff_exists.mp known
      refine attaches.attach ref { binding with references := binding.references ++ [reference.place] } fresh
        (fun other => ?_) (fun other differ => ?_) ?_ (attaches.declared ref binding known) ?_
      · rw [bindingFor_resolve_of_sees sees]
      · rw [ScopeWalk.binding?_resolve, if_neg]
        rw [sees]
        exact fun same => differ (Option.some.inj same).symm
      · rw [ScopeWalk.binding?_resolve, if_pos sees, known]
        rfl
      · rw [known, Option.map_some, Option.getD_some, Binding.places, Binding.places, ← List.append_assoc]
        exact List.perm_append_comm

/-- References at new places, each at its own one. -/
theorem foldl_resolve (attaches : table.Attaches) {row : List PendingReference}
    (fresh : ∀ reference ∈ row, table.bindingFor reference.place = none) (once : (row.map (·.place)).Nodup) :
    (row.foldl ScopeWalk.resolve table).Attaches := by
  induction row generalizing table with
  | nil => exact attaches
  | cons reference rest ih =>
      obtain ⟨absent, once⟩ := List.nodup_cons.mp once
      rw [List.forall_mem_cons] at fresh
      refine ih (attaches.resolve fresh.1) (fun other mem => ?_) once
      rw [bindingFor_resolve fun same => absent (List.mem_map.mpr ⟨other, mem, same.symm⟩)]
      exact fresh.2 other mem

end Attaches

end ScopeTable

namespace ScopeWalk

variable {source : Bytes} {walk : ScopeWalk} {i : Nat} {t : Tree}

/-- What a walk knows of places and bindings, as a table. -/
def table (walk : ScopeWalk) : ScopeTable := ⟨walk.scopes, [], walk.byPlace⟩

/-- A walk that finds the bindings of the declared places. -/
structure Attaches (walk : ScopeWalk) : Prop where
  ready : walk.Ready
  table : walk.table.Attaches
  declared : ∀ place, place ∈ walk.declared ↔ (walk.table.bindingFor place).isSome = true

namespace Attaches

theorem binding?_openScope (kind : ScopeKind) (t : Tree) (walk : ScopeWalk) (ref : BindingRef) :
    (walk.openScope kind t).table.binding? ref = walk.table.binding? ref := by
  simp only [ScopeTable.binding?, ScopeWalk.table, openScope]
  by_cases early : ref.scope < walk.scopes.length
  · rw [List.getElem?_append_left early]
  · rw [List.getElem?_append_right (by omega), List.getElem?_eq_none (by omega : walk.scopes.length ≤ ref.scope)]
    cases ref.scope - walk.scopes.length <;> simp [Table.get?]

theorem binding?_declare {unresolved : List (Text × Range)} {byPlace : Table Range BindingRef}
    (known : i < walk.scopes.length) (name : Text) (kind : BindingKind) (place : Range) (ref : BindingRef) :
    (⟨walk.scopes.modify i (·.declare name kind place), unresolved, byPlace⟩ : ScopeTable).binding? ref =
      if ref = ⟨i, name⟩ then some (Scope.declaring kind place (walk.table.binding? ref))
      else walk.table.binding? ref := by
  obtain ⟨j, other⟩ := ref
  simp only [ScopeTable.binding?, ScopeWalk.table, List.getElem?_modify, BindingRef.mk.injEq]
  by_cases here : i = j
  · subst here
    simp only [List.getElem?_eq_getElem known, if_true, Option.map_eq_map, Option.map_some, Option.bind_some,
      Scope.get?_declare, true_and]
    by_cases same : other = name
    · simp [same]
    · simp [same]
  · cases walk.scopes[j]? <;> simp [here, Ne.symm here]

theorem openScope (attaches : walk.Attaches) (kind : ScopeKind) (t : Tree) : (walk.openScope kind t).Attaches where
  ready := {
    opened := by simp [ScopeWalk.openScope]
    known := by
      intro o mem
      simp only [ScopeWalk.openScope, List.length_append, List.length_singleton]
      rcases List.mem_cons.mp mem with rfl | mem
      · exact Nat.lt_succ_self _
      · exact Nat.lt_succ_of_lt (attaches.ready.known o mem) }
  table := by
    refine ⟨fun place ref => ?_, fun ref binding found => ?_, fun ref binding found => ?_⟩
    · rw [binding?_openScope]
      exact attaches.table.found place ref
    · rw [binding?_openScope] at found
      exact attaches.table.once ref binding found
    · rw [binding?_openScope] at found
      exact attaches.table.declared ref binding found
  declared := attaches.declared

theorem leave (attaches : walk.Attaches) (t : Tree) : (walk.leave t).Attaches := by
  rw [ScopeWalk.leave]
  split
  · rename_i innermost outer rest row
    split
    · refine ⟨⟨List.cons_ne_nil _ _, fun o mem => ?_⟩, attaches.table, attaches.declared⟩
      exact attaches.ready.known o (row ▸ List.mem_cons_of_mem _ mem)
    · exact attaches
  · exact attaches

theorem declare (attaches : walk.Attaches) (known : i < walk.scopes.length) (kind : BindingKind) (t : Tree) :
    (walk.declare source i kind t).Attaches := by
  rw [ScopeWalk.declare]
  split
  · exact attaches
  · rename_i unknown
    have absent : t.range ∉ walk.declared := by simpa using unknown
    have fresh : walk.table.bindingFor t.range = none := by
      rw [attaches.declared] at absent
      exact Option.not_isSome_iff_eq_none.mp absent
    refine ⟨⟨attaches.ready.opened, ?_⟩, attaches.table.attach ⟨i, t.text source⟩
      (Scope.declaring kind t.range (walk.table.binding? ⟨i, t.text source⟩)) fresh (fun other => ?_)
      (fun other differ => ?_) ?_ (Scope.declarations_declaring _ _ _) (Scope.places_declaring _ _ _), ?_⟩
    · simpa using attaches.ready.known
    · exact Table.get?_put t.range other _ _
    · exact (binding?_declare known _ _ _ other).trans (if_neg differ)
    · exact (binding?_declare known _ _ _ _).trans (if_pos rfl)
    · intro place
      rw [List.mem_cons, attaches.declared]
      simp only [ScopeTable.bindingFor, ScopeWalk.table, Table.get?_put]
      by_cases here : place = t.range <;> simp [here]

theorem start (root : Tree) : (ScopeWalk.start.openScope .program root).Attaches where
  ready := ⟨by simp [ScopeWalk.openScope], by simp [ScopeWalk.openScope, ScopeWalk.start]⟩
  table := by
    have none (ref : BindingRef) :
        (ScopeWalk.start.openScope .program root).table.binding? ref = none := by
      rw [binding?_openScope]
      rfl
    refine ⟨fun place ref => ?_, fun ref binding found => ?_, fun ref binding found => ?_⟩
    · simp only [none]
      simp [ScopeTable.bindingFor, ScopeWalk.table, ScopeWalk.openScope, ScopeWalk.start, Table.get?]
    · simp [none] at found
    · simp [none] at found
  declared := by
    simp [ScopeTable.bindingFor, ScopeWalk.table, ScopeWalk.openScope, ScopeWalk.start, Table.get?]

theorem stable (source : Bytes) (t : Tree) : Stable source t Attaches where
  opens _ kind attaches := attaches.openScope kind t
  declares _ _ kind name _ known attaches := attaches.declare (known attaches.ready) kind name
  ignores _ _ attaches := ⟨⟨attaches.ready.opened, attaches.ready.known⟩, attaches.table, attaches.declared⟩
  notes _ _ attaches := ⟨⟨attaches.ready.opened, attaches.ready.known⟩, attaches.table, attaches.declared⟩
  collects _ attaches := ⟨⟨attaches.ready.opened, attaches.ready.known⟩, attaches.table, attaches.declared⟩

end Attaches

end ScopeWalk

end Rebundle
