import Rebundle.Proofs.Scope.Held
import Rebundle.Proofs.Scope.Innermost
import Rebundle.Proofs.Syntax.Reached

/-!
# The places of declarations

The declarations of a binding stand at declared places, and these have the name of the binding for their text. A
reference stands at no declared place, as long as declarations declare nothing but names: so a reference that is
attached to no binding belongs to none.
-/

namespace Rebundle

open Cursor Sites

/-- The text at a range of the source. -/
def Range.text (source : Bytes) (range : Range) : Text := Utf8.decodeEscaped (range.slice source)

/-- Whether the declarations of the bindings of a scope stand at some declared places, with their texts. -/
def Scope.Told (source : Bytes) (declared : List Range) (scope : Scope) : Prop :=
  ∀ entry ∈ scope.bindings, ∀ place ∈ entry.2.declarations, place ∈ declared ∧ place.text source = entry.1

theorem Scope.Told.declare {source : Bytes} {declared : List Range} {scope : Scope}
    (told : scope.Told source declared) (kind : BindingKind) (t : Tree) :
    (scope.declare (t.text source) kind t.range).Told source (t.range :: declared) := by
  intro entry mem place here
  rcases Table.mem_put mem with rfl | known
  · cases found : scope.bindings.get? (t.text source) with
    | none =>
        rw [found] at here
        cases List.mem_singleton.mp here
        exact ⟨List.mem_cons_self, rfl⟩
    | some binding =>
        rw [found] at here
        rcases List.mem_append.mp here with before | own
        · have known := told _ (Table.mem_of_get? found) place before
          exact ⟨List.mem_cons_of_mem _ known.1, known.2⟩
        · cases List.mem_singleton.mp own
          exact ⟨List.mem_cons_self, rfl⟩
  · have before := told entry known place here
    exact ⟨List.mem_cons_of_mem _ before.1, before.2⟩

/-- What a walk says about the places that it knows of. -/
structure ScopeWalk.Told (source : Bytes) (walk : ScopeWalk) : Prop where
  scopes : ∀ scope ∈ walk.scopes, scope.Told source walk.declared
  pending : ∀ reference ∈ walk.pending, reference.name = reference.place.text source
  byPlace : ∀ entry ∈ walk.byPlace, entry.1 ∈ walk.declared

namespace ScopeWalk.Told

variable {source : Bytes} {walk : ScopeWalk}

theorem openScope (told : walk.Told source) (kind : ScopeKind) (t : Tree) : (walk.openScope kind t).Told source where
  scopes := by
    intro scope mem
    rcases List.mem_append.mp mem with known | new
    · exact told.scopes scope known
    · rw [List.mem_singleton.mp new]
      intro entry none
      cases none
  pending := told.pending
  byPlace := told.byPlace

theorem leave (told : walk.Told source) (t : Tree) : (walk.leave t).Told source := by
  rw [ScopeWalk.leave]
  split
  · split
    · exact ⟨told.scopes, told.pending, told.byPlace⟩
    · exact told
  · exact told

theorem declare (told : walk.Told source) (scope : Nat) (kind : BindingKind) (t : Tree) :
    (walk.declare source scope kind t).Told source := by
  rw [ScopeWalk.declare]
  split
  · exact told
  · refine ⟨?_, told.pending, ?_⟩
    · intro changed mem
      obtain ⟨j, found⟩ := List.mem_iff_getElem?.mp mem
      rw [List.getElem?_modify] at found
      obtain ⟨before, known, same⟩ := Option.map_eq_some_iff.mp found
      have kept := told.scopes before (List.mem_of_getElem? known)
      split at same
      · exact same ▸ kept.declare kind t
      · exact same ▸ fun entry mem place here => ⟨List.mem_cons_of_mem _ (kept entry mem place here).1,
          (kept entry mem place here).2⟩
    · intro entry mem
      rcases Table.mem_put mem with rfl | known
      · exact List.mem_cons_self
      · exact List.mem_cons_of_mem _ (told.byPlace entry known)

theorem stable (source : Bytes) (t : Tree) : Stable source t (ScopeWalk.Told source) where
  opens _ kind told := told.openScope kind t
  declares _ scope kind name _ _ told := told.declare scope kind name
  ignores _ _ told := ⟨told.scopes, told.pending, told.byPlace⟩
  notes _ _ told := ⟨told.scopes, told.pending, told.byPlace⟩
  collects _ told := by
    refine ⟨told.scopes, ?_, told.byPlace⟩
    intro reference mem
    rcases List.mem_append.mp mem with known | new
    · exact told.pending reference known
    · rw [List.mem_singleton.mp new]
      rfl

theorem ofTree (source : Bytes) (skipBefore : Nat) (root : Tree) :
    (ScopeTable.walk source skipBefore root).Told source := by
  apply Visitor.walk_preserves (ScopeWalk.Told source)
  · intro cursor walk _ told
    simp only [ScopeWalk.visitor]
    split
    · exact told
    · exact (stable source cursor.focus).enter told
  · intro cursor walk _ told
    exact told.leave cursor.focus
  · exact openScope ⟨by simp [start], by simp [start], by simp [start]⟩ _ _

end ScopeWalk.Told

namespace ScopeTable

variable {table : ScopeTable} {ref : BindingRef} {binding : Binding} {place : Range}

/-- Resolving changes the references of a binding only. -/
theorem declarations_foldl {row : List PendingReference}
    (found : (row.foldl ScopeWalk.resolve table).binding? ref = some binding) :
    ∃ before, table.binding? ref = some before ∧ before.declarations = binding.declarations := by
  induction row generalizing table with
  | nil => exact ⟨binding, found, rfl⟩
  | cons reference rest ih =>
      obtain ⟨next, known, same⟩ := ih found
      rw [ScopeWalk.binding?_resolve] at known
      split at known
      · obtain ⟨before, known', rfl⟩ := Option.map_eq_some_iff.mp known
        exact ⟨before, known', same⟩
      · exact ⟨next, known, same⟩

/-- A place keeps what it is bound to while the references at it see nothing. -/
theorem bindingFor_foldl_of_free {row : List PendingReference}
    (free : ∀ reference ∈ row, reference.place = place → reference.target table.scopes = none) :
    (row.foldl ScopeWalk.resolve table).bindingFor place = table.bindingFor place := by
  induction row generalizing table with
  | nil => rfl
  | cons reference rest ih =>
      rw [List.forall_mem_cons] at free
      refine (ih ?_).trans ?_
      · simpa only [ScopeWalk.target_resolve] using free.2
      · by_cases here : reference.place = place
        · have none := free.1 here
          rw [PendingReference.target] at none
          rw [ScopeWalk.resolve, none]
          rfl
        · exact bindingFor_resolve here

variable (source : Bytes) (skipBefore : Nat) (root : Tree)

theorem declared_of_declarations (found : (ofTree source skipBefore root).value.binding? ref = some binding)
    (mem : place ∈ binding.declarations) :
    place ∈ (walk source skipBefore root).declared ∧ place.text source = ref.name := by
  obtain ⟨before, known, same⟩ := declarations_foldl found
  obtain ⟨scope, here, entry⟩ := Option.bind_eq_some_iff.mp known
  exact (ScopeWalk.Told.ofTree source skipBefore root).scopes scope (List.mem_of_getElem? here) _
    (Table.mem_of_get? entry) place (same ▸ mem)

/-- All places of a binding have its name for their text. -/
theorem text_of_places (found : (ofTree source skipBefore root).value.binding? ref = some binding)
    (mem : place ∈ binding.places) : place.text source = ref.name := by
  rcases List.mem_append.mp mem with declares | refers
  · exact (declared_of_declarations source skipBefore root found declares).2
  · rw [(Resolves.ofTree source skipBefore root).references ref binding found] at refers
    obtain ⟨reference, kept, rfl⟩ := List.mem_map.mp refers
    obtain ⟨pending, sees⟩ := List.mem_filter.mp kept
    rw [← (ScopeWalk.Told.ofTree source skipBefore root).pending reference pending]
    exact (Scope.lookup_eq_some_iff.mp (of_decide_eq_true sees)).1.symm

end ScopeTable

/-! References stand at no declared places. -/

namespace Tree

variable {t : Tree}

/-- A name declares nothing. -/
theorem namings_of_isName (isName : t.kind.isName = true) : t.namings = [] := by
  have other := ScopeWalk.otherNamings_of_isName isName
  unfold Kind.isName at isName
  split at isName
  case h_5 => cases isName
  all_goals
    rename_i kind
    rw [namings, kind]
    exact other

end Tree

namespace Sites

variable {root : Tree} {sites : List Cursor} {source : Bytes} {c d : Cursor}

/-- A node below a place is found at a place below it. -/
theorem exists_below {t : Tree} (mem : t ∈ d.focus.nodes) : ∃ e : Cursor, e.focus = t ∧ e.whole = d.whole ∧
    (e = d ∨ d ∈ e.above) := by
  rw [← focus_entered d.path d.focus] at mem
  obtain ⟨e, entered, rfl⟩ := List.mem_map.mp mem
  exact ⟨e, rfl, whole_of_mem_entered entered, Cursor.eq_or_mem_above entered⟩

theorem exists_front {before row : List Cursor} (mem : c ∈ referencesFrom sites before row) :
    ∃ front back, row = front ++ c :: back ∧ isReference sites (before ++ front) c = true := by
  induction row generalizing before with
  | nil => cases mem
  | cons d rest ih =>
      have later (mem : c ∈ referencesFrom sites (before ++ [d]) rest) : ∃ front back,
          d :: rest = front ++ c :: back ∧ isReference sites (before ++ front) c = true := by
        obtain ⟨front, back, rfl, reference⟩ := ih mem
        rw [List.append_assoc] at reference
        exact ⟨d :: front, back, rfl, reference⟩
      rw [referencesFrom] at mem
      split at mem
      · rename_i reference
        rcases List.mem_cons.mp mem with rfl | mem
        · exact ⟨[], rest, rfl, by rwa [List.append_nil]⟩
        · exact later mem
      · exact later mem

/-- What is analysed above a reference is analysed before it. -/
theorem exists_front_above (ordered : sites.Pairwise fun a b => b ∉ a.above) (mem : c ∈ references sites) :
    ∃ front, isReference sites front c = true ∧ ∀ d ∈ sites, d ∈ c.above → d ∈ front := by
  obtain ⟨front, back, rfl, reference⟩ := exists_front mem
  refine ⟨front, reference, fun d here above => ?_⟩
  rcases List.mem_append.mp here with before | behind
  · exact before
  · rcases List.mem_cons.mp behind with rfl | behind
    · exact absurd above (not_mem_above_self _)
    · have apart := (List.pairwise_append.mp ordered).2.1
      exact absurd above ((List.pairwise_cons.mp apart).1 d behind)

/-- Whether the nodes of a program declare nothing but names. -/
def DeclareNames (sites : List Cursor) : Prop :=
  ∀ d ∈ sites, ∀ naming ∈ d.focus.namings, naming.name.kind.isName = true

instance (sites : List Cursor) : Decidable (DeclareNames sites) := inferInstanceAs (Decidable (∀ _ ∈ _, _))

/-- A reference stands at no declared place, whatever is declared behind it. -/
theorem not_declared_of_reference (arranged : Arranged root sites) (ordered : sites.Pairwise fun a b => b ∉ a.above)
    (distinct : root.Distinct) (names : DeclareNames sites) (mem : c ∈ references sites) :
    c.range ∉ (declarations sites sites).map (·.2.range) := by
  intro declared
  obtain ⟨⟨i, name⟩, declares, same⟩ := List.mem_map.mp declared
  obtain ⟨d, here, own⟩ := List.mem_flatMap.mp declares
  obtain ⟨naming, told, made⟩ := List.mem_map.mp own
  have isName := isName_of_mem_referencesFrom mem
  have stands := arranged.stands d here
  obtain ⟨e, focus, whole, below⟩ := exists_below (Tree.holds_of_namings told).mem_nodes
  have equal : e = c := by
    refine eq_of_range_eq distinct.names (whole.trans stands)
      (arranged.stands c (mem_of_mem_references mem)) ?_ isName ?_
    · rw [Cursor.kind, focus]
      exact names d here naming told
    · rw [Cursor.range, focus, ← same, ← (Prod.mk.inj made).2]
  subst equal
  rcases below with rfl | above
  · rw [Tree.namings_of_isName isName] at told
    cases told
  · obtain ⟨front, reference, all⟩ := exists_front_above ordered mem
    rw [isReference, Bool.and_eq_true, Bool.not_eq_true', List.contains_eq_mem, decide_eq_false_iff_not,
      List.mem_append, not_or] at reference
    exact reference.2.1 (List.mem_map.mpr ⟨(i, name), List.mem_flatMap.mpr ⟨d, all d here above, own⟩, same⟩)

end Sites

end Rebundle
