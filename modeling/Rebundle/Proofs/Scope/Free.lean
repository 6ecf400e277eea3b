import Rebundle.Proofs.Rewrite.Frame
import Rebundle.Proofs.Scope.Declared
import Rebundle.Proofs.Scope.Language

/-!
# Free references

A reference that the language leaves free is attached to a binding in the three kinds of places where a scope
of the analysis is larger than in the language, and stays free everywhere else. Then no binding has its place,
and it is never renamed.
-/

namespace Rebundle

open Cursor Sites

/-! The new names that a renaming prepares stand at the places of bindings. -/

namespace ScopeTable

variable {table : ScopeTable} {bound : BindingRef × Binding}

theorem binding?_of_mem_bindings (nodup : ∀ i, (Scope.declared table.scopes i).Nodup)
    (mem : bound ∈ table.bindings) : table.binding? bound.1 = some bound.2 := by
  obtain ⟨⟨scope, i⟩, here, entry⟩ := List.mem_flatMap.mp mem
  obtain ⟨⟨name, binding⟩, known, rfl⟩ := List.mem_map.mp entry
  have found : table.scopes[i]? = some scope := List.mem_zipIdx_iff_getElem?.mp here
  have keys := nodup i
  rw [Scope.declared, found] at keys
  rw [binding?, found]
  exact Table.get?_of_mem keys known

end ScopeTable

namespace Renaming

theorem get?_renameBinding (old new : Text) (ref : BindingRef) (binding : Binding) (rewrite : Rewrite)
    (place : Range) : (renameBinding old new ref binding rewrite).renames.get? place =
      if place ∈ binding.places then some new else rewrite.renames.get? place := by
  simp only [renameBinding]
  split <;> exact Table.get?_foldl_put _ _ _ _

variable {place : Range}

theorem get?_renameAll (rewrite : Rewrite) (entry : Text × Text) : (renameAll rewrite entry).renames.get? place =
    if ∃ bound ∈ rewrite.scopes.bindingsNamed entry.1, place ∈ bound.2.places then some entry.2
    else rewrite.renames.get? place := by
  have step (bounds : List (BindingRef × Binding)) (state : Rewrite) :
      (bounds.foldl (fun rewrite bound => renameBinding entry.1 entry.2 bound.1 bound.2 rewrite) state).renames.get?
        place = if ∃ bound ∈ bounds, place ∈ bound.2.places then some entry.2 else state.renames.get? place := by
    induction bounds generalizing state with
    | nil => simp
    | cons first rest ih =>
        rw [List.foldl_cons, ih, get?_renameBinding]
        by_cases here : place ∈ first.2.places <;> simp [-Prod.exists, here]
  rw [renameAll]
  split
  · rename_i none
    simp [none, Rewrite.write]
  · exact step _ rewrite

/-- The new name of a place: the last one that is configured for a binding of the place. -/
theorem get?_prepare (rewrite : Rewrite) : (prepare rewrite).renames.get? place =
    rewrite.config.renameIdentifiers.foldl (fun found (entry : Text × Text) =>
      if ∃ bound ∈ rewrite.scopes.bindingsNamed entry.1, place ∈ bound.2.places then some entry.2 else found)
      (rewrite.renames.get? place) := by
  have step (entries : List (Text × Text)) (state : Rewrite) (same : state.scopes = rewrite.scopes) :
      (entries.foldl renameAll state).renames.get? place = entries.foldl
        (fun found (entry : Text × Text) =>
          if ∃ bound ∈ rewrite.scopes.bindingsNamed entry.1, place ∈ bound.2.places then some entry.2 else found)
        (state.renames.get? place) := by
    induction entries generalizing state with
    | nil => rfl
    | cons entry rest ih =>
        rw [List.foldl_cons, ih _ ((keeps_renameAll state entry).scopes.trans same), get?_renameAll, same,
          List.foldl_cons]
  exact step _ rewrite rfl

/-- A place that gets a new name belongs to a binding of a name for which the new name is configured. -/
theorem exists_binding_of_get? {rewrite : Rewrite} {new : Text}
    (named : (prepare rewrite).renames.get? place = some new) :
    rewrite.renames.get? place = some new ∨ ∃ old, (old, new) ∈ rewrite.config.renameIdentifiers ∧
      ∃ bound ∈ rewrite.scopes.bindingsNamed old, place ∈ bound.2.places := by
  rw [get?_prepare] at named
  generalize rewrite.config.renameIdentifiers = entries at named ⊢
  generalize rewrite.renames.get? place = found at named ⊢
  induction entries generalizing found with
  | nil => exact .inl named
  | cons entry rest ih =>
      rw [List.foldl_cons] at named
      rcases ih _ named with first | ⟨old, later, bound⟩
      · split at first
        · rename_i bound
          cases first
          exact .inr ⟨entry.1, List.mem_cons_self, bound⟩
        · exact .inl first
      · exact .inr ⟨old, List.mem_cons_of_mem _ later, bound⟩

/-- A place that belongs to no binding gets no new name. -/
theorem get?_prepare_of_not {rewrite : Rewrite}
    (absent : ∀ bound ∈ rewrite.scopes.bindings, place ∉ bound.2.places) :
    (prepare rewrite).renames.get? place = rewrite.renames.get? place := by
  have unbound (name : Text) : ¬ ∃ bound ∈ rewrite.scopes.bindingsNamed name, place ∈ bound.2.places := by
    rintro ⟨bound, mem, here⟩
    exact absent bound (List.mem_filter.mp mem).1 here
  rw [get?_prepare]
  simp only [if_neg (unbound _)]
  exact List.foldl_fixed _

end Renaming

namespace ScopeTable

section

variable (source : Bytes) (skipBefore : Nat) {root : Tree} {c : Cursor} (distinct : root.Distinct)
  (names : DeclareNames (Sites.ofTree skipBefore root)) (mem : c ∈ references (Sites.ofTree skipBefore root))

include distinct names mem

theorem not_declared_ofTree : c.range ∉ (walk source skipBefore root).declared := by
  rw [(knows_walk source skipBefore distinct).declared]
  exact not_declared_of_reference (arranged_ofTree skipBefore root) (pairwise_entered _ [] root) distinct names mem

/-- A reference belongs to the bindings that refer to it. -/
theorem places_ofTree_iff {ref : BindingRef} {binding : Binding}
    (found : (ofTree source skipBefore root).value.binding? ref = some binding) :
    c.range ∈ binding.places ↔ c.range ∈ binding.references := by
  rw [Binding.places, List.mem_append, or_iff_right]
  intro declares
  exact not_declared_ofTree source skipBefore distinct names mem
    (declared_of_declarations source skipBefore root found declares).1

/-- Nothing is found at a reference that sees no declaration. -/
theorem bindingFor_of_unseen (unseen : seen (Sites.ofTree skipBefore root) source c = none) :
    (ofTree source skipBefore root).value.bindingFor c.range = none := by
  have pending := (knows_walk source skipBefore distinct).pending
  refine (bindingFor_foldl_of_free ?_).trans ?_
  · intro reference here same
    rw [pending] at here
    obtain ⟨d, mem', rfl⟩ := List.mem_map.mp here
    rw [← eq_of_references skipBefore distinct mem' mem same] at unseen
    exact (target_ofTree source skipBefore distinct mem').trans unseen
  · rw [bindingFor]
    cases found : (walk source skipBefore root).byPlace.get? c.range with
    | none => rfl
    | some ref =>
        have told := (ScopeWalk.Told.ofTree source skipBefore root).byPlace _ (Table.mem_of_get? found)
        exact absurd told (not_declared_ofTree source skipBefore distinct names mem)

end

/-- A reference that the language leaves free is attached to a binding if and only if it is misplaced: in the computed
name of a method, or its decorators, which declares its name as a parameter; in a function but outside of its body,
which declares its name; or outside of a static block that declares its name with `var`. Every other free reference
is left free, and never renamed. -/
theorem ofTree_free (source : Bytes) (skipBefore : Nat) {root : Tree} (distinct : root.Distinct)
    (names : DeclareNames (Sites.ofTree skipBefore root))
    (once : ((declarations (Sites.ofTree skipBefore root) (Sites.ofTree skipBefore root)).map (·.2.range)).Nodup)
    {c : Cursor} (mem : c ∈ references (Sites.ofTree skipBefore root))
    (free : Free (Sites.ofTree skipBefore root) source c) :
    let table := (ofTree source skipBefore root).value
    ((∃ ref binding, table.binding? ref = some binding ∧ c.range ∈ binding.places) ↔
      Misplaced (Sites.ofTree skipBefore root) source c) ∧
    (¬ Misplaced (Sites.ofTree skipBefore root) source c →
      (c.focus.text source, c.range) ∈ table.unresolved ∧ table.bindingFor c.range = none ∧
        ∀ rewrite : Rewrite, rewrite.scopes = table → rewrite.renames = [] →
          (Renaming.prepare rewrite).renames.get? c.range = none) := by
  intro table
  have sees := (seen_iff_encloses distinct once mem).trans (encloses_iff_misplaced free)
  have attached : (∃ ref binding, table.binding? ref = some binding ∧ c.range ∈ binding.places) ↔
      ∃ ref, seen (Sites.ofTree skipBefore root) source c = some ref := by
    refine exists_congr fun ref => ?_
    rw [← attached_ofTree source skipBefore distinct mem ref]
    refine exists_congr fun binding => and_congr_right fun found => ?_
    exact places_ofTree_iff source skipBefore distinct names mem found
  refine ⟨attached.trans sees, fun wellPlaced => ?_⟩
  have unseen : seen (Sites.ofTree skipBefore root) source c = none := by
    rw [← Option.not_isSome_iff_eq_none, Option.isSome_iff_exists]
    exact fun some => wellPlaced (sees.mp some)
  refine ⟨(mem_unresolved_ofTree source skipBefore distinct mem).mpr unseen,
    bindingFor_of_unseen source skipBefore distinct names mem unseen, ?_⟩
  intro rewrite analysed fresh
  rw [Renaming.get?_prepare_of_not, fresh]
  · rfl
  · rw [analysed]
    intro bound known place
    have found := binding?_of_mem_bindings (Resolves.ofTree source skipBefore root).nodup known
    exact wellPlaced (sees.mp (attached.mp ⟨_, _, found, place⟩))

/-- The program `(a=x)=>{var x}`. -/
def defaulting : Bytes :=
  [0x28, 0x61, 0x3D, 0x78, 0x29, 0x3D, 0x3E, 0x7B, 0x76, 0x61, 0x72, 0x20, 0x78, 0x7D]

def defaulted : Tree :=
  let leaf (kind : Kind) (role : Option Role) (start stop : Nat) : Tree :=
    .node ⟨kind, role, ⟨start, stop⟩, false⟩ []
  .node ⟨.program, none, ⟨0, 14⟩, false⟩ [
    .node ⟨.expressionStatement, none, ⟨0, 14⟩, false⟩ [
      .node ⟨.arrowFunction, none, ⟨0, 14⟩, false⟩ [
        .node ⟨.formalParameters, some .parameters, ⟨0, 5⟩, false⟩ [
          leaf (.token "(") none 0 1,
          .node ⟨.assignmentPattern, none, ⟨1, 4⟩, false⟩ [
            leaf .identifier (some .left) 1 2, leaf (.token "=") none 2 3, leaf .identifier none 3 4],
          leaf (.token ")") none 4 5],
        leaf (.token "=>") none 5 7,
        .node ⟨.statementBlock, some .body, ⟨7, 14⟩, false⟩ [
          leaf (.token "\x7b") none 7 8,
          .node ⟨.variableDeclaration, none, ⟨8, 13⟩, false⟩ [
            leaf (.token "var") (some .kind) 8 11,
            .node ⟨.variableDeclarator, none, ⟨12, 13⟩, false⟩ [leaf .identifier (some .name) 12 13]],
          leaf (.token "\x7d") none 13 14]]]]

/-- The default is free, but it is attached to the variable of the body. -/
theorem defaulted_attached : ∃ c ∈ references (Sites.ofTree 0 defaulted),
    Free (Sites.ofTree 0 defaulted) defaulting c ∧ Misplaced (Sites.ofTree 0 defaulted) defaulting c ∧
      ∃ ref binding, (ofTree defaulting 0 defaulted).value.binding? ref = some binding ∧
        c.range ∈ binding.places := by
  have distinct : defaulted.Distinct := ⟨by decide +kernel, by decide +kernel, by decide +kernel⟩
  obtain ⟨c, mem, free, attached⟩ : ∃ c ∈ references (Sites.ofTree 0 defaulted),
      Free (Sites.ofTree 0 defaulted) defaulting c ∧
        ((ofTree defaulting 0 defaulted).value.binding? ⟨1, "x"⟩).any (·.places.contains c.range) = true := by
    decide +kernel
  obtain ⟨binding, found, place⟩ := (Option.any_eq_true _ _).mp attached
  have place := List.contains_iff_mem.mp place
  exact ⟨c, mem, free, (ofTree_free defaulting 0 distinct (by decide +kernel) (by decide +kernel) mem free).1.mp
    ⟨_, binding, found, place⟩, _, binding, found, place⟩

end ScopeTable

end Rebundle
