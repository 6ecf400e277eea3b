import Rebundle.Proofs.Table
import Rebundle.Scope.Basic

/-!
# Scope chains

A name is looked up along a chain of scopes, the innermost first. The chain depends on the parents of
the scopes alone, and what is found depends on the names that they declare.
-/

namespace Rebundle

namespace Scope

/-- The scopes that a name is looked up in, from scope number `i` on. -/
def chain (scopes : List Scope) (i : Nat) : List Nat :=
  match scopes[i]? with
  | none => []
  | some scope =>
      i ::
        match scope.parent with
        | none => []
        | some parent => if parent < i then chain scopes parent else []
termination_by i

/-- The names that scope number `i` declares. -/
def declared (scopes : List Scope) (i : Nat) : List Text :=
  ((scopes[i]?).map fun scope => scope.bindings.keys).getD []

/-- The scopes of a chain in front of another one. -/
def crossed (scopes : List Scope) (i outer : Nat) : List Nat :=
  (chain scopes i).takeWhile fun j => j != outer

theorem chain_congr {scopes scopes' : List Scope}
    (parents : ∀ i : Nat, (scopes[i]?).map (·.parent) = (scopes'[i]?).map (·.parent)) (i : Nat) :
    chain scopes i = chain scopes' i := by
  induction i using Nat.strongRecOn with
  | _ i ih =>
      have here := parents i
      rw [chain, chain]
      cases first : scopes[i]? with
      | none =>
          rw [first] at here
          cases second : scopes'[i]? with
          | none => rfl
          | some scope' =>
              rw [second] at here
              cases here
      | some scope =>
          rw [first] at here
          cases second : scopes'[i]? with
          | none =>
              rw [second] at here
              cases here
          | some scope' =>
              rw [second] at here
              have same : scope.parent = scope'.parent := Option.some.inj here
              simp only [same]
              cases scope'.parent with
              | none => rfl
              | some parent =>
                  by_cases inner : parent < i
                  · simp only [inner, if_true, ih parent inner]
                  · simp only [inner, if_false]

/-- A name is found in the first scope of the chain that declares it. -/
theorem lookup_eq_find? (scopes : List Scope) (name : Text) (i : Nat) :
    lookup scopes name i =
      ((chain scopes i).find? fun j => (declared scopes j).contains name).map (⟨·, name⟩) := by
  induction i using Nat.strongRecOn with
  | _ i ih =>
      rw [lookup, chain]
      cases found : scopes[i]? with
      | none => rfl
      | some scope =>
          have here : declared scopes i = scope.bindings.keys := by rw [declared, found]; rfl
          by_cases own : name ∈ scope.bindings.keys
          · simp [Table.contains_iff.mpr own, here, own]
          · have none : scope.bindings.contains name = false := by
              rw [Bool.eq_false_iff, ne_eq, Table.contains_iff]
              exact own
            simp only [none, Bool.false_eq_true, if_false]
            rw [List.find?_cons_of_neg (by simpa [here] using own)]
            cases scope.parent with
            | none => rfl
            | some parent =>
                by_cases inner : parent < i
                · simp only [inner, if_true, ih parent inner]
                · simp [inner]

/-- What a search finds is an element with nothing in front of it that the search would find. -/
theorem find?_eq_some_iff_takeWhile {α : Type} [DecidableEq α] {p : α → Bool} {l : List α}
    {a : α} :
    l.find? p = some a ↔ a ∈ l ∧ p a = true ∧ ∀ b ∈ l.takeWhile (· != a), p b = false := by
  induction l with
  | nil => simp
  | cons first rest ih =>
      by_cases same : first = a
      · subst same
        by_cases holds : p first = true
        · simp [holds]
        · simp only [List.find?_cons_of_neg holds, ih]
          simp [holds]
      · by_cases holds : p first = true
        · simp [List.find?_cons_of_pos holds, same, holds]
        · simp only [List.find?_cons_of_neg holds, ih]
          simp [Ne.symm same, same, holds]

variable {scopes : List Scope} {name : Text} {i : Nat} {ref : BindingRef}

theorem lookup_eq_some_iff :
    lookup scopes name i = some ref ↔
      ref.name = name ∧ ref.scope ∈ chain scopes i ∧ name ∈ declared scopes ref.scope ∧
        ∀ j ∈ crossed scopes i ref.scope, name ∉ declared scopes j := by
  rw [lookup_eq_find?, Option.map_eq_some_iff]
  constructor
  · rintro ⟨j, found, rfl⟩
    obtain ⟨mem, declares, front⟩ := find?_eq_some_iff_takeWhile.mp found
    refine ⟨rfl, mem, by simpa using declares, ?_⟩
    intro k crossed
    simpa using front k crossed
  · rintro ⟨rfl, mem, declares, front⟩
    refine ⟨ref.scope, ?_, rfl⟩
    rw [find?_eq_some_iff_takeWhile]
    refine ⟨mem, by simpa using declares, ?_⟩
    intro k crossed
    simpa using front k crossed

theorem lookup_eq_none_iff :
    lookup scopes name i = none ↔ ∀ j ∈ chain scopes i, name ∉ declared scopes j := by
  rw [lookup_eq_find?, Option.map_eq_none_iff, List.find?_eq_none]
  simp

end Scope

end Rebundle
