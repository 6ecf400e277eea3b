import Rebundle.Proofs.Scope.Chain
import Rebundle.Proofs.Scope.Entering
import Rebundle.Proofs.Scope.Sites

/-!
# What entering a node adds

Entering a node only adds to what an analysis knows. What it adds is told by the node: the scope that it
opens, the names that it declares, the names that belong to other modules, the body of a function, and the
reference that it is.
-/

namespace Rebundle

/-! The declarations that count. -/

theorem firsts_congr {declared declared' : List Range} (same : ∀ r, r ∈ declared ↔ r ∈ declared')
    (row : List (Nat × Tree)) : firsts declared row = firsts declared' row := by
  induction row generalizing declared declared' with
  | nil => rfl
  | cons entry rest ih =>
      have more : ∀ r, r ∈ entry.2.range :: declared ↔ r ∈ entry.2.range :: declared' := by
        intro r
        rw [List.mem_cons, List.mem_cons, same]
      simp only [firsts, same, ih same, ih more]

theorem firsts_append (declared : List Range) (row row' : List (Nat × Tree)) :
    firsts declared (row ++ row') =
      firsts declared row ++ firsts (row.map (·.2.range) ++ declared) row' := by
  induction row generalizing declared with
  | nil => rfl
  | cons entry rest ih =>
      rw [List.cons_append, firsts, firsts]
      split
      · rename_i known
        rw [ih]
        congr 1
        apply firsts_congr
        intro r
        simp only [List.map_cons, List.cons_append, List.mem_cons, List.mem_append]
        constructor
        · exact .inr
        · rintro (rfl | mem)
          · exact .inr known
          · exact mem
      · rw [ih, List.cons_append]
        congr 2
        apply firsts_congr
        intro r
        simp only [List.map_cons, List.cons_append, List.mem_cons, List.mem_append]
        tauto

/-- All declarations count when no place is declared twice. -/
theorem firsts_eq_self {declared : List Range} {row : List (Nat × Tree)}
    (once : (row.map (·.2.range)).Nodup) (fresh : ∀ entry ∈ row, entry.2.range ∉ declared) :
    firsts declared row = row := by
  induction row generalizing declared with
  | nil => rfl
  | cons entry rest ih =>
      obtain ⟨absent, once⟩ := List.nodup_cons.mp once
      rw [firsts, if_neg (fresh entry List.mem_cons_self)]
      congr 1
      refine ih once ?_
      intro other mem known
      rcases List.mem_cons.mp known with same | before
      · exact absent (List.mem_map.mpr ⟨other, mem, same⟩)
      · exact fresh other (List.mem_cons_of_mem _ mem) before

/-- What stays the same of a scope once it is opened. -/
def Scope.frame (scope : Scope) : ScopeKind × Range × Option Nat := (scope.kind, scope.range, scope.parent)

/-- What is added to the knowledge of an analysis. -/
structure Delta where
  frames : List (ScopeKind × Range × Option Nat) := []
  opened : List OpenScope := []
  declared : List (Nat × Tree) := []
  ignored : List Range := []
  bodies : List Range := []
  pending : List PendingReference := []

/-- What is added by two steps. Scopes are opened in front of the open ones. -/
def Delta.andThen (more more' : Delta) : Delta where
  frames := more.frames ++ more'.frames
  opened := more'.opened ++ more.opened
  declared := more.declared ++ more'.declared
  ignored := more.ignored ++ more'.ignored
  bodies := more.bodies ++ more'.bodies
  pending := more.pending ++ more'.pending

namespace Scope

variable {scopes : List Scope} {i j : Nat}

theorem map_frame_modify {f : Scope → Scope} (keeps : ∀ scope, (f scope).frame = scope.frame) :
    (scopes.modify i f).map frame = scopes.map frame := by
  apply List.ext_getElem?
  intro k
  rw [List.getElem?_map, List.getElem?_map, List.getElem?_modify]
  cases scopes[k]? with
  | none => rfl
  | some scope => by_cases here : i = k <;> simp [here, keeps]

theorem mem_declared_modify {name other : Text} {kind : BindingKind} {place : Range}
    (inside : i < scopes.length) :
    other ∈ declared (scopes.modify i (declare name kind place)) j ↔
      other ∈ declared scopes j ∨ i = j ∧ name = other := by
  have put (scope : Scope) : other ∈ (scope.declare name kind place).bindings.keys ↔
      other ∈ scope.bindings.keys ∨ name = other := by
    simp only [declare]
    rw [Table.keys_put]
    split
    · rename_i known
      constructor
      · exact .inl
      · rintro (mem | rfl)
        · exact mem
        · exact known
    · rw [List.mem_append, List.mem_singleton, eq_comm]
  simp only [declared, List.getElem?_modify]
  by_cases here : i = j
  · subst here
    simp [List.getElem?_eq_getElem inside, put]
  · cases scopes[j]? <;> simp [here]

theorem declared_append (scopes : List Scope) (kind : ScopeKind) (range : Range) (parent : Option Nat)
    (i : Nat) : declared (scopes ++ [⟨kind, range, parent, []⟩]) i = declared scopes i := by
  rw [declared, declared]
  by_cases early : i < scopes.length
  · rw [List.getElem?_append_left early]
  · rw [List.getElem?_append_right (by omega), List.getElem?_eq_none (by omega : scopes.length ≤ i)]
    cases i - scopes.length <;> simp [Table.keys]

end Scope

namespace ScopeWalk

/-- Whether an analysis knows afterwards what it knew before, and the addition. -/
structure Grows (source : Bytes) (before after : ScopeWalk) (more : Delta) : Prop where
  frames : after.scopes.map Scope.frame = before.scopes.map Scope.frame ++ more.frames
  opened : after.opened = more.opened ++ before.opened
  declared : ∀ r, r ∈ after.declared ↔ r ∈ before.declared ∨ r ∈ more.declared.map (·.2.range)
  names : ∀ i name, name ∈ Scope.declared after.scopes i ↔
    name ∈ Scope.declared before.scopes i ∨
      ∃ n, (i, n) ∈ firsts before.declared more.declared ∧ n.text source = name
  ignored : ∀ r, r ∈ after.ignored ↔ r ∈ before.ignored ∨ r ∈ more.ignored
  bodies : ∀ r, r ∈ after.bodies ↔ r ∈ before.bodies ∨ r ∈ more.bodies
  pending : after.pending = before.pending ++ more.pending

namespace Grows

variable {source : Bytes} {a b c walk : ScopeWalk} {more more' : Delta}

theorem refl (walk : ScopeWalk) : Grows source walk walk {} where
  frames := (List.append_nil _).symm
  opened := rfl
  declared := by simp
  names := by simp [firsts]
  ignored := by simp
  bodies := by simp
  pending := (List.append_nil _).symm

theorem trans (ab : Grows source a b more) (bc : Grows source b c more') :
    Grows source a c (more.andThen more') where
  frames := by rw [bc.frames, ab.frames, Delta.andThen, List.append_assoc]
  opened := by rw [bc.opened, ab.opened, Delta.andThen, List.append_assoc]
  declared r := by rw [bc.declared, ab.declared, Delta.andThen, List.map_append, List.mem_append, or_assoc]
  names i name := by
    have known : firsts b.declared more'.declared =
        firsts (more.declared.map (·.2.range) ++ a.declared) more'.declared := by
      apply firsts_congr
      intro r
      rw [ab.declared, List.mem_append, or_comm]
    rw [bc.names, ab.names, known, Delta.andThen, firsts_append, or_assoc]
    simp only [List.mem_append, or_and_right, exists_or]
  ignored r := by rw [bc.ignored, ab.ignored, Delta.andThen, List.mem_append, or_assoc]
  bodies r := by rw [bc.bodies, ab.bodies, Delta.andThen, List.mem_append, or_assoc]
  pending := by rw [bc.pending, ab.pending, Delta.andThen, List.append_assoc]

theorem length (grows : Grows source a b more) : b.scopes.length = a.scopes.length + more.frames.length := by
  simpa using congrArg List.length grows.frames

/-- Declaring one name. -/
theorem declare {i : Nat} (inside : i < walk.scopes.length) (kind : BindingKind) (name : Tree) :
    Grows source walk (walk.declare source i kind name) { declared := [(i, name)] } := by
  rw [ScopeWalk.declare]
  by_cases known : walk.declared.contains name.range = true
  · have mem : name.range ∈ walk.declared := by simpa using known
    rw [if_pos known]
    have nothing : Grows source walk walk {} := refl walk
    refine { nothing with declared := ?_, names := ?_ }
    · intro r
      simp only [List.map_cons, List.map_nil, List.mem_singleton]
      constructor
      · exact .inl
      · rintro (here | rfl)
        · exact here
        · exact mem
    · simp [firsts, mem]
  · have absent : name.range ∉ walk.declared := by simpa using known
    rw [if_neg known]
    refine ⟨?_, rfl, ?_, ?_, by simp, by simp, (List.append_nil _).symm⟩
    · rw [List.append_nil]
      exact Scope.map_frame_modify fun _ => rfl
    · intro r
      simp [or_comm]
    · intro j other
      rw [Scope.mem_declared_modify inside]
      simp [firsts, absent, eq_comm]

theorem openScope (source : Bytes) (walk : ScopeWalk) (kind : ScopeKind) (t : Tree) :
    Grows source walk (walk.openScope kind t)
      { frames := [(kind, t.range, walk.opened.head?.map (·.scope))]
        opened := [⟨t.range, t.kind, walk.scopes.length⟩] } where
  frames := by simp [ScopeWalk.openScope, Scope.frame]
  opened := rfl
  declared r := by simp [ScopeWalk.openScope]
  names i name := by
    simp only [ScopeWalk.openScope]
    rw [Scope.declared_append]
    simp [firsts]
  ignored r := by simp [ScopeWalk.openScope]
  bodies r := by simp [ScopeWalk.openScope]
  pending := (List.append_nil _).symm

theorem ignore (source : Bytes) (walk : ScopeWalk) (nodes : List Tree) :
    Grows source walk (walk.ignore nodes) { ignored := nodes.map Tree.range } where
  frames := (List.append_nil _).symm
  opened := rfl
  declared r := by simp [ScopeWalk.ignore]
  names i name := by simp [ScopeWalk.ignore, firsts]
  ignored r := by
    simp only [ScopeWalk.ignore, List.mem_append, List.mem_reverse, or_comm]
  bodies r := by simp [ScopeWalk.ignore]
  pending := (List.append_nil _).symm

/-- Steps that declare and ignore, one after the other. What a step does may depend on the open scopes
and on how many scopes there are, which no step changes. -/
theorem foldl {α : Type} {f : ScopeWalk → α → ScopeWalk} {names : α → List (Nat × Tree)}
    {ignored : α → List Range} {row : List α}
    (step : ∀ next a, a ∈ row → next.opened = walk.opened → next.scopes.length = walk.scopes.length →
      Grows source next (f next a) { declared := names a, ignored := ignored a }) :
    Grows source walk (row.foldl f walk)
      { declared := row.flatMap names, ignored := row.flatMap ignored } := by
  induction row generalizing walk with
  | nil => exact refl walk
  | cons a rest ih =>
      have one := step walk a List.mem_cons_self rfl rfl
      have others : Grows source (f walk a) (rest.foldl f (f walk a))
          { declared := rest.flatMap names, ignored := rest.flatMap ignored } :=
        ih fun next b mem opened length => step next b (List.mem_cons_of_mem _ mem)
          (opened.trans one.opened) (length.trans (one.length.trans (Nat.add_zero _)))
      exact one.trans others

theorem foldlNames {α : Type} {f : ScopeWalk → α → ScopeWalk} {names : α → List (Nat × Tree)}
    {row : List α} (step : ∀ next a, a ∈ row → next.opened = walk.opened →
      next.scopes.length = walk.scopes.length → Grows source next (f next a) { declared := names a }) :
    Grows source walk (row.foldl f walk) { declared := row.flatMap names } := by
  have all : Grows source walk (row.foldl f walk)
      { declared := row.flatMap names, ignored := row.flatMap fun _ => [] } := foldl step
  have none : (row.flatMap fun _ => ([] : List Range)) = [] := List.flatMap_eq_nil_iff.mpr fun _ _ => rfl
  rwa [none] at all

/-- Declaring names in one scope. -/
theorem declareNames {i : Nat} (inside : i < walk.scopes.length) {scope : ScopeWalk → Nat}
    (here : ∀ next : ScopeWalk, next.opened = walk.opened → scope next = i) (kind : BindingKind)
    (names : List Tree) :
    Grows source walk (names.foldl (fun walk name => walk.declare source (scope walk) kind name) walk)
      { declared := names.map (i, ·) } := by
  rw [List.map_eq_flatMap]
  refine foldlNames fun next name _ opened length => ?_
  rw [here next opened]
  exact declare (length ▸ inside) kind name

theorem declarePatterns {i : Nat} (inside : i < walk.scopes.length) (kind : BindingKind)
    (patterns : List Tree) :
    Grows source walk (walk.declarePatterns source i kind patterns)
      { declared := (patterns.flatMap Tree.boundNames).map (i, ·) } := by
  rw [List.map_flatMap]
  refine foldlNames fun next pattern _ _ length => ?_
  exact declareNames (length ▸ inside) (fun _ _ => rfl) kind _

theorem note (walk : ScopeWalk) (range : Range) :
    Grows source walk { walk with bodies := range :: walk.bodies } { bodies := [range] } where
  frames := (List.append_nil _).symm
  opened := rfl
  declared r := by simp
  names i name := by simp [firsts]
  ignored r := by simp
  bodies r := by simp [or_comm]
  pending := (List.append_nil _).symm

theorem collect (walk : ScopeWalk) (reference : PendingReference) :
    Grows source walk { walk with pending := walk.pending ++ [reference] } { pending := [reference] } where
  frames := (List.append_nil _).symm
  opened := rfl
  declared r := by simp
  names i name := by simp [firsts]
  ignored r := by simp
  bodies r := by simp
  pending := rfl

end Grows

end ScopeWalk

namespace Scope

/-- The scopes behind a scope do not matter to what it sees. -/
theorem varHolder_append (scopes more : List Scope) {i : Nat} (inside : i < scopes.length) :
    varHolder (scopes ++ more) i = varHolder scopes i := by
  induction i using Nat.strongRecOn with
  | _ i ih =>
      rw [varHolder, varHolder.eq_def scopes, List.getElem?_append_left inside]
      split
      · rfl
      · split
        · rfl
        · split
          · rfl
          · split
            · rename_i parent _ inner
              exact ih parent inner (Nat.lt_trans inner inside)
            · rfl

/-- A block holds no `var`; what holds it holds it. -/
theorem varHolder_block (scopes : List Scope) (range : Range) {parent : Nat}
    (inside : parent < scopes.length) :
    varHolder (scopes ++ [⟨.block, range, some parent, []⟩]) scopes.length = varHolder scopes parent := by
  rw [varHolder]
  simp only [List.getElem?_append_right (Nat.le_refl scopes.length), Nat.sub_self,
    List.getElem?_cons_zero, ScopeKind.holdsVars, Bool.false_eq_true, if_false, inside, if_true]
  exact varHolder_append scopes _ inside

end Scope

end Rebundle
