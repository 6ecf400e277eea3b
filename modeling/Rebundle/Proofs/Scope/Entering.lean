import Rebundle.Proofs.Syntax.Layout
import Rebundle.Scope.Analysis

/-!
# Entering a node

A pattern binds the names among its parts, as deep as there are patterns.

Whatever the kind of a node, entering it opens at most a scope at the node, declares and ignores names
below it, notes its body and collects the node itself. What these steps preserve, entering preserves.
-/

namespace Rebundle

/-- The kinds of the nodes that bind what their parts bind. -/
def Kind.isPattern : Kind → Bool
  | .objectPattern | .arrayPattern | .restPattern | .pairPattern | .assignmentPattern | .objectAssignmentPattern
  | .requiredParameter | .optionalParameter => true
  | _ => false

namespace Tree

/-- Whether a node is a name that is bound, or a pattern with a part that binds the name. -/
inductive Binds (name : Tree) : Tree → Prop
  | itself (isName : name.kind.isName = true) : Binds name name
  | inside {t part : Tree} (pattern : t.kind.isPattern = true) (mem : part ∈ t.children) (binds : Binds name part) :
      Binds name t

variable {t name : Tree}

mutual

theorem binds_of_boundNames : ∀ {t : Tree}, name ∈ boundNames t → Binds name t
  | .node label children, mem => by
      have inside (pattern : label.kind.isPattern = true) :
          (∃ part ∈ children, Binds name part) → Binds name (.node label children)
        | ⟨_, mem, binds⟩ => .inside pattern mem binds
      rw [boundNames] at mem
      split at mem
      · rename_i kind
        rw [List.mem_singleton.mp mem]
        exact .itself (by rw [Tree.kind, Tree.label, kind]; rfl)
      · rename_i kind
        rw [List.mem_singleton.mp mem]
        exact .itself (by rw [Tree.kind, Tree.label, kind]; rfl)
      case h_10 => cases mem
      all_goals apply inside (by simp [*, Kind.isPattern])
      · exact binds_of_boundInEntries mem
      · exact binds_of_boundInParts mem
      · exact binds_of_boundInParts mem
      · exact binds_of_boundInRole mem
      · exact binds_of_boundInRole mem
      · exact binds_of_boundInRole mem
      · exact binds_of_boundInRole mem

theorem binds_of_boundInParts : ∀ {row : List Tree}, name ∈ boundInParts row → ∃ part ∈ row, Binds name part
  | [], mem => by
      rw [boundInParts] at mem
      cases mem
  | t :: rest, mem => by
      rw [boundInParts] at mem
      rcases List.mem_append.mp mem with here | later
      · split at here
        · exact ⟨t, List.mem_cons_self, binds_of_boundNames here⟩
        · cases here
      · obtain ⟨part, mem, binds⟩ := binds_of_boundInParts later
        exact ⟨part, List.mem_cons_of_mem t mem, binds⟩

theorem binds_of_boundInEntries : ∀ {row : List Tree}, name ∈ boundInEntries row →
    ∃ part ∈ row, Binds name part
  | [], mem => by
      rw [boundInEntries] at mem
      cases mem
  | .node label children :: rest, mem => by
      rw [boundInEntries] at mem
      rcases List.mem_append.mp mem with here | later
      · refine ⟨.node label children, List.mem_cons_self, ?_⟩
        split at here
        · rename_i kind
          obtain ⟨part, mem, binds⟩ := binds_of_boundInRole here
          exact .inside (by rw [Tree.kind, Tree.label, kind]; rfl) mem binds
        · exact binds_of_boundNames here
      · obtain ⟨part, mem, binds⟩ := binds_of_boundInEntries later
        exact ⟨part, List.mem_cons_of_mem _ mem, binds⟩

theorem binds_of_boundInRole {role : Role} : ∀ {row : List Tree}, name ∈ boundInRole role row →
    ∃ part ∈ row, Binds name part
  | [], mem => by
      rw [boundInRole] at mem
      cases mem
  | t :: rest, mem => by
      rw [boundInRole] at mem
      split at mem
      · exact ⟨t, List.mem_cons_self, binds_of_boundNames mem⟩
      · obtain ⟨part, mem, binds⟩ := binds_of_boundInRole mem
        exact ⟨part, List.mem_cons_of_mem t mem, binds⟩

end

theorem Binds.mem_nodes (binds : Binds name t) : name ∈ t.nodes := by
  induction binds with
  | itself => exact self_mem_nodes name
  | inside _ mem _ ih => exact mem_nodes_trans ih (child_mem_nodes mem)

/-- Patterns bind names. -/
theorem Binds.isName (binds : Binds name t) : name.kind.isName = true := by
  induction binds with
  | itself isName => exact isName
  | inside _ _ _ ih => exact ih

end Tree

namespace Tree

theorem mem_nodes_of_mem_parts {t part : Tree} (mem : part ∈ t.parts) : part ∈ t.nodes :=
  child_mem_nodes (List.mem_filter.mp mem).1

theorem mem_nodes_of_child? {t child : Tree} {role : Role} (found : t.child? role = some child) :
    child ∈ t.nodes :=
  child_mem_nodes (List.mem_of_find?_eq_some found)

theorem mem_nodes_of_mem_child? {t child : Tree} {role : Role}
    (mem : child ∈ (t.child? role).toList) : child ∈ t.nodes :=
  mem_nodes_of_child? (Option.mem_toList.mp mem)

end Tree

namespace Scope

theorem varHolder_le (scopes : List Scope) (i : Nat) : varHolder scopes i ≤ i := by
  induction i using Nat.strongRecOn with
  | _ i ih =>
      rw [varHolder]
      split
      · exact Nat.le_refl i
      · split
        · exact Nat.le_refl i
        · split
          · exact Nat.le_refl i
          · split
            · rename_i parent _ inner
              exact Nat.le_of_lt (Nat.lt_of_le_of_lt (ih parent inner) inner)
            · exact Nat.le_refl i

end Scope

namespace ScopeWalk

/-- Whether scopes are open, all of them known. -/
structure Ready (walk : ScopeWalk) : Prop where
  opened : walk.opened ≠ []
  known : ∀ o ∈ walk.opened, o.scope < walk.scopes.length

namespace Ready

variable {walk : ScopeWalk}

theorem current (ready : walk.Ready) : walk.current < walk.scopes.length := by
  rw [ScopeWalk.current]
  split
  · rename_i innermost _ row
    exact ready.known innermost (by rw [row]; exact List.mem_cons_self)
  · rename_i none
    exact absurd none ready.opened

theorem head (ready : walk.Ready) : walk.opened.head?.map (·.scope) = some walk.current := by
  rw [ScopeWalk.current]
  split
  · rename_i row
    rw [row]
    rfl
  · rename_i none
    exact absurd none ready.opened

theorem pos (ready : walk.Ready) : 0 < walk.scopes.length :=
  Nat.lt_of_le_of_lt (Nat.zero_le _) ready.current

end Ready

theorem current_declare (source : Bytes) (scope : Nat) (kind : BindingKind) (t : Tree) (walk : ScopeWalk) :
    (walk.declare source scope kind t).current = walk.current := by
  rw [declare]
  split <;> rfl

/-- A property that every step of entering a node preserves. Names are declared in known scopes. -/
structure Stable (source : Bytes) (t : Tree) (holds : ScopeWalk → Prop) : Prop where
  opens : ∀ walk kind, holds walk → holds (walk.openScope kind t)
  declares : ∀ walk scope kind, ∀ name ∈ t.nodes, (walk.Ready → scope < walk.scopes.length) →
    holds walk → holds (walk.declare source scope kind name)
  ignores : ∀ walk nodes, holds walk → holds (walk.ignore nodes)
  notes : ∀ walk range, holds walk → holds { walk with bodies := range :: walk.bodies }
  collects : ∀ walk, holds walk →
    holds { walk with pending := walk.pending ++ [⟨t.text source, t.range, walk.current⟩] }

theorem foldl_preserves {α : Type} {holds : ScopeWalk → Prop} {f : ScopeWalk → α → ScopeWalk}
    {row : List α} (step : ∀ walk, ∀ a ∈ row, holds walk → holds (f walk a)) {walk : ScopeWalk}
    (before : holds walk) : holds (row.foldl f walk) := by
  induction row generalizing walk with
  | nil => exact before
  | cons a rest ih =>
      exact ih (fun walk b mem => step walk b (List.mem_cons_of_mem _ mem))
        (step walk a List.mem_cons_self before)

namespace Stable

variable {source : Bytes} {t : Tree} {holds : ScopeWalk → Prop} (stable : Stable source t holds)
  {walk : ScopeWalk}

include stable

/-- Declaring names one after the other, in scopes that may depend on what is known then. -/
theorem declareAll {names : List Tree} (below : ∀ name ∈ names, name ∈ t.nodes)
    {scope : ScopeWalk → Nat} (known : ∀ walk : ScopeWalk, walk.Ready → scope walk < walk.scopes.length)
    (kind : BindingKind) (before : holds walk) :
    holds (names.foldl (fun walk name => walk.declare source (scope walk) kind name) walk) :=
  foldl_preserves
    (fun walk name mem => stable.declares walk (scope walk) kind name (below name mem) (known walk)) before

theorem declarePatterns {patterns : List Tree} (below : ∀ pattern ∈ patterns, pattern ∈ t.nodes)
    {scope : Nat} (early : scope ≤ walk.current) (kind : BindingKind) (before : holds walk) :
    holds (walk.declarePatterns source scope kind patterns) := by
  -- declaring opens no scope, so the scope stays a known one
  have all := @foldl_preserves Tree (fun next => holds next ∧ scope ≤ next.current)
    (fun walk pattern => walk.declarePattern source scope kind pattern) patterns
    (fun next pattern mem before => ?_) walk ⟨before, early⟩
  · exact all.1
  · refine @foldl_preserves Tree (fun next => holds next ∧ scope ≤ next.current) _ pattern.boundNames
      (fun next name bound before => ⟨?_, ?_⟩) next before
    · exact stable.declares next scope kind name
        (Tree.mem_nodes_trans (Tree.binds_of_boundNames bound).mem_nodes (below pattern mem))
        (fun ready => Nat.lt_of_le_of_lt before.2 ready.current) before.1
    · rw [current_declare]
      exact before.2

theorem enterFunction (before : holds walk) : holds (walk.enterFunction source t) := by
  have name : ∀ n ∈ (t.child? .name).toList, n ∈ t.nodes :=
    fun n mem => Tree.mem_nodes_of_mem_child? mem
  have parameters : ∀ pattern ∈ (t.child? .parameter).toList ++
      ((t.child? .parameters).map Tree.parts).getD [], pattern ∈ t.nodes := by
    intro pattern mem
    rcases List.mem_append.mp mem with single | several
    · exact Tree.mem_nodes_of_mem_child? single
    · cases found : t.child? .parameters with
      | none => simp [found] at several
      | some row =>
          simp only [found, Option.map_some, Option.getD_some] at several
          exact Tree.mem_nodes_trans (Tree.mem_nodes_of_mem_parts several)
            (Tree.mem_nodes_of_child? found)
  have none : ∀ n ∈ ([] : List Tree), n ∈ t.nodes := by simp
  unfold ScopeWalk.enterFunction
  extract_lets names around inside row declared opened named bound
  have declaredHolds : holds declared := by
    refine stable.declareAll ?_ (fun _ ready => ready.current) .function before
    simp only [around]
    split
    · exact name
    · exact none
  have openedHolds : holds opened := stable.opens declared .function declaredHolds
  have namedHolds : holds named := by
    refine stable.declareAll ?_ (fun _ ready => ready.current) .function openedHolds
    simp only [inside]
    split
    · exact none
    · exact name
  have boundHolds : holds bound := stable.declarePatterns parameters (Nat.le_refl _) _ namedHolds
  split
  · split
    · exact stable.notes bound _ boundHolds
    · exact boundHolds
  · exact boundHolds

theorem enterBlock (before : holds walk) : holds (walk.enterBlock source t) := by
  have opened := stable.opens walk .block before
  rw [ScopeWalk.enterBlock]
  split
  · exact before
  · simp only
    split
    · exact stable.declarePatterns (fun _ mem => Tree.mem_nodes_of_mem_child? mem) (Nat.le_refl _) _ opened
    · split
      · exact opened
      · refine stable.declarePatterns (fun _ mem => Tree.mem_nodes_of_mem_child? mem) ?_ _ opened
        split
        · exact Scope.varHolder_le _ _
        · exact Nat.le_refl _
    · exact opened

theorem enterDeclaration (before : holds walk) : holds (walk.enterDeclaration source t) := by
  have below : ∀ name ∈ (t.parts.filter (·.kind == .variableDeclarator)).filterMap (·.child? .name),
      name ∈ t.nodes := by
    intro name mem
    obtain ⟨declarator, among, found⟩ := List.mem_filterMap.mp mem
    exact Tree.mem_nodes_trans (Tree.mem_nodes_of_child? found)
      (Tree.mem_nodes_of_mem_parts (List.mem_filter.mp among).1)
  rw [ScopeWalk.enterDeclaration]
  by_cases var : (t.kind == .variableDeclaration) = true
  · simp only [var, if_true]
    exact stable.declarePatterns below (Scope.varHolder_le _ _) _ before
  · simp only [var, if_false, Bool.false_eq_true]
    exact stable.declarePatterns below (Nat.le_refl _) _ before

theorem enterSpecifier {spec : Tree} (below : spec ∈ t.nodes) (before : holds walk) :
    holds (walk.enterSpecifier source spec) := by
  rw [ScopeWalk.enterSpecifier]
  split
  · rename_i found
    exact stable.declares _ _ _ _ (Tree.mem_nodes_trans (Tree.mem_nodes_of_child? found) below)
      Ready.pos (stable.ignores _ _ before)
  · rename_i found
    split
    · exact stable.declares _ _ _ _ (Tree.mem_nodes_trans (Tree.mem_nodes_of_child? found) below)
        Ready.pos before
    · exact before
  · exact before

theorem enterImported {part : Tree} (below : part ∈ t.nodes) (before : holds walk) :
    holds (walk.enterImported source part) := by
  have deeper {inner : Tree} {p : Tree → Bool} (mem : inner ∈ part.parts.filter p) :
      inner ∈ t.nodes :=
    Tree.mem_nodes_trans (Tree.mem_nodes_of_mem_parts (List.mem_filter.mp mem).1) below
  rw [ScopeWalk.enterImported]
  split
  · exact stable.declares _ _ _ _ below Ready.pos before
  · exact stable.declareAll (fun _ mem => deeper mem) (fun _ => Ready.pos) .import before
  · exact foldl_preserves (fun _ _ mem known => stable.enterSpecifier (deeper mem) known) before
  · exact before

theorem enterImport (before : holds walk) : holds (walk.enterImport source t) := by
  refine foldl_preserves (fun _ part mem known => ?_) before
  obtain ⟨clause, among, inner⟩ := List.mem_flatMap.mp mem
  exact stable.enterImported (Tree.mem_nodes_trans (Tree.mem_nodes_of_mem_parts inner)
    (Tree.mem_nodes_of_mem_parts (List.mem_filter.mp among).1)) known

theorem enterName (before : holds walk) : holds (walk.enterName source t) := by
  rw [ScopeWalk.enterName]
  split
  · exact before
  · exact stable.collects walk before

end Stable

/-- What the steps of entering a node preserve, entering it preserves. -/
theorem Stable.enter {source : Bytes} {cursor : Cursor} {holds : ScopeWalk → Prop}
    (stable : Stable source cursor.focus holds) {walk : ScopeWalk} (before : holds walk) :
    holds (walk.enter source cursor) := by
  unfold ScopeWalk.enter
  simp only
  split
  · exact stable.enterFunction before
  split
  · exact stable.enterBlock before
  split
  · exact stable.enterDeclaration before
  split
  · exact stable.enterName before
  split
  · exact stable.declareAll (fun _ mem => Tree.mem_nodes_of_mem_child? mem) (fun _ ready => ready.current) _
      before
  · split
    · rename_i found
      exact stable.declares _ _ _ _ (Tree.mem_nodes_of_child? found) Ready.current (stable.opens _ _ before)
    · exact before
  · exact stable.enterImport before
  · unfold ScopeWalk.enterExportSpecifier
    simp only
    split
    · exact stable.ignores _ _ (stable.ignores _ _ before)
    · exact stable.ignores _ _ before
  · exact stable.ignores _ _ before
  · exact before

end ScopeWalk

end Rebundle
