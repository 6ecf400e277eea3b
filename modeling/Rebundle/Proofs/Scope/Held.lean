import Rebundle.Proofs.Scope.Entering
import Rebundle.Proofs.Scope.Sites

/-!
# Where declared names stand

What a node declares stands below it: as a child of the node, or in a pattern below it. None of these names stands
where modules exchange names, but for the own name of what an import takes: an export gives a name away and declares
none.
-/

namespace Rebundle

/-- The kinds of the nodes by which modules exchange names. -/
def Kind.exchanges : Kind → Bool
  | .importSpecifier | .exportSpecifier | .namespaceExport => true
  | _ => false

theorem Kind.exchanges_of_isPattern {kind : Kind} (pattern : kind.isPattern = true) : kind.exchanges = false := by
  cases kind <;> first | rfl | cases pattern

namespace Tree

/-- Whether the names of a program are leaves, and the children of its export specifiers play different roles: those
of the name and of the alias, when they are names. -/
structure Plain (root : Tree) : Prop where
  leaves : ∀ t ∈ root.nodes, t.kind.isName = true → t.children.isEmpty = true
  clauses : ∀ t ∈ root.nodes, ∀ child ∈ t.children, child.kind = .exportSpecifier → t.kind = .exportClause
  specifiers : ∀ t ∈ root.nodes, t.kind = .exportSpecifier → (t.children.filterMap (·.label.role)).Nodup ∧
    ∀ child ∈ t.children, child.kind.isName = true →
      child.kind = .identifier ∧ (child.label.role = some .name ∨ child.label.role = some .alias)

instance (root : Tree) : Decidable root.Plain :=
  decidable_of_iff
    ((∀ t ∈ root.nodes, t.kind.isName = true → t.children.isEmpty = true) ∧
      (∀ t ∈ root.nodes, ∀ child ∈ t.children, child.kind = .exportSpecifier → t.kind = .exportClause) ∧
      ∀ t ∈ root.nodes, t.kind = .exportSpecifier → (t.children.filterMap (·.label.role)).Nodup ∧
        ∀ child ∈ t.children, child.kind.isName = true →
          child.kind = .identifier ∧ (child.label.role = some .name ∨ child.label.role = some .alias))
    ⟨fun ⟨leaves, clauses, specifiers⟩ => ⟨leaves, clauses, specifiers⟩,
      fun ⟨leaves, clauses, specifiers⟩ => ⟨leaves, clauses, specifiers⟩⟩

/-- Whether a name is a child of a node below this one. Where modules exchange names this is the own name of what is
imported, unless a function has the node for its parameters. -/
def Holds (t name : Tree) : Prop :=
  ∃ p ∈ t.nodes, name ∈ p.children ∧
    (p.kind.exchanges = true → (p.kind = .importSpecifier ∧ name ∈ p.specifierNames) ∨
      ∃ q ∈ t.nodes, q.kind.opensFunction = true ∧ q.child? .parameters = some p)

/-- Whether a name is one of these nodes, or below one of them. -/
def Among (row : List Tree) (name : Tree) : Prop := ∃ t ∈ row, name = t ∨ t.Holds name

variable {t u name : Tree}

theorem Holds.mem_nodes (holds : t.Holds name) : name ∈ t.nodes := by
  obtain ⟨p, below, child, _⟩ := holds
  exact mem_nodes_trans (child_mem_nodes child) below

theorem Holds.trans (holds : u.Holds name) (mem : u ∈ t.nodes) : t.Holds name := by
  obtain ⟨p, below, child, placed⟩ := holds
  refine ⟨p, mem_nodes_trans below mem, child, fun kind => (placed kind).imp_right ?_⟩
  rintro ⟨q, inside, function⟩
  exact ⟨q, mem_nodes_trans inside mem, function⟩

theorem Holds.ofChild (kind : t.kind.exchanges = false) (child : name ∈ t.children) : t.Holds name :=
  ⟨t, self_mem_nodes t, child, fun same => absurd same (by rw [kind]; exact Bool.false_ne_true)⟩

theorem Holds.ofAmong {row : List Tree} (kind : t.kind.exchanges = false) (among : Among row name)
    (children : ∀ u ∈ row, u ∈ t.children) : t.Holds name := by
  obtain ⟨u, mem, rfl | holds⟩ := among
  · exact .ofChild kind (children name mem)
  · exact holds.trans (child_mem_nodes (children u mem))

/-- A name that a pattern binds is the pattern itself or stands below it. -/
theorem Binds.holds (binds : Binds name t) : name = t ∨ t.Holds name := by
  induction binds with
  | itself => exact .inl rfl
  | inside pattern mem _ ih =>
      rcases ih with rfl | below
      · exact .inr (.ofChild (Kind.exchanges_of_isPattern pattern) mem)
      · exact .inr (below.trans (child_mem_nodes mem))

theorem holds_of_boundNames (mem : name ∈ boundNames t) : name = t ∨ t.Holds name := (binds_of_boundNames mem).holds

/-- The names that these patterns bind. -/
theorem among_of_flatMap {row : List Tree} (mem : name ∈ row.flatMap boundNames) : Among row name := by
  obtain ⟨pattern, here, bound⟩ := List.mem_flatMap.mp mem
  exact ⟨pattern, here, holds_of_boundNames bound⟩

theorem mem_children_of_mem_child? {role : Role} (mem : u ∈ (t.child? role).toList) : u ∈ t.children :=
  List.mem_of_find?_eq_some (Option.mem_toList.mp mem)

section

variable {naming : Naming}

theorem holds_of_functionNamings (opens : t.kind.opensFunction = true)
    (mem : naming ∈ t.functionNamings) : t.Holds naming.name := by
  have kind : t.kind.exchanges = false := by
    unfold Kind.exchanges
    split
    all_goals first | rfl | (rename_i same; rw [same] at opens; cases opens)
  have own {u : Tree} (mem : u ∈ (t.child? .name).toList) : t.Holds u :=
    .ofChild kind (mem_children_of_mem_child? mem)
  rw [functionNamings] at mem
  simp only [List.mem_append, List.mem_map] at mem
  rcases mem with ⟨name, here, rfl⟩ | ⟨name, here, rfl⟩ | ⟨name, bound, rfl⟩
  · split at here
    · exact own here
    · cases here
  · split at here
    · cases here
    · exact own here
  · obtain ⟨pattern, here, bound⟩ := List.mem_flatMap.mp bound
    rcases List.mem_append.mp here with single | several
    · exact .ofAmong kind ⟨pattern, single, holds_of_boundNames bound⟩ fun _ => mem_children_of_mem_child?
    · cases found : t.child? .parameters with
      | none =>
          rw [found] at several
          cases several
      | some row =>
          rw [found] at several
          have child : row ∈ t.children := List.mem_of_find?_eq_some found
          rcases holds_of_boundNames bound with rfl | below
          · exact ⟨row, child_mem_nodes child, (List.mem_filter.mp several).1,
              fun _ => .inr ⟨t, self_mem_nodes t, opens, found⟩⟩
          · exact (below.trans (mem_nodes_of_mem_parts several)).trans (child_mem_nodes child)

theorem holds_of_blockNamings (mem : naming ∈ t.blockNamings) : t.Holds naming.name := by
  have bound {role : Role} {name : Tree} (kind : t.kind.exchanges = false)
      (mem : name ∈ (t.child? role).toList.flatMap boundNames) : t.Holds name :=
    .ofAmong kind (among_of_flatMap mem) fun _ => mem_children_of_mem_child?
  unfold blockNamings at mem
  split at mem
  · rename_i kind
    obtain ⟨name, here, rfl⟩ := List.mem_map.mp mem
    exact bound (by rw [kind]; rfl) here
  · rename_i kind
    split at mem
    · cases mem
    · obtain ⟨name, here, rfl⟩ := List.mem_map.mp mem
      exact bound (by rw [kind]; rfl) here
  · cases mem

theorem holds_of_declarationNamings (mem : naming ∈ t.declarationNamings) : t.Holds naming.name := by
  obtain ⟨name, bound, rfl⟩ := List.mem_map.mp mem
  obtain ⟨pattern, here, bound⟩ := List.mem_flatMap.mp bound
  obtain ⟨declarator, kept, found⟩ := List.mem_filterMap.mp here
  obtain ⟨part, kind⟩ := List.mem_filter.mp kept
  have below : declarator.Holds name := .ofAmong (by rw [beq_iff_eq.mp kind]; rfl)
    ⟨pattern, List.mem_of_find?_eq_some found, holds_of_boundNames bound⟩ fun _ mem => mem
  exact below.trans (mem_nodes_of_mem_parts part)

theorem holds_of_importedNames (mem : name ∈ t.importedNames) : name = t ∨ t.Holds name := by
  unfold importedNames at mem
  split at mem
  · exact .inl (List.mem_singleton.mp mem)
  · rename_i kind
    exact .inr (.ofChild (by rw [kind]; rfl) (List.mem_filter.mp (List.mem_filter.mp mem).1).1)
  · obtain ⟨spec, kept, own⟩ := List.mem_flatMap.mp mem
    obtain ⟨part, kind⟩ := List.mem_filter.mp kept
    have child : name ∈ spec.children := by
      have own := own
      unfold specifierNames at own
      split at own
      · exact List.mem_singleton.mp own ▸ List.mem_of_find?_eq_some ‹_›
      · split at own
        · exact List.mem_singleton.mp own ▸ List.mem_of_find?_eq_some ‹_›
        · cases own
      · cases own
    have inside : spec.Holds name := ⟨spec, self_mem_nodes spec, child, fun _ => .inl ⟨beq_iff_eq.mp kind, own⟩⟩
    exact .inr (inside.trans (mem_nodes_of_mem_parts part))
  · cases mem

theorem holds_of_otherNamings (mem : naming ∈ t.otherNamings) : t.Holds naming.name := by
  unfold otherNamings at mem
  split at mem
  · rename_i kind
    obtain ⟨name, own, rfl⟩ := List.mem_map.mp mem
    exact .ofChild (by rw [kind]; rfl) (mem_children_of_mem_child? own)
  · rename_i kind
    obtain ⟨name, own, rfl⟩ := List.mem_map.mp mem
    exact .ofChild (by rw [kind]; rfl) (mem_children_of_mem_child? own)
  · obtain ⟨name, own, rfl⟩ := List.mem_map.mp mem
    obtain ⟨part, here, own⟩ := List.mem_flatMap.mp own
    obtain ⟨clause, kept, here⟩ := List.mem_flatMap.mp here
    obtain ⟨below, kind⟩ := List.mem_filter.mp kept
    have inside : clause.Holds name := .ofAmong (by rw [beq_iff_eq.mp kind]; rfl)
      ⟨part, (List.mem_filter.mp here).1, holds_of_importedNames own⟩ fun _ mem => mem
    exact inside.trans (mem_nodes_of_mem_parts below)
  · cases mem

/-- What a node declares stands below it, and not where modules exchange names. -/
theorem holds_of_namings (mem : naming ∈ t.namings) : t.Holds naming.name := by
  rw [namings] at mem
  split at mem
  · exact holds_of_functionNamings ‹_› mem
  · split at mem
    · exact holds_of_blockNamings mem
    · split at mem
      · exact holds_of_declarationNamings mem
      · exact holds_of_otherNamings mem

end

end Tree

end Rebundle
