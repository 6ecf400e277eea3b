import Rebundle.Proofs.Scope.Declared

/-!
# Declared names and the names of other modules

What the language says of the nodes that declare names keeps two sorts of names apart: those that a node
declares, and those by which an import or an export names something in another module.
-/

namespace Rebundle

open Cursor Sites

namespace Tree

/-- Whether no two names of a program share a range. The programs that are read are like this
(`namesApart_ofSource`). -/
def NamesApart (root : Tree) : Prop := ((root.nodes.filter fun t => t.kind.isName).map Tree.range).Nodup

/-- The nodes below a node that may name something in another module. -/
def lent (t : Tree) : List Tree :=
  match t.kind with
  | .importStatement => t.importedParts.flatMap renamedImports
  | .exportSpecifier => (t.child? .alias).toList ++ (t.child? .name).toList
  | .namespaceExport => t.parts
  | _ => []

/-- What the language says of the nodes where names are declared: only names are declared, functions have a row
of parameters, and what names something in another module shares its place with no name unless it is one. The
programs that are read are like this (`grammatical_ofSource`). -/
structure Grammatical (root : Tree) : Prop where
  names : ∀ t ∈ root.nodes, ∀ naming ∈ t.namings, naming.name.kind.isName = true
  parameters : ∀ t ∈ root.nodes, t.kind.opensFunction = true → ∀ row, t.child? .parameters = some row →
    row.kind = .formalParameters
  lent : ∀ t ∈ root.nodes, ∀ n ∈ t.lent, n.kind.isName = true ∨
    ∀ name ∈ root.nodes, name.kind.isName = true → name.range ≠ n.range

instance (root : Tree) : Decidable root.NamesApart :=
  inferInstanceAs (Decidable (List.Nodup _))

theorem grammatical_iff (root : Tree) : root.Grammatical ↔
    (∀ t ∈ root.nodes, ∀ naming ∈ t.namings, naming.name.kind.isName = true) ∧
    (∀ t ∈ root.nodes, t.kind.opensFunction = true →
      ∀ row ∈ t.child? .parameters, row.kind = .formalParameters) ∧
    ∀ t ∈ root.nodes, ∀ n ∈ t.lent, n.kind.isName = true ∨
      ∀ name ∈ root.nodes, name.kind.isName = true → name.range ≠ n.range :=
  ⟨fun g => ⟨g.names, g.parameters, g.lent⟩, fun ⟨names, parameters, lent⟩ => ⟨names, parameters, lent⟩⟩

instance (root : Tree) : Decidable root.Grammatical :=
  decidable_of_iff' _ root.grammatical_iff

variable {t n : Tree}

/-- Where the names of other modules stand. -/
theorem exists_of_lent (mem : n ∈ t.lent) : ∃ p ∈ t.nodes, n ∈ p.children ∧ p.kind.exchanges = true ∧
    (p.kind = .importSpecifier → (p.child? .alias).isSome = true ∧ p.child? .name = some n) := by
  unfold lent at mem
  split at mem
  · obtain ⟨part, among, mem⟩ := List.mem_flatMap.mp mem
    obtain ⟨clause, kept, inner⟩ := List.mem_flatMap.mp among
    unfold renamedImports at mem
    split at mem
    · obtain ⟨spec, own, mem⟩ := List.mem_flatMap.mp mem
      obtain ⟨below, kind⟩ := List.mem_filter.mp own
      split at mem
      · rename_i renamed
        have name := Option.mem_toList.mp mem
        refine ⟨spec, ?_, List.mem_of_find?_eq_some name, ?_, fun _ => ⟨renamed, name⟩⟩
        · exact mem_nodes_trans (mem_nodes_of_mem_parts below) (mem_nodes_trans (mem_nodes_of_mem_parts inner)
            (mem_nodes_of_mem_parts (List.mem_filter.mp kept).1))
        · rw [beq_iff_eq.mp kind]
          rfl
      · cases mem
    · cases mem
  · rename_i kind
    refine ⟨t, self_mem_nodes t, ?_, by rw [kind]; rfl, fun other => by rw [kind] at other; cases other⟩
    rcases List.mem_append.mp mem with other | name
    · exact mem_children_of_mem_child? other
    · exact mem_children_of_mem_child? name
  · rename_i kind
    refine ⟨t, self_mem_nodes t, (List.mem_filter.mp mem).1, by rw [kind]; rfl, fun other => ?_⟩
    rw [kind] at other
    cases other
  · cases mem

end Tree

theorem Cursor.lent_of_foreign {d : Cursor} {n : Tree} (mem : n ∈ d.foreign) : n ∈ d.focus.lent := by
  unfold foreign at mem
  split at mem
  · rename_i kind
    rw [Tree.lent, show d.focus.kind = .importStatement from kind]
    exact mem
  · rename_i kind
    rw [Tree.lent, show d.focus.kind = .exportSpecifier from kind]
    refine List.mem_append.mpr ((List.mem_append.mp mem).imp_right fun name => ?_)
    split at name
    · exact name
    · cases name
  · rename_i kind
    rw [Tree.lent, show d.focus.kind = .namespaceExport from kind]
    exact mem
  · cases mem

namespace Sites

variable {root : Tree} {c d e : Cursor} {naming : Naming} {n p : Tree}

/-- A child of a node below a place stands strictly below the place. -/
theorem exists_under (below : p ∈ c.focus.nodes) (child : n ∈ p.children) :
    ∃ e : Cursor, e.focus = n ∧ e.whole = c.whole ∧ c ∈ e.above ∧
      ∃ f : Cursor, e.parent? = some f ∧ f.focus = p := by
  obtain ⟨f, rfl, whole, near⟩ := exists_below below
  obtain ⟨e, up, focus⟩ := exists_child child
  refine ⟨e, focus, (whole_parent up).symm.trans whole, ?_, f, up, rfl⟩
  rw [above_eq up]
  rcases near with rfl | above
  · exact List.mem_cons_self
  · exact List.mem_cons_of_mem _ above

theorem role_of_child? {role : Role} {t : Tree} (found : t.child? role = some n) : n.label.role = some role := by
  have holds := List.find?_some found
  exact beq_iff_eq.mp holds

section

variable (apart : root.NamesApart) (grammatical : root.Grammatical) (standsD : d.whole = root)

include apart grammatical standsD

/-- No name is declared by a node and names something in another module. -/
theorem not_foreign_of_naming (standsE : e.whole = root) (told : naming ∈ d.focus.namings) (mem : n ∈ e.foreign)
    (isName : n.kind.isName = true) : naming.name.range ≠ n.range := by
  intro same
  have declared := grammatical.names d.focus (standsD ▸ d.focus_mem_whole) naming told
  obtain ⟨p, below, child, placed⟩ := Tree.holds_of_namings told
  obtain ⟨q, below', child', exchanges, renamed⟩ := Tree.exists_of_lent (lent_of_foreign mem)
  obtain ⟨f, focusF, wholeF, _, up, upF, rfl⟩ := exists_under below child
  obtain ⟨g, focusG, wholeG, _, up', upG, rfl⟩ := exists_under below' child'
  have equal : f = g := by
    refine eq_of_range_eq apart (wholeF.trans standsD) (wholeG.trans standsE) ?_ ?_ ?_
    · rw [Cursor.kind, focusF]
      exact declared
    · rw [Cursor.kind, focusG]
      exact isName
    · rw [Cursor.range, Cursor.range, focusF, focusG, same]
  subst equal
  cases upF.symm.trans upG
  rcases placed exchanges with ⟨kind, own⟩ | ⟨function, inside, opens, found⟩
  · -- the specifier has an alias, so it declares the alias and not the name
    obtain ⟨some, name⟩ := renamed kind
    obtain ⟨other, aliased⟩ := Option.isSome_iff_exists.mp some
    rw [Tree.specifierNames, aliased] at own
    have roles := role_of_child? aliased
    rw [← List.mem_singleton.mp own, ← focusF, focusG, role_of_child? name] at roles
    cases roles
  · rw [grammatical.parameters function (Tree.mem_nodes_trans inside (standsD ▸ d.focus_mem_whole)) opens _ found]
      at exchanges
    cases exchanges

end

end Sites

end Rebundle
