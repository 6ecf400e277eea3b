import Rebundle.Proofs.Scope.Grammatical
import Rebundle.Proofs.Syntax.Constructs

/-!
# Names of programs that are read

Reading a source gives a tree in which no two names share a range, and which is as the language says where names are
declared. So what is said of such trees holds of every source.
-/

namespace Rebundle

namespace Kind

variable {kind child : Kind} {isLeaf : Bool}

/-- What a function that is no method asks of its name. -/
theorem isName_of_asked (opens : kind.opensFunction = true) (other : kind ≠ .methodDefinition)
    (met : (kind.asks (some .name)).Met child isLeaf) : child.isName = true := by
  cases kind <;> first | exact met | exact absurd rfl other | exact False.elim met | cases opens

theorem parameters_of_asked (opens : kind.opensFunction = true)
    (met : (kind.asks (some .parameters)).Met child isLeaf) : child = .formalParameters := by
  cases kind <;> first | exact met | exact False.elim met | cases opens

/-- Where modules exchange names there are leaves only, but for the names that are given. -/
theorem leaf_of_asked {role : Option Role} (exchanging : kind.exchanges = true)
    (met : (kind.asks role).Met child isLeaf) : child.isName = true ∨ isLeaf = true := by
  unfold exchanges at exchanging
  split at exchanging
  · unfold asks at met
    dsimp only at met
    split at met
    · exact .inl met
    · exact .inr met
  · exact .inr met
  · exact .inr met
  · cases exchanging

end Kind

namespace Tree

variable {root t name : Tree} {naming : Naming} {start stop : Nat}

theorem isName_of_flatMap_boundNames {row : List Tree} (mem : name ∈ row.flatMap boundNames) :
    name.kind.isName = true := by
  obtain ⟨_, _, mem⟩ := List.mem_flatMap.mp mem
  exact (binds_of_boundNames mem).isName

namespace Regular

section

variable (regular : root.Regular) (mem : t ∈ root.nodes)

include regular mem

theorem asked_of_child? {role : Role} (found : t.child? role = some name) :
    (t.kind.asks (some role)).Met name.kind name.children.isEmpty := by
  have asked := regular.asked t mem name (List.mem_of_find?_eq_some found)
  rwa [Sites.role_of_child? found] at asked

theorem isName_of_functionNamings (opens : t.kind.opensFunction = true) (told : naming ∈ t.functionNamings) :
    naming.name.kind.isName = true := by
  have own {name : Tree} (other : t.kind ≠ .methodDefinition) (here : name ∈ (t.child? .name).toList) :
      name.kind.isName = true :=
    Kind.isName_of_asked opens other (regular.asked_of_child? mem (Option.mem_toList.mp here))
  rw [functionNamings] at told
  simp only [List.mem_append, List.mem_map] at told
  rcases told with ⟨name, here, rfl⟩ | ⟨name, here, rfl⟩ | ⟨name, bound, rfl⟩
  · split at here
    · rename_i declaration
      refine own (fun method => ?_) here
      rw [method] at declaration
      cases declaration
    · cases here
  · split at here
    · cases here
    · rename_i other
      refine own (fun method => ?_) here
      rw [method] at other
      exact other rfl
  · exact isName_of_flatMap_boundNames bound

theorem isName_of_specifierNames (kind : t.kind = .importSpecifier) (own : name ∈ t.specifierNames) :
    name.kind.isName = true := by
  unfold specifierNames at own
  split at own
  · rename_i aliased
    have met := regular.asked_of_child? mem aliased
    rw [kind] at met
    rw [List.mem_singleton.mp own]
    exact met
  · split at own
    · rename_i isName
      rw [List.mem_singleton.mp own, beq_iff_eq.mp isName]
      rfl
    · cases own
  · cases own

theorem isName_of_importedNames (own : name ∈ t.importedNames) : name.kind.isName = true := by
  unfold importedNames at own
  split at own
  · rename_i kind
    rw [List.mem_singleton.mp own, kind]
    rfl
  · rw [beq_iff_eq.mp (List.mem_filter.mp own).2]
    rfl
  · obtain ⟨spec, kept, own⟩ := List.mem_flatMap.mp own
    obtain ⟨part, kind⟩ := List.mem_filter.mp kept
    exact regular.isName_of_specifierNames (mem_nodes_trans (mem_nodes_of_mem_parts part) mem)
      (beq_iff_eq.mp kind) own
  · cases own

theorem isName_of_otherNamings (told : naming ∈ t.otherNamings) : naming.name.kind.isName = true := by
  unfold otherNamings at told
  split at told
  · rename_i kind
    obtain ⟨name, own, rfl⟩ := List.mem_map.mp told
    have met := regular.asked_of_child? mem (Option.mem_toList.mp own)
    rw [kind] at met
    exact met
  · rename_i kind
    obtain ⟨name, own, rfl⟩ := List.mem_map.mp told
    have met := regular.asked_of_child? mem (Option.mem_toList.mp own)
    rw [kind] at met
    exact met
  · obtain ⟨name, own, rfl⟩ := List.mem_map.mp told
    obtain ⟨part, here, own⟩ := List.mem_flatMap.mp own
    obtain ⟨clause, kept, here⟩ := List.mem_flatMap.mp here
    have below : part ∈ t.nodes :=
      mem_nodes_trans (mem_nodes_of_mem_parts here) (mem_nodes_of_mem_parts (List.mem_filter.mp kept).1)
    exact regular.isName_of_importedNames (mem_nodes_trans below mem) own
  · cases told

/-- Only names are declared. -/
theorem isName_of_namings (told : naming ∈ t.namings) : naming.name.kind.isName = true := by
  rw [namings] at told
  split at told
  · exact regular.isName_of_functionNamings mem ‹_› told
  · split at told
    · unfold blockNamings at told
      split at told
      · obtain ⟨name, bound, rfl⟩ := List.mem_map.mp told
        exact isName_of_flatMap_boundNames bound
      · split at told
        · cases told
        · obtain ⟨name, bound, rfl⟩ := List.mem_map.mp told
          exact isName_of_flatMap_boundNames bound
      · cases told
    · split at told
      · obtain ⟨name, bound, rfl⟩ := List.mem_map.mp told
        exact isName_of_flatMap_boundNames bound
      · exact regular.isName_of_otherNamings mem told

end

/-- Names that are laid out and not empty do not share their ranges. -/
theorem namesApart (regular : root.Regular) (laid : LaidBetween start stop root.children) : root.NamesApart := by
  have apart {a b : Tree} (memA : a ∈ root.nodes.filter fun t => t.kind.isName) (behind : a.stop ≤ b.start) :
      a.range ≠ b.range := by
    intro same
    obtain ⟨below, isName⟩ := List.mem_filter.mp memA
    have wide := (regular.names a below isName).2
    have : a.start = b.start := congrArg Range.start same
    omega
  have ordered : (root.nodes.filter fun t => t.kind.isName).Pairwise fun a b => a.stop ≤ b.start := by
    obtain ⟨label, children⟩ := root
    rw [nodes, List.filter_cons]
    split
    · rename_i isName
      obtain ⟨rfl, _⟩ : children = [] ∧ _ := regular.names _ (self_mem_nodes _) isName
      exact List.pairwise_singleton _ _
    · exact laid.pairwise_names fun t mem => regular.child mem
  exact List.pairwise_map.mpr (ordered.imp_of_mem fun memA _ behind => apart memA behind)

/-- A leaf that has the range of a name is the name. -/
theorem eq_of_range_eq (regular : root.Regular) (laid : LaidBetween start stop root.children)
    (memT : t ∈ root.nodes) (memName : name ∈ root.nodes) (leaf : t.children = [])
    (isName : name.kind.isName = true)
    (same : name.range = t.range) : t = name := by
  have alone {u v : Tree} (leaf : v.children = []) (mem : u ∈ v.nodes) : u = v := by
    rcases mem_nodes.mp mem with rfl | ⟨child, own, _⟩
    · rfl
    · rw [leaf] at own
      cases own
  obtain ⟨leafName, wide⟩ := regular.names name memName isName
  by_cases bare : root.children = []
  · exact (alone bare memT).trans (alone bare memName).symm
  -- the root may end before its children do, so the children are laid out in a node of their own
  let hull : Tree := .node ⟨.program, none, ⟨start, stop⟩, false⟩ root.children
  have laidHull : hull.Laid := by
    rw [Laid]
    exact laid
  have inHull {u : Tree} (mem : u ∈ root.nodes) (leaf : u.children = []) : u ∈ hull.nodes := by
    rcases mem_nodes.mp mem with rfl | below
    · exact absurd leaf bare
    · exact mem_nodes.mpr (.inr below)
  rcases laidHull.comparable (inHull memT leaf) (inHull memName leafName) with below | below | apart
  · exact alone leafName below
  · exact (alone leaf below).symm
  · have starts : name.start = t.start := congrArg Range.start same
    have stops : name.stop = t.stop := congrArg Range.stop same
    omega

/-- Where names are declared a regular tree is as the language says. -/
theorem grammatical (regular : root.Regular) (laid : LaidBetween start stop root.children) : root.Grammatical where
  names t mem naming told := regular.isName_of_namings mem told
  parameters t mem opens row found := Kind.parameters_of_asked opens (regular.asked_of_child? mem found)
  lent t mem n lent := by
    obtain ⟨p, below, child, exchanges, _⟩ := exists_of_lent lent
    have inside := mem_nodes_trans below mem
    rcases Kind.leaf_of_asked exchanges (regular.asked p inside n child) with isName | leaf
    · exact .inl isName
    · by_cases isName : n.kind.isName = true
      · exact .inl isName
      · refine .inr fun name memName nameIsName same => isName ?_
        rw [regular.eq_of_range_eq laid (mem_nodes_trans (child_mem_nodes child) inside) memName
          (List.isEmpty_iff.mp leaf) nameIsName same]
        exact nameIsName

end Regular

/-- No two names of a program that is read share a range. -/
theorem namesApart_ofSource (dialect : Dialect) (source : Bytes) : (ofSource dialect source).NamesApart :=
  (regular_ofSource dialect source).namesApart (Sprout.laid_placeAll 0 _)

/-- A program that is read is as the language says where names are declared. -/
theorem grammatical_ofSource (dialect : Dialect) (source : Bytes) : (ofSource dialect source).Grammatical :=
  (regular_ofSource dialect source).grammatical (Sprout.laid_placeAll 0 _)

end Tree

end Rebundle
