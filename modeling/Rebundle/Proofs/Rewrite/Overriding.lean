import Rebundle.Proofs.Document.Covered
import Rebundle.Proofs.Rewrite.Agreement

/-!
# Removed functions

The removal of a function declaration covers more than the body of the function. Where a node is written
again and the function is in it, the removal is in it too; where the function is around the node, the
removal covers the node with all that is written again along with it.
-/

namespace Rebundle

open Source Tree

/-- A program in which no function declaration lacks its name. -/
def Tree.NamesFunctions (root : Tree) : Prop :=
  ∀ t ∈ root.nodes, t.kind.isFunctionDeclaration = true →
    ∀ child ∈ t.children, child.label.role = some .name → child.start < child.stop

instance (root : Tree) : Decidable root.NamesFunctions :=
  inferInstanceAs (Decidable (∀ t ∈ root.nodes, t.kind.isFunctionDeclaration = true →
    ∀ child ∈ t.children, child.label.role = some .name → child.start < child.stop))

/-- The ranges that deleting a statement covers: its lines in a list of statements, or the statement. -/
inductive Deleted (source : Bytes) (root t : Tree) : Range → Prop where
  | lines {list : Tree} (mem : list ∈ root.nodes) (child : t ∈ list.children)
      (lists : list.kind.listsStatements = true) : Deleted source root t (extent source t.range)
  | alone : Deleted source root t t.range

/-- The ranges that removing a declaration covers: it is deleted, or the export around it. -/
inductive Removed (source : Bytes) (root declaration : Tree) : Range → Prop where
  | itself {range : Range} (deleted : Deleted source root declaration range) :
      Removed source root declaration range
  | exported {t : Tree} {range : Range} (mem : t ∈ root.nodes) (kind : t.kind = .exportStatement)
      (child : declaration ∈ t.children) (deleted : Deleted source root t range) :
      Removed source root declaration range

section

variable {source : Bytes} {root : Tree}

namespace Deleted

variable {t : Tree} {range : Range}

theorem covers (deleted : Deleted source root t range) (wf : root.WellFormed source)
    (mem : t ∈ root.nodes) : range.start ≤ t.start ∧ t.stop ≤ range.stop := by
  cases deleted with
  | lines =>
      have wide := wf.widened mem
      exact ⟨wide.begins, wide.ends⟩
  | alone => exact ⟨Nat.le_refl _, Nat.le_refl _⟩

/-- What a deletion covers lies in every other node around the statement. -/
theorem inside (deleted : Deleted source root t range) (wf : root.WellFormed source)
    (deletable : t.kind.isDeletable = true) {parent node : Tree}
    (parentMem : parent ∈ root.nodes) (child : node ∈ parent.children)
    (noCase : node.kind.isCase = false) (above : t ∈ node.nodes) (other : node ≠ t) :
    node.start ≤ range.start ∧ range.stop ≤ node.stop := by
  cases deleted with
  | lines listMem childT lists =>
      rcases wf.extent_inside listMem childT lists deletable parentMem child noCase above with same | inside
      · exact absurd same other
      · exact ⟨Nat.le_of_lt inside.1, Nat.le_of_lt inside.2⟩
  | alone => exact ((wf.laid.node (WellFormed.child_node parentMem child)).1.node above).2

end Deleted

namespace Removed

variable {declaration : Tree} {range : Range}

theorem covers (removed : Removed source root declaration range) (wf : root.WellFormed source)
    (mem : declaration ∈ root.nodes) :
    range.start ≤ declaration.start ∧ declaration.stop ≤ range.stop := by
  cases removed with
  | itself deleted => exact deleted.covers wf mem
  | exported memT _ child deleted =>
      have outer := deleted.covers wf memT
      have inner := (wf.laid.node memT).1.child child
      omega

/-- What a removal covers lies in every node around the declaration but the export. -/
theorem inside (removed : Removed source root declaration range) (wf : root.WellFormed source)
    (mem : declaration ∈ root.nodes) (deletable : declaration.kind.isDeletable = true)
    {parent node : Tree} (parentMem : parent ∈ root.nodes) (child : node ∈ parent.children)
    (noCase : node.kind.isCase = false) (above : declaration ∈ node.nodes) (other : node ≠ declaration)
    (noExport : node.kind ≠ .exportStatement) :
    node.start ≤ range.start ∧ range.stop ≤ node.stop := by
  cases removed with
  | itself deleted => exact deleted.inside wf deletable parentMem child noCase above other
  | @exported t _ memT kind childT deleted =>
      have nodeMem := WellFormed.child_node parentMem child
      have nonempty : declaration.start < declaration.stop :=
        (wf.solid_of_deletable mem deletable).start_lt_stop
      have aboveT : t ∈ node.nodes := by
        rcases exists_parent above with same | ⟨owner, below, childOwner⟩
        · exact absurd same.symm other
        · rwa [wf.laid.parent_unique memT (mem_nodes_trans below nodeMem) childT childOwner nonempty]
      refine deleted.inside wf (by rw [kind]; rfl) parentMem child noCase aboveT ?_
      rintro rfl
      exact noExport kind

end Removed

/-- One edit removes a function declaration, another one replaces the body of the function. -/
structure Overriding (source : Bytes) (root function name body : Tree) (guard edit : Edit) : Prop where
  known : function ∈ root.nodes
  declares : function.kind.isFunctionDeclaration = true
  named : function.child? .name = some name
  has : function.child? .body = some body
  replaces : edit.range = body.range
  removed : Removed source root function guard.range
  plain : ∃ t, guard.parts = [.text t]
  reason : guard.reason = "remove function"

def Overrides (source : Bytes) (root : Tree) (guard edit : Edit) : Prop :=
  ∃ function name body, Overriding source root function name body guard edit

namespace Overriding

variable {function name body : Tree} {guard edit : Edit}
  (overriding : Overriding source root function name body guard edit)

include overriding

theorem name_child : name ∈ function.children := List.mem_of_find?_eq_some overriding.named

theorem body_child : body ∈ function.children := List.mem_of_find?_eq_some overriding.has

theorem body_role : body.label.role = some .body := by simpa using List.find?_some overriding.has

theorem name_role : name.label.role = some .name := by simpa using List.find?_some overriding.named

theorem name_ne_body : name ≠ body := by
  rintro rfl
  have role := overriding.name_role
  rw [overriding.body_role] at role
  cases role

theorem body_nonempty (wf : root.WellFormed source) : body.start < body.stop := by
  have isFunction : function.kind.isFunction = true := by
    simp [Kind.isFunction, overriding.declares]
  exact (wf.solid function overriding.known body overriding.body_child
    (.inr ⟨isFunction, overriding.body_role⟩)).start_lt_stop

/-- No child of the function takes up all of it. -/
theorem child_lt (wf : root.WellFormed source) (names : root.NamesFunctions) {child : Tree}
    (mem : child ∈ function.children) : function.start < child.start ∨ child.stop < function.stop := by
  have laid := (wf.laid.node overriding.known).1
  have filled := overriding.body_nonempty wf
  have called := names function overriding.known overriding.declares name overriding.name_child
    overriding.name_role
  have nameInside := laid.child overriding.name_child
  have bodyInside := laid.child overriding.body_child
  rcases laid.siblings mem overriding.name_child with rfl | apart
  · rcases laid.siblings overriding.name_child overriding.body_child with same | apart
    · exact absurd same overriding.name_ne_body
    · omega
  · omega

theorem dominates (wf : root.WellFormed source) (names : root.NamesFunctions) :
    guard.dominates edit = true := by
  have covers := overriding.removed.covers wf overriding.known
  have inside := (wf.laid.node overriding.known).1.child overriding.body_child
  have smaller := overriding.child_lt wf names overriding.body_child
  have filled := overriding.body_nonempty wf
  have starts : edit.start = body.start := congrArg Range.start overriding.replaces
  have stops : edit.stop = body.stop := congrArg Range.stop overriding.replaces
  simp only [Edit.range] at covers
  rw [Edit.dominates_iff]
  omega

/-- A node that is written again, with the body in it, has the removal in it, unless the function is
around the node. -/
theorem inside (wf : root.WellFormed source) {parent node : Tree} (parentMem : parent ∈ root.nodes)
    (child : node ∈ parent.children)
    (kind : node.kind = .variableDeclarator ∨ node.kind = .expressionStatement)
    (around : node.start ≤ edit.start ∧ edit.stop ≤ node.stop) :
    (node.start ≤ guard.start ∧ guard.stop ≤ node.stop) ∨ node ∈ function.nodes := by
  have starts : edit.start = body.start := congrArg Range.start overriding.replaces
  have stops : edit.stop = body.stop := congrArg Range.stop overriding.replaces
  have nodeMem := WellFormed.child_node parentMem child
  have filled := overriding.body_nonempty wf
  have bodyInside := (wf.laid.node overriding.known).1.child overriding.body_child
  have other : node ≠ function := by
    rintro rfl
    have declares := overriding.declares
    rcases kind with kind | kind <;> rw [kind] at declares <;> cases declares
  rcases wf.laid.comparable nodeMem overriding.known with below | above | apart
  · exact .inr below
  · refine .inl (overriding.removed.inside wf overriding.known
      (Kind.isDeletable_of_declares (.inl overriding.declares)).1 parentMem child ?_ above other ?_)
    · rcases kind with kind | kind <;> rw [kind] <;> rfl
    · rcases kind with kind | kind <;> rw [kind] <;> simp
  · omega

/-- A statement of the program is in no function. -/
theorem not_mem_nodes (wf : root.WellFormed source) {t : Tree} (child : t ∈ root.children)
    (kind : t.kind = .expressionStatement) : t ∉ function.nodes := by
  intro below
  have declares := overriding.declares
  have filled : t.start < t.stop :=
    (wf.solid_of_deletable (child_mem_nodes child) (by rw [kind]; rfl)).start_lt_stop
  rcases exists_parent below with rfl | ⟨owner, ownerBelow, childOwner⟩
  · rw [kind] at declares
    cases declares
  · have same := wf.laid.parent_unique (self_mem_nodes root) (mem_nodes_trans ownerBelow overriding.known)
      child childOwner filled
    subst same
    have top := mem_nodes_antisymm ownerBelow overriding.known
    rw [← top, wf.program] at declares
    cases declares

/-- The removal dominates what replaces the declarators of a declaration inside the function. -/
theorem dominates_declarators (wf : root.WellFormed source) (names : root.NamesFunctions)
    {declaration first last declarator : Tree} (mem : declaration ∈ root.nodes)
    (declares : declaration.kind.isVariableDeclaration = true) (hull : declaration.Hull first last)
    (child : declarator ∈ declaration.declarators)
    (below : declarator ∈ function.nodes) {other : Edit} (starts : other.start = first.start)
    (stops : other.stop = last.stop) : guard.dominates other = true := by
  have childMem := declaration.declarators_sublist.mem child
  have kind := kind_of_mem_declarators child
  have filled : declarator.start < declarator.stop :=
    (wf.solid_of_rewritten (WellFormed.child_node mem childMem) (by rw [kind]; rfl)).start_lt_stop
  -- the only parent of the declarator is the declaration, so that is in the function too
  obtain ⟨owner, ownerBelow, childOwner⟩ : ∃ owner ∈ function.nodes, declarator ∈ owner.children := by
    rcases exists_parent below with same | parent
    · have declares := overriding.declares
      rw [← same, kind] at declares
      cases declares
    · exact parent
  have same := wf.laid.parent_unique mem (mem_nodes_trans ownerBelow overriding.known) childMem childOwner
    filled
  subst same
  have covers := overriding.removed.covers wf overriding.known
  have laid := (wf.laid.node overriding.known).1
  have inside := hull.inside (wf.laid.node mem).1
  have wide := hull.declarator (wf.laid.node mem).1 child
  simp only [Edit.range] at covers
  rw [Edit.dominates_iff]
  rcases mem_nodes.mp ownerBelow with rfl | ⟨inner, innerMem, innerBelow⟩
  · have function := overriding.declares
    revert function declares
    cases declaration.kind <;> simp [Kind.isFunctionDeclaration, Kind.isVariableDeclaration]
  · have smaller := overriding.child_lt wf names innerMem
    have insideInner := (laid.child innerMem).1.node innerBelow
    have innerInside := laid.child innerMem
    omega

end Overriding

end

end Rebundle
