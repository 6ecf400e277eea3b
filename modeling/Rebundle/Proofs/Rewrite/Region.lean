import Mathlib.Data.List.Pairwise
import Rebundle.Patch
import Rebundle.Proofs.Document.Extent
import Rebundle.Proofs.Syntax.Layout

/-!
# Regions of edits

The passes record edits on three kinds of regions: the range of a node, the declarators of a
declaration from the first to the last, and the widened range of a statement that is deleted from a
list. In a well-formed tree any two such regions are nested or disjoint: the braces around an inner
list stop the widening, and no node that an edit covers begins or ends in the blanks between two
statements.
-/

namespace Rebundle

namespace Kind

/-- Kinds of statements that may be deleted. -/
def isDeletable : Kind → Bool
  | .importStatement | .exportStatement | .expressionStatement => true
  | k => k.isFunctionDeclaration || k.isVariableDeclaration

/-- Kinds of the nodes that edits replace, delete or write again for what they are. -/
def isRewritten : Kind → Bool
  | .memberExpression | .callExpression | .variableDeclarator => true
  | k => k.isDeletable || k.isName

/-- Kinds of the nodes whose body may be replaced. -/
def isFunction (k : Kind) : Bool :=
  k.isFunctionDeclaration || k == .methodDefinition || Body.isFunctionValue k

def isCase : Kind → Bool
  | .switchCase | .switchDefault => true
  | _ => false

theorem listsStatements_cases {k : Kind} (h : k.listsStatements = true) :
    k = .program ∨ (k = .statementBlock ∨ k = .classStaticBlock) ∨ k.isCase = true := by
  cases k <;> simp_all [listsStatements, isCase]

theorem isRewritten_of_isDeletable {k : Kind} (h : k.isDeletable = true) : k.isRewritten = true := by
  cases k <;> simp_all [isRewritten]

/-- Declarations may be deleted, and they are no statements of an expression. -/
theorem isDeletable_of_declares {k : Kind}
    (declares : k.isFunctionDeclaration = true ∨ k.isVariableDeclaration = true) :
    k.isDeletable = true ∧ k ≠ .expressionStatement := by
  cases k <;> simp_all [isDeletable, isFunctionDeclaration, isVariableDeclaration]

theorem not_isCase_of_isRewritten {k : Kind} (h : k.isRewritten = true) : k.isCase = false := by
  cases k <;> first | rfl | cases h

end Kind

/-- Whether one range lies between an opening and a closing brace of another. -/
def Fenced (source : Bytes) (outer inner : Range) : Prop :=
  ∃ opening closing, outer.start ≤ opening ∧ opening < inner.start ∧ inner.stop ≤ closing ∧
    closing < outer.stop ∧ source[opening]? = some 0x7B ∧ source[closing]? = some 0x7D

instance (source : Bytes) (outer inner : Range) : Decidable (Fenced source outer inner) :=
  decidable_of_iff
    ((∃ opening, opening < inner.start ∧ outer.start ≤ opening ∧ source[opening]? = some 0x7B) ∧
      ∃ closing, closing < outer.stop ∧ inner.stop ≤ closing ∧ source[closing]? = some 0x7D)
    ⟨fun ⟨⟨opening, before, begins, opens⟩, closing, ends, behind, closes⟩ =>
        ⟨opening, closing, begins, before, behind, ends, opens, closes⟩,
      fun ⟨opening, closing, begins, before, behind, ends, opens, closes⟩ =>
        ⟨⟨opening, before, begins, opens⟩, closing, ends, behind, closes⟩⟩

namespace Tree

/-- Whether edits may cover a child of a node: for its kind, or as the body of a function. -/
def Rewritable (parent child : Tree) : Prop :=
  child.kind.isRewritten = true ∨
    parent.kind.isFunction = true ∧ child.label.role = some .body

instance (parent child : Tree) : Decidable (Rewritable parent child) :=
  inferInstanceAs (Decidable (_ ∨ _ ∧ _))

/-- The declarators among the parts of a declaration. -/
def declarators (t : Tree) : List Tree := t.parts.filter fun part => part.kind == .variableDeclarator

/-- A program whose nodes are laid out in its source. Nodes that edits cover begin and end with more
than blanks, and the statements of a block or of a case lie between braces: those of the block, or
those of the switch around the case. -/
structure WellFormed (source : Bytes) (root : Tree) : Prop where
  program : root.kind = .program
  inner : ∀ t ∈ root.nodes, ∀ child ∈ t.children, child.kind ≠ .program
  laid : root.Laid
  fits : root.stop ≤ source.length
  solid : ∀ t ∈ root.nodes, ∀ child ∈ t.children, t.Rewritable child → Solid source child.range
  block : ∀ t ∈ root.nodes, t.kind = .statementBlock ∨ t.kind = .classStaticBlock →
    ∀ child ∈ t.children, child.kind.isDeletable = true → Fenced source t.range child.range
  case : ∀ t ∈ root.nodes, ∀ child ∈ t.children, child.kind.isCase = true →
    t.kind = .switchBody ∧ ∀ statement ∈ child.children, statement.kind.isDeletable = true →
      Fenced source t.range statement.range

instance (source : Bytes) (root : Tree) : Decidable (WellFormed source root) :=
  decidable_of_iff
    (root.kind = .program ∧ (∀ t ∈ root.nodes, ∀ child ∈ t.children, child.kind ≠ .program) ∧
      root.Laid ∧ root.stop ≤ source.length ∧
      (∀ t ∈ root.nodes, ∀ child ∈ t.children, t.Rewritable child → Solid source child.range) ∧
      (∀ t ∈ root.nodes, t.kind = .statementBlock ∨ t.kind = .classStaticBlock →
        ∀ child ∈ t.children, child.kind.isDeletable = true → Fenced source t.range child.range) ∧
      ∀ t ∈ root.nodes, ∀ child ∈ t.children, child.kind.isCase = true →
        t.kind = .switchBody ∧ ∀ statement ∈ child.children, statement.kind.isDeletable = true →
          Fenced source t.range statement.range)
    ⟨fun ⟨program, inner, laid, fits, solid, block, case⟩ =>
        ⟨program, inner, laid, fits, solid, block, case⟩,
      fun ⟨program, inner, laid, fits, solid, block, case⟩ =>
        ⟨program, inner, laid, fits, solid, block, case⟩⟩

/-- Every node but the root has a parent. -/
theorem exists_parent {root t : Tree} (mem : t ∈ root.nodes) :
    t = root ∨ ∃ parent ∈ root.nodes, t ∈ parent.children := by
  induction root using childrenInduction with
  | step root ih =>
      rcases mem_nodes.mp mem with rfl | ⟨child, memChild, below⟩
      · exact .inl rfl
      · rcases ih child memChild below with rfl | ⟨parent, memParent, memT⟩
        · exact .inr ⟨root, self_mem_nodes root, memChild⟩
        · exact .inr ⟨parent, mem_nodes_trans memParent (child_mem_nodes memChild), memT⟩

/-- The first and the last declarator of a declaration. -/
structure Hull (t first last : Tree) : Prop where
  head : t.declarators.head? = some first
  tail : t.declarators.getLast? = some last

theorem declarators_sublist (t : Tree) : t.declarators.Sublist t.children :=
  List.filter_sublist.trans List.filter_sublist

theorem kind_of_mem_declarators {t declarator : Tree} (mem : declarator ∈ t.declarators) :
    declarator.kind = .variableDeclarator := by
  simpa using (List.mem_filter.mp mem).2

theorem isRewritten_of_mem_declarators {t declarator : Tree} (mem : declarator ∈ t.declarators) :
    declarator.kind.isRewritten = true := by
  rw [kind_of_mem_declarators mem]
  rfl

namespace Hull

variable {t first last : Tree} (hull : t.Hull first last)

include hull

/-- A declaration has one first declarator and one last. -/
theorem unique {first' last' : Tree} (hull' : t.Hull first' last') : first = first' ∧ last = last' :=
  ⟨Option.some.inj (hull.head.symm.trans hull'.head), Option.some.inj (hull.tail.symm.trans hull'.tail)⟩

theorem first_mem_declarators : first ∈ t.declarators := List.mem_of_head? hull.head

theorem last_mem_declarators : last ∈ t.declarators := List.mem_of_getLast? hull.tail

theorem first_mem : first ∈ t.children := t.declarators_sublist.mem hull.first_mem_declarators

theorem last_mem : last ∈ t.children := t.declarators_sublist.mem hull.last_mem_declarators

theorem first_kind : first.kind = .variableDeclarator :=
  kind_of_mem_declarators hull.first_mem_declarators

theorem last_kind : last.kind = .variableDeclarator :=
  kind_of_mem_declarators hull.last_mem_declarators

theorem first_last (laid : t.Laid) : first = last ∨ first.stop ≤ last.start := by
  have ordered := laid.children.pairwise.sublist t.declarators_sublist
  obtain ⟨rest, row⟩ := List.head?_eq_some_iff.mp hull.head
  have known := hull.last_mem_declarators
  rw [row] at ordered known
  rcases List.mem_cons.mp known with same | later
  · exact .inl same.symm
  · exact .inr ((List.pairwise_cons.mp ordered).1 last later)

theorem inside (laid : t.Laid) :
    t.start ≤ first.start ∧ first.start ≤ last.stop ∧ last.stop ≤ t.stop := by
  have laidFirst := laid.child hull.first_mem
  have laidLast := laid.child hull.last_mem
  have := laidFirst.1.start_le_stop
  have := laidLast.1.start_le_stop
  rcases hull.first_last laid with rfl | apart <;> omega

/-- Every declarator lies between the first and the last. -/
theorem declarator (laid : t.Laid) {declarator : Tree} (mem : declarator ∈ t.declarators) :
    first.start ≤ declarator.start ∧ declarator.stop ≤ last.stop := by
  have ordered : t.declarators.Pairwise fun a b => a.start ≤ b.start ∧ a.stop ≤ b.stop := by
    refine (laid.children.pairwise.sublist t.declarators_sublist).imp_of_mem ?_
    intro a b memA memB apart
    have := (laid.child (t.declarators_sublist.mem memA)).1.start_le_stop
    have := (laid.child (t.declarators_sublist.mem memB)).1.start_le_stop
    omega
  have : Std.Refl fun a b : Tree => a.start ≤ b.start ∧ a.stop ≤ b.stop :=
    ⟨fun _ => ⟨Nat.le_refl _, Nat.le_refl _⟩⟩
  have front := ordered.rel_head mem
  have back := ordered.rel_getLast mem
  rw [List.head_of_head?_eq_some hull.head] at front
  rw [List.getLast_of_getLast?_eq_some hull.tail] at back
  exact ⟨front.1, back.2⟩

/-- A child of a declaration stands before its declarators, behind them or in between, or it is the
first or the last of them. -/
theorem child_cases (laid : t.Laid) {child : Tree} (mem : child ∈ t.children) :
    child.stop ≤ first.start ∨ last.stop ≤ child.start ∨ child = first ∨ child = last ∨
      first.stop ≤ child.start ∧ child.stop ≤ last.start := by
  rcases laid.siblings mem hull.first_mem with rfl | before | behind
  · simp
  · exact .inl before
  · rcases laid.siblings mem hull.last_mem with rfl | before | behind'
    · simp
    · exact .inr (.inr (.inr (.inr ⟨behind, before⟩)))
    · exact .inr (.inl behind')

/-- What lies inside a child of a declaration lies before its declarators, behind them or within them. -/
theorem inside_child_cases (laid : t.Laid) {child : Tree} (mem : child ∈ t.children) {start stop : Nat}
    (begins : child.start ≤ start) (ends : stop ≤ child.stop) :
    stop ≤ first.start ∨ last.stop ≤ start ∨ first.start ≤ start ∧ stop ≤ last.stop := by
  have := (laid.child hull.first_mem).1.start_le_stop
  have := (laid.child hull.last_mem).1.start_le_stop
  have order := hull.first_last laid
  rcases hull.child_cases laid mem with before | behind | rfl | rfl | between
  · omega
  · omega
  · rcases order with rfl | apart <;> omega
  · rcases order with rfl | apart <;> omega
  · omega

/-- What lies inside a child of a declaration is nested in its declarators or disjoint from them. -/
theorem nested_child (laid : t.Laid) {child : Tree} (mem : child ∈ t.children) {range : Range}
    (begins : child.start ≤ range.start) (ends : range.stop ≤ child.stop) :
    (Range.mk first.start last.stop).NestedOrDisjoint range := by
  simp only [Range.NestedOrDisjoint]
  rcases hull.inside_child_cases laid mem begins ends with before | behind | within
  · omega
  · omega
  · omega

theorem nested_below (laid : t.Laid) {node : Tree} (mem : node ∈ t.nodes) (range : Range)
    (begins : node.start ≤ range.start) (ends : range.stop ≤ node.stop)
    (same : node = t → (Range.mk first.start last.stop).NestedOrDisjoint range) :
    (Range.mk first.start last.stop).NestedOrDisjoint range := by
  rcases mem_nodes.mp mem with equal | ⟨child, childMem, below⟩
  · exact same equal
  · have inside := ((laid.child childMem).1.node below).2
    exact hull.nested_child laid childMem (Nat.le_trans inside.1 begins) (Nat.le_trans ends inside.2)

end Hull

end Tree

open Source Tree

/-- The regions on which passes record edits; `allowed` tells of a parent and its child whether the
child may be edited as a whole. -/
inductive Region (source : Bytes) (root : Tree) (allowed : Tree → Tree → Prop) : Range → Prop where
  | node {parent t : Tree} (parentMem : parent ∈ root.nodes) (mem : t ∈ parent.children)
      (rewritable : parent.Rewritable t) (allows : allowed parent t) :
      Region source root allowed t.range
  | declarators {t first last : Tree} (mem : t ∈ root.nodes)
      (declares : t.kind.isVariableDeclaration = true) (hull : t.Hull first last) :
      Region source root allowed ⟨first.start, last.stop⟩
  | removal {parent t : Tree} (parentMem : parent ∈ root.nodes) (mem : t ∈ parent.children)
      (lists : parent.kind.listsStatements = true) (deletable : t.kind.isDeletable = true)
      (allows : allowed parent t) : Region source root allowed (extent source t.range)

namespace Fenced

/-- Widening does not reach over the braces. -/
theorem widened {source : Bytes} {outer inner wide : Range} (fenced : Fenced source outer inner)
    (widened : Widened source inner wide) : outer.start < wide.start ∧ wide.stop < outer.stop := by
  obtain ⟨opening, closing, first, second, third, fourth, opens, closes⟩ := fenced
  have darkOpening : Dark source opening := ⟨0x7B, opens, by decide⟩
  have darkClosing : Dark source closing := ⟨0x7D, closes, by decide⟩
  constructor
  · have : opening < wide.start := by
      rw [← Nat.not_le]
      intro inside
      exact widened.left_light inside second darkOpening
    omega
  · have : wide.stop ≤ closing := by
      rw [← Nat.not_lt]
      intro inside
      exact widened.right_light third inside darkClosing
    omega

end Fenced

namespace Tree.WellFormed

variable {source : Bytes} {root : Tree} (wf : root.WellFormed source)

include wf

theorem node_fits {t : Tree} (mem : t ∈ root.nodes) : t.stop ≤ source.length := by
  have := (wf.laid.node mem).2
  have := wf.fits
  omega

omit wf in
theorem child_node {parent t : Tree} (parentMem : parent ∈ root.nodes)
    (mem : t ∈ parent.children) : t ∈ root.nodes :=
  mem_nodes_trans (child_mem_nodes mem) parentMem

theorem child_ne_root {parent t : Tree} (parentMem : parent ∈ root.nodes)
    (mem : t ∈ parent.children) : t ≠ root := by
  rintro rfl
  exact not_mem_nodes_child mem parentMem

theorem solid_of_rewritten {t : Tree} (mem : t ∈ root.nodes) (kind : t.kind.isRewritten = true) :
    Solid source t.range := by
  rcases exists_parent mem with rfl | ⟨parent, parentMem, child⟩
  · rw [wf.program] at kind
    cases kind
  · exact wf.solid parent parentMem t child (.inl kind)

theorem solid_declarator {declaration declarator : Tree} (mem : declaration ∈ root.nodes)
    (among : declarator ∈ declaration.declarators) : Solid source declarator.range :=
  wf.solid_of_rewritten (child_node mem (declaration.declarators_sublist.mem among))
    (isRewritten_of_mem_declarators among)

theorem solid_of_deletable {t : Tree} (mem : t ∈ root.nodes) (kind : t.kind.isDeletable = true) :
    Solid source t.range := by
  exact wf.solid_of_rewritten mem (Kind.isRewritten_of_isDeletable kind)

theorem widened {t : Tree} (mem : t ∈ root.nodes) :
    Widened source t.range (extent source t.range) :=
  widened_extent (wf.laid.node mem).1.start_le_stop (wf.node_fits mem)

theorem rewritable_not_case {parent t : Tree} (parentMem : parent ∈ root.nodes)
    (mem : t ∈ parent.children) (rewritable : parent.Rewritable t) : t.kind.isCase = false := by
  rcases rewritable with rewritten | ⟨function, _⟩
  · exact Kind.not_isCase_of_isRewritten rewritten
  · rw [Bool.eq_false_iff]
    intro isCase
    rw [(wf.case parent parentMem t mem isCase).1] at function
    revert function
    decide

/-- A node above a statement that may be deleted is the statement itself, or the braces around the
list of the statement keep the widened range inside the node. -/
theorem extent_inside {list t node parent : Tree} (listMem : list ∈ root.nodes)
    (mem : t ∈ list.children) (lists : list.kind.listsStatements = true)
    (deletable : t.kind.isDeletable = true) (parentMem : parent ∈ root.nodes)
    (child : node ∈ parent.children) (noCase : node.kind.isCase = false) (above : t ∈ node.nodes) :
    node = t ∨
      node.start < (extent source t.range).start ∧ (extent source t.range).stop < node.stop := by
  have nodeMem := child_node parentMem child
  have tMem := child_node listMem mem
  have nonempty : t.start < t.stop := (wf.solid_of_deletable tMem deletable).start_lt_stop
  have wide := wf.widened tMem
  have insideList := (wf.laid.node listMem).1.child mem
  have insideNode := (wf.laid.node nodeMem).1.node above
  -- the braces around the list lie inside every node that covers the list
  have fenced (below : list ∈ node.nodes) :
      node.start < (extent source t.range).start ∧ (extent source t.range).stop < node.stop := by
    obtain ⟨fence, inNode, opening, closing⟩ :
        ∃ fence ∈ node.nodes, Fenced source fence.range t.range := by
      rcases Kind.listsStatements_cases lists with kind | kind | kind
      · rcases exists_parent listMem with rfl | ⟨owner, ownerMem, listChild⟩
        · exact absurd (mem_nodes_trans parentMem below) (not_mem_nodes_child child)
        · exact absurd kind (wf.inner owner ownerMem list listChild)
      · exact ⟨list, below, wf.block list listMem kind t mem deletable⟩
      · rcases exists_parent below with rfl | ⟨fence, fenceBelow, listChild⟩
        · rw [noCase] at kind
          cases kind
        · have fenceMem := mem_nodes_trans fenceBelow nodeMem
          exact ⟨fence, fenceBelow,
            (wf.case fence fenceMem list listChild kind).2 t mem deletable⟩
    obtain ⟨first, second⟩ := Fenced.widened ⟨opening, closing⟩ wide
    have bounds := (wf.laid.node nodeMem).1.node inNode
    change fence.start < _ at first
    change _ < fence.stop at second
    omega
  rcases wf.laid.comparable listMem nodeMem with below | below | apart
  · exact .inr (fenced below)
  · -- the node lies below the list, so it is the statement
    rcases mem_nodes.mp below with rfl | ⟨other, memOther, belowOther⟩
    · exact .inr (fenced (self_mem_nodes _))
    · left
      have insideOther := ((wf.laid.node listMem).1.child memOther).1.node belowOther
      rcases (wf.laid.node listMem).1.siblings mem memOther with rfl | apart
      · exact mem_nodes_antisymm belowOther above
      · omega
  · omega

theorem nested_node_removal {list t owner node : Tree} (listMem : list ∈ root.nodes)
    (mem : t ∈ list.children) (lists : list.kind.listsStatements = true)
    (deletable : t.kind.isDeletable = true) (ownerMem : owner ∈ root.nodes)
    (child : node ∈ owner.children) (rewritable : owner.Rewritable node) :
    node.range.NestedOrDisjoint (extent source t.range) := by
  have tMem := child_node listMem mem
  have nodeMem := child_node ownerMem child
  have solid := wf.solid owner ownerMem node child rewritable
  have wide := wf.widened tMem
  rcases wf.laid.comparable nodeMem tMem with below | above | before | behind
  · have inside := ((wf.laid.node tMem).1.node below).2
    exact .inr (.inl ⟨Nat.le_trans wide.begins inside.1, Nat.le_trans inside.2 wide.ends⟩)
  · rcases wf.extent_inside listMem mem lists deletable ownerMem child
      (wf.rewritable_not_case ownerMem child rewritable) above with rfl | inside
    · exact .inr (.inl ⟨wide.begins, wide.ends⟩)
    · exact .inl ⟨Nat.le_of_lt inside.1, Nat.le_of_lt inside.2⟩
  · exact .inr (.inr (.inl (wide.before solid before)))
  · exact .inr (.inr (.inr (wide.behind solid behind)))

theorem nested_removals {list t list' t' : Tree} (listMem : list ∈ root.nodes)
    (mem : t ∈ list.children) (lists : list.kind.listsStatements = true)
    (deletable : t.kind.isDeletable = true) (listMem' : list' ∈ root.nodes)
    (mem' : t' ∈ list'.children) (lists' : list'.kind.listsStatements = true)
    (deletable' : t'.kind.isDeletable = true) :
    (extent source t.range).NestedOrDisjoint (extent source t'.range) := by
  have tMem := child_node listMem mem
  have tMem' := child_node listMem' mem'
  have solid := wf.solid_of_deletable tMem deletable
  have solid' := wf.solid_of_deletable tMem' deletable'
  have wide := wf.widened tMem
  have wide' := wf.widened tMem'
  rcases wf.laid.comparable tMem tMem' with below | above | before | behind
  · rcases wf.extent_inside listMem mem lists deletable listMem' mem'
      (Kind.not_isCase_of_isRewritten (Kind.isRewritten_of_isDeletable deletable')) below
      with rfl | inside
    · exact .inl ⟨Nat.le_refl _, Nat.le_refl _⟩
    · exact .inr (.inl ⟨Nat.le_trans wide'.begins (Nat.le_of_lt inside.1),
        Nat.le_trans (Nat.le_of_lt inside.2) wide'.ends⟩)
  · rcases wf.extent_inside listMem' mem' lists' deletable' listMem mem
      (Kind.not_isCase_of_isRewritten (Kind.isRewritten_of_isDeletable deletable)) above
      with rfl | inside
    · exact .inl ⟨Nat.le_refl _, Nat.le_refl _⟩
    · exact .inl ⟨Nat.le_trans wide.begins (Nat.le_of_lt inside.1),
        Nat.le_trans (Nat.le_of_lt inside.2) wide.ends⟩
  · exact .inr (.inr (.inl (wide.both wide' solid solid' before)))
  · exact .inr (.inr (.inr (wide'.both wide solid' solid behind)))

/-- What lies below a declaration lies before its declarators, behind them, or between the first and
the last of them, and a statement stays there when it is widened. -/
theorem nested_declarators_removal {list t declaration first last : Tree}
    (listMem : list ∈ root.nodes) (mem : t ∈ list.children) (lists : list.kind.listsStatements = true)
    (deletable : t.kind.isDeletable = true) (declarationMem : declaration ∈ root.nodes)
    (hull : declaration.Hull first last) :
    (Range.mk first.start last.stop).NestedOrDisjoint (extent source t.range) := by
  have tMem := child_node listMem mem
  have wide := wf.widened tMem
  have laid := (wf.laid.node declarationMem).1
  obtain ⟨begins, _, ends⟩ := hull.inside laid
  have solidFirst := wf.solid_declarator declarationMem hull.first_mem_declarators
  have solidLast := wf.solid_declarator declarationMem hull.last_mem_declarators
  -- a statement inside a declarator stays there when it is widened
  have within {declarator : Tree} (child : declarator ∈ declaration.children)
      (kind : declarator.kind = .variableDeclarator) (above : t ∈ declarator.nodes) :
      declarator.start < (extent source t.range).start ∧
        (extent source t.range).stop < declarator.stop := by
    rcases wf.extent_inside listMem mem lists deletable declarationMem child
      (by rw [kind]; rfl) above with rfl | inside
    · rw [kind] at deletable
      cases deletable
    · exact inside
  have covers : (extent source t.range).start ≤ t.start ∧ t.stop ≤ (extent source t.range).stop :=
    ⟨wide.begins, wide.ends⟩
  have before {other : Tree} (solid : Solid source other.range) (apart : other.stop ≤ t.start) :
      other.stop ≤ (extent source t.range).start := wide.before solid apart
  have behind {other : Tree} (solid : Solid source other.range) (apart : t.stop ≤ other.start) :
      (extent source t.range).stop ≤ other.start := wide.behind solid apart
  have nonemptyFirst : first.start < first.stop := solidFirst.start_lt_stop
  have nonemptyLast : last.start < last.stop := solidLast.start_lt_stop
  have order := hull.first_last laid
  simp only [Range.NestedOrDisjoint]
  rcases wf.laid.comparable declarationMem tMem with below | above | apart | apart
  · have inside := ((wf.laid.node tMem).1.node below).2
    omega
  · rcases mem_nodes.mp above with rfl | ⟨child, childMem, aboveT⟩
    · omega
    · have insideT := ((laid.child childMem).1.node aboveT).2
      rcases hull.child_cases laid childMem with apart | apart | rfl | rfl | ⟨left, right⟩
      · have := behind solidFirst (by omega)
        omega
      · have := before solidLast (by omega)
        omega
      · have := within childMem hull.first_kind aboveT
        rcases order with rfl | apart <;> omega
      · have := within childMem hull.last_kind aboveT
        rcases order with rfl | apart <;> omega
      · have := before solidFirst (by omega)
        have := behind solidLast (by omega)
        omega
  · have := before solidLast (by omega)
    omega
  · have := behind solidFirst (by omega)
    omega

theorem nested_node_declarators {node declaration first last : Tree} (mem : node ∈ root.nodes)
    (declarationMem : declaration ∈ root.nodes) (hull : declaration.Hull first last) :
    node.range.NestedOrDisjoint ⟨first.start, last.stop⟩ := by
  have laid := (wf.laid.node declarationMem).1
  have inside := hull.inside laid
  rcases wf.laid.comparable mem declarationMem with below | above | before | behind
  · apply Range.NestedOrDisjoint.symm
    apply hull.nested_below laid below _ (Nat.le_refl _) (Nat.le_refl _)
    rintro rfl
    exact .inr (.inl ⟨inside.1, inside.2.2⟩)
  · have := ((wf.laid.node mem).1.node above).2
    simp only [Range.NestedOrDisjoint, Tree.start, Tree.stop] at *
    omega
  · simp only [Range.NestedOrDisjoint, Tree.start, Tree.stop] at *
    omega
  · simp only [Range.NestedOrDisjoint, Tree.start, Tree.stop] at *
    omega

theorem nested_declarators {declaration declaration' first first' last last' : Tree}
    (mem : declaration ∈ root.nodes) (mem' : declaration' ∈ root.nodes)
    (hull : declaration.Hull first last) (hull' : declaration'.Hull first' last') :
    (Range.mk first.start last.stop).NestedOrDisjoint ⟨first'.start, last'.stop⟩ := by
  have laid := (wf.laid.node mem).1
  have laid' := (wf.laid.node mem').1
  have inside := hull.inside laid
  have inside' := hull'.inside laid'
  rcases wf.laid.comparable mem mem' with below | above | before | behind
  · apply Range.NestedOrDisjoint.symm
    apply hull'.nested_below laid' below ⟨first.start, last.stop⟩ inside.1 inside.2.2
    rintro rfl
    obtain ⟨rfl, rfl⟩ := hull.unique hull'
    exact .inl ⟨Nat.le_refl _, Nat.le_refl _⟩
  · apply hull.nested_below laid above ⟨first'.start, last'.stop⟩ inside'.1 inside'.2.2
    rintro rfl
    obtain ⟨rfl, rfl⟩ := hull.unique hull'
    exact .inl ⟨Nat.le_refl _, Nat.le_refl _⟩
  · simp only [Range.NestedOrDisjoint]
    omega
  · simp only [Range.NestedOrDisjoint]
    omega

/-- Two regions are nested or disjoint. -/
theorem nested_regions {allowed : Tree → Tree → Prop} {a b : Range}
    (regionA : Region source root allowed a) (regionB : Region source root allowed b) : a.NestedOrDisjoint b := by
  cases regionA with
  | node ownerMem mem rewritable _ =>
      cases regionB with
      | node ownerMem' mem' _ _ =>
          exact wf.laid.nestedOrDisjoint (child_node ownerMem mem) (child_node ownerMem' mem')
      | declarators mem' _ hull => exact wf.nested_node_declarators (child_node ownerMem mem) mem' hull
      | removal listMem mem' lists deletable _ =>
          exact wf.nested_node_removal listMem mem' lists deletable ownerMem mem rewritable
  | declarators mem _ hull =>
      cases regionB with
      | node ownerMem' mem' _ _ =>
          exact (wf.nested_node_declarators (child_node ownerMem' mem') mem hull).symm
      | declarators mem' _ hull' => exact wf.nested_declarators mem mem' hull hull'
      | removal listMem mem' lists deletable _ =>
          exact wf.nested_declarators_removal listMem mem' lists deletable mem hull
  | removal listMem mem lists deletable _ =>
      cases regionB with
      | node ownerMem' mem' rewritable _ =>
          exact (wf.nested_node_removal listMem mem lists deletable ownerMem' mem' rewritable).symm
      | declarators mem' _ hull =>
          exact (wf.nested_declarators_removal listMem mem lists deletable mem' hull).symm
      | removal listMem' mem' lists' deletable' _ =>
          exact wf.nested_removals listMem mem lists deletable listMem' mem' lists' deletable'

theorem region_fits {allowed : Tree → Tree → Prop} {range : Range}
    (region : Region source root allowed range) :
    range.start ≤ range.stop ∧ range.stop ≤ source.length := by
  cases region with
  | node ownerMem mem rewritable _ =>
      have mem := child_node ownerMem mem
      exact ⟨(wf.laid.node mem).1.start_le_stop, wf.node_fits mem⟩
  | declarators mem _ hull =>
      have inside := hull.inside (wf.laid.node mem).1
      exact ⟨inside.2.1, Nat.le_trans inside.2.2 (wf.node_fits mem)⟩
  | removal listMem mem lists deletable _ =>
      have mem := child_node listMem mem
      have wide := wf.widened mem
      have ordered := (wf.laid.node mem).1.start_le_stop
      exact ⟨Nat.le_trans wide.begins (Nat.le_trans ordered wide.ends), wide.fits⟩

/-- In every region lies a node that edits may cover. -/
theorem region_covers {allowed : Tree → Tree → Prop} {range : Range}
    (region : Region source root allowed range) :
    ∃ parent ∈ root.nodes, ∃ t ∈ parent.children, parent.Rewritable t ∧ range.start ≤ t.start ∧
      t.stop ≤ range.stop := by
  cases region with
  | @node parent t parentMem mem rewritable _ =>
      exact ⟨parent, parentMem, t, mem, rewritable, Nat.le_refl _, Nat.le_refl _⟩
  | @declarators t first last mem _ hull =>
      refine ⟨t, mem, first, hull.first_mem, .inl (by rw [hull.first_kind]; rfl), Nat.le_refl _, ?_⟩
      exact (hull.declarator (wf.laid.node mem).1 hull.first_mem_declarators).2
  | @removal parent t parentMem mem _ deletable _ =>
      have wide := wf.widened (child_node parentMem mem)
      exact ⟨parent, parentMem, t, mem, .inl (Kind.isRewritten_of_isDeletable deletable), wide.begins,
        wide.ends⟩

theorem region_filled {allowed : Tree → Tree → Prop} {range : Range}
    (region : Region source root allowed range) : range.start < range.stop := by
  obtain ⟨parent, parentMem, t, mem, rewritable, begins, ends⟩ := wf.region_covers region
  have filled : t.start < t.stop := (wf.solid parent parentMem t mem rewritable).start_lt_stop
  omega

end Tree.WellFormed

end Rebundle
