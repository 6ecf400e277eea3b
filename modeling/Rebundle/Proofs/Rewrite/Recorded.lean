import Rebundle.Proofs.Rewrite.Region
import Rebundle.Proofs.Syntax.Descent

/-!
# What the passes record

Every pass records its edits on regions of the program, and what an edit writes again are nodes
inside its range. No visit touches a statement of the program that waits. Each visit keeps this, so
a whole walk does.
-/

namespace Rebundle

open Source Tree

/-- Whether the tree is a statement that consists of a wait. -/
def Tree.isAwaitStatement (t : Tree) : Bool :=
  t.kind == .expressionStatement && t.firstPart?.map (·.kind) == some .awaitExpression

/-- A child of a node, unless it is a statement of the program that waits. -/
def Tree.Spared (parent t : Tree) : Prop := parent.kind = .program → t.isAwaitStatement = false

namespace Document

/-- A document of a program with its edits on regions and their spans on nodes inside them. -/
structure Disciplined (source : Bytes) (root : Tree) (doc : Document) : Prop where
  unchanged : doc.source = source
  kept : doc.Kept
  regions : ∀ edit ∈ doc.edits, Region source root Spared edit.range
  spans : ∀ edit ∈ doc.edits, ∀ span, .span span ∈ edit.parts → ∃ range,
    span = Span.ofRange range [] ∧ Region source root Spared range ∧
      edit.start ≤ range.start ∧ range.stop ≤ edit.stop

namespace Disciplined

variable {source : Bytes} {root : Tree} {doc : Document}

theorem ofSource (source : Bytes) (root : Tree) :
    (Document.ofSource source).Disciplined source root :=
  ⟨rfl, Kept.ofSource source, by simp [Document.ofSource], by simp [Document.ofSource]⟩

theorem record (disciplined : doc.Disciplined source root) (wf : root.WellFormed source)
    {range : Range} (region : Region source root Spared range) {parts : List Part} (reason : Text)
    (spans : ∀ span, .span span ∈ parts → ∃ inner, span = Span.ofRange inner [] ∧
      Region source root Spared inner ∧ range.start ≤ inner.start ∧ inner.stop ≤ range.stop) :
    (doc.record range.start range.stop parts reason).2.Disciplined source root where
  unchanged := disciplined.unchanged
  kept := by
    obtain ⟨ordered, fits⟩ := wf.region_fits region
    exact disciplined.kept.record ordered (by rw [disciplined.unchanged]; exact fits)
  regions := by
    intro edit mem
    rcases Edit.mem_insert.mp mem with rfl | mem
    · exact region
    · exact disciplined.regions edit mem
  spans := by
    intro edit mem
    rcases Edit.mem_insert.mp mem with rfl | mem
    · exact spans
    · exact disciplined.spans edit mem

theorem recordText (disciplined : doc.Disciplined source root) (wf : root.WellFormed source)
    {range : Range} (region : Region source root Spared range) (text reason : Text) :
    (doc.record range.start range.stop [.text text] reason).2.Disciplined source root :=
  disciplined.record wf region reason (by simp)

end Disciplined

end Document

namespace Tree.WellFormed

variable {source : Bytes} {root : Tree} (wf : root.WellFormed source)

include wf

/-- A cursor away from the root has a parent in the same tree. -/
theorem cursor_parent {cursor : Cursor} (stands : cursor.whole = root)
    (kind : cursor.kind ≠ .program) :
    ∃ parent : Cursor, cursor.parent? = some parent ∧ parent.whole = root ∧
      parent.focus ∈ root.nodes ∧ cursor.focus ∈ parent.focus.children ∧
      cursor.ancestors = parent.focus.label :: parent.ancestors := by
  rcases cursor.parent_cases with ⟨_, _, top⟩ | ⟨parent, up⟩
  · refine absurd ?_ kind
    rw [Cursor.kind, top, stands]
    exact wf.program
  · obtain ⟨child, above⟩ := Cursor.parent_spec up
    have standsParent := (Cursor.whole_parent up).trans stands
    exact ⟨parent, up, standsParent, standsParent ▸ parent.focus_mem_whole, child, above⟩

theorem cursor_region {cursor : Cursor} (stands : cursor.whole = root)
    (kind : cursor.kind.isRewritten = true) (spared : cursor.focus.isAwaitStatement = false) :
    Region source root Spared cursor.range := by
  have notProgram : cursor.kind ≠ .program := by
    intro same
    rw [same] at kind
    cases kind
  obtain ⟨parent, _, _, parentMem, child, _⟩ := wf.cursor_parent stands notProgram
  exact Region.node parentMem child (.inl kind) fun _ => spared

end Tree.WellFormed

namespace Tree

theorem isAwaitStatement_eq_false {t : Tree} (kind : t.kind ≠ .expressionStatement) :
    t.isAwaitStatement = false := by
  simp [isAwaitStatement, kind]

end Tree

namespace Rewrite

variable {source : Bytes} {root : Tree} {rewrite : Rewrite}

@[simp] theorem write_doc (record : Log.Record) (rewrite : Rewrite) :
    (rewrite.write record).doc = rewrite.doc := rfl

@[simp] theorem count_doc (key : Text) (amount : Nat) (rewrite : Rewrite) :
    (rewrite.count key amount).doc = rewrite.doc := rfl

@[simp] theorem replace_doc (range : Range) (parts : List Part) (reason : Text)
    (rewrite : Rewrite) :
    (rewrite.replace range parts reason).doc =
      (rewrite.doc.record range.start range.stop parts reason).2 := rfl

@[simp] theorem remove_doc (range : Range) (reason : Text) (rewrite : Rewrite) :
    (rewrite.remove range reason).2.doc =
      (rewrite.doc.record (extent rewrite.source range).start (extent rewrite.source range).stop
        [.text []] reason).2 := by
  simp only [remove, extent]

/-- Deleting a statement where its owner lists statements, or writing an empty one for it. -/
theorem disciplined_statement (wf : root.WellFormed source)
    (disciplined : rewrite.doc.Disciplined source root) {owner t : Tree}
    (ownerMem : owner ∈ root.nodes) (child : t ∈ owner.children)
    (deletable : t.kind.isDeletable = true) (spared : t.isAwaitStatement = false) (reason : Text) :
    (if owner.label.kind.listsStatements then (rewrite.remove t.range reason).2
      else rewrite.replace t.range [.text ";"] reason).doc.Disciplined source root := by
  split
  · rename_i lists
    rw [remove_doc, Rewrite.source, disciplined.unchanged]
    exact disciplined.recordText wf
      (Region.removal ownerMem child lists deletable fun _ => spared) _ _
  · rw [replace_doc]
    exact disciplined.recordText wf (Region.node ownerMem child
      (.inl (Kind.isRewritten_of_isDeletable deletable)) fun _ => spared) _ _

theorem disciplined_removeStatement (wf : root.WellFormed source)
    (disciplined : rewrite.doc.Disciplined source root) {cursor : Cursor}
    (stands : cursor.whole = root) (deletable : cursor.kind.isDeletable = true)
    (spared : cursor.focus.isAwaitStatement = false) (reason : Text) :
    (rewrite.removeStatement cursor.range cursor.ancestors reason).doc.Disciplined source root := by
  have notProgram : cursor.kind ≠ .program := by
    intro same
    rw [same] at deletable
    cases deletable
  obtain ⟨parent, _, standsParent, parentMem, child, above⟩ := wf.cursor_parent stands notProgram
  rw [above, removeStatement]
  by_cases exported : parent.focus.label.kind = .exportStatement
  · have exportKind : parent.kind = .exportStatement := exported
    obtain ⟨owner, _, _, ownerMem, childParent, aboveParent⟩ :=
      wf.cursor_parent standsParent (by rw [exportKind]; exact Kind.noConfusion)
    simp only [exported, aboveParent, List.head?_cons, beq_self_eq_true, if_true]
    exact disciplined_statement wf disciplined ownerMem childParent
      (by rw [show parent.focus.kind = .exportStatement from exported]; rfl)
      (isAwaitStatement_eq_false
        (by rw [show parent.focus.kind = .exportStatement from exported]; simp)) reason
  · simp only [beq_eq_false_iff_ne.mpr exported, if_false, Bool.false_eq_true]
    exact disciplined_statement wf disciplined parentMem child deletable spared reason

end Rewrite

end Rebundle
