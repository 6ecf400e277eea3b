import Rebundle.Proofs.Document.Gaps
import Rebundle.Proofs.Rewrite.Erased

/-!
# Neighbours of deleted statements

Between two nodes of a list that are kept, where all that stands between them is deleted, a patched
program has what the deletions leave of the source there, and nothing else. No separator is put in place
of a deleted statement.
-/

namespace Rebundle

open Source Tree TopLevelAwait

/-- Whether a pane deletes a node. -/
def Pane.Deletes (pane : Pane) (t : Tree) : Prop :=
  ∃ edit ∈ pane.edited, edit.parts = [.text []] ∧ edit.start ≤ t.start ∧ t.stop ≤ edit.stop

/-- Whether no edit stands for a node. -/
def Pane.Keeps (pane : Pane) (t : Tree) : Prop :=
  ∀ edit ∈ pane.edited, ¬ (edit.start ≤ t.start ∧ t.stop ≤ edit.stop)

/-- Two statements of a list, and what stands between them. -/
structure Flank (root before after : Tree) (gone : List Tree) : Prop where
  siblings : ∃ parent ∈ root.nodes, ∃ front back, parent.kind.listsStatements = true ∧
    parent.children = front ++ before :: (gone ++ after :: back)
  first : before.kind.isDeletable = true
  second : after.kind.isDeletable = true

section

variable {source : Bytes} {root before after t : Tree} {gone : List Tree} {pane : Pane}

theorem Placed.filled {range : Range} (placed : Placed source root range) (wf : root.WellFormed source) :
    range.start < range.stop ∨ range = ⟨source.length, source.length⟩ :=
  placed.imp_left wf.region_filled

/-- No edit stands across the ends of a node that is kept. -/
theorem Pane.Keeps.clear (keeps : pane.Keeps t) (wf : root.WellFormed source)
    (placed : ∀ edit ∈ pane.edits, Placed source root edit.range) (mem : t ∈ root.nodes)
    (kind : t.kind.isDeletable = true) {middle : Nat} (tip : middle = t.start ∨ middle = t.stop)
    (early : middle < source.length) : pane.Clear middle := by
  have solid : t.start < t.stop := (wf.solid_of_deletable mem kind).start_lt_stop
  have placedT : Placed source root t.range := by
    rcases exists_parent mem with rfl | ⟨parent, parentMem, child⟩
    · rw [wf.program] at kind
      cases kind
    · exact .inl (.node parentMem child (.inl (Kind.isRewritten_of_isDeletable kind)) trivial)
  intro edit written
  have known := placed edit (pane.edited_sublist.mem written)
  have free := keeps edit written
  have ordered := (known.fits wf).1
  have filled : edit.start < edit.stop ∨ edit.start = source.length :=
    (known.filled wf).imp_right fun same => congrArg Range.start same
  have nested := known.nestedOrDisjoint wf placedT
  simp only [Range.NestedOrDisjoint, Edit.range, Tree.start, Tree.stop] at *
  omega

namespace Flank

variable (flank : Flank root before after gone)

include flank

theorem mem : before ∈ root.nodes ∧ after ∈ root.nodes := by
  obtain ⟨parent, parentMem, front, back, _, row⟩ := flank.siblings
  have first : before ∈ parent.children := by simp [row]
  have second : after ∈ parent.children := by simp [row]
  exact ⟨WellFormed.child_node parentMem first, WellFormed.child_node parentMem second⟩

theorem ordered (wf : root.WellFormed source) : before.stop ≤ after.start := by
  obtain ⟨parent, parentMem, front, back, _, row⟩ := flank.siblings
  have apart := (wf.laid.node parentMem).1.children.pairwise
  rw [row] at apart
  have behind := (List.pairwise_append.mp apart).2.1
  exact (List.pairwise_cons.mp behind).1 after (by simp)

omit flank in
/-- A child of a list ends where the first of two nodes ends, stands between the two, or begins where the second
begins. -/
theorem child_cases {parent other : Tree} {front back : List Tree} (laid : parent.Laid)
    (row : parent.children = front ++ before :: (gone ++ after :: back)) (mem : other ∈ parent.children) :
    other.stop ≤ before.stop ∨ other ∈ gone ∨ after.start ≤ other.start := by
  have insideB := (laid.child (show before ∈ parent.children by simp [row])).1.start_le_stop
  have insideA := (laid.child (show after ∈ parent.children by simp [row])).1.start_le_stop
  have apart := laid.children.pairwise
  rw [row] at apart mem
  obtain ⟨_, behind, across⟩ := List.pairwise_append.mp apart
  obtain ⟨_, behind⟩ := List.pairwise_cons.mp behind
  obtain ⟨_, last, _⟩ := List.pairwise_append.mp behind
  rw [List.mem_append, List.mem_cons, List.mem_append, List.mem_cons] at mem
  rcases mem with early | rfl | here | rfl | late
  · exact .inl (Nat.le_trans (across other early before List.mem_cons_self) insideB)
  · exact .inl (Nat.le_refl _)
  · exact .inr (.inl here)
  · exact .inr (.inr (Nat.le_refl _))
  · exact .inr (.inr (Nat.le_trans insideA ((List.pairwise_cons.mp last).1 other late)))

/-- What edits may cover between the two nodes is a part of what stands between them. -/
theorem below (wf : root.WellFormed source) {owner : Tree} (ownerMem : owner ∈ root.nodes)
    (child : t ∈ owner.children) (rewritable : owner.Rewritable t) (begins : before.stop ≤ t.start)
    (ends : t.stop ≤ after.start) :
    ∃ other ∈ gone, t ∈ other.nodes ∧ (other.children = [] → other.kind ≠ .comment) := by
  obtain ⟨beforeMem, afterMem⟩ := flank.mem
  obtain ⟨parent, parentMem, front, back, lists, row⟩ := flank.siblings
  have laid := (wf.laid.node parentMem).1
  have tMem := WellFormed.child_node ownerMem child
  have filled : t.start < t.stop := (wf.solid owner ownerMem t child rewritable).start_lt_stop
  have filledB : before.start < before.stop := (wf.solid_of_deletable beforeMem flank.first).start_lt_stop
  have filledA : after.start < after.stop := (wf.solid_of_deletable afterMem flank.second).start_lt_stop
  have insideB := (laid.child (show before ∈ parent.children by simp [row])).2
  have insideA := (laid.child (show after ∈ parent.children by simp [row])).2
  rcases wf.laid.comparable tMem parentMem with inner | outer | apart
  · rcases mem_nodes.mp inner with rfl | ⟨other, otherMem, below⟩
    · omega
    · have inside := ((laid.child otherMem).1.node below).2
      rcases child_cases laid row otherMem with early | here | late
      · omega
      · refine ⟨other, here, below, fun none comment => ?_⟩
        -- a comment without children is not covered for what it is
        rcases mem_nodes.mp below with rfl | ⟨inner, mem, _⟩
        · rcases rewritable with rewritten | ⟨function, _⟩
          · rw [comment] at rewritten
            cases rewritten
          · have same := wf.laid.parent_unique parentMem ownerMem (by simp [row, here]) child filled
            rw [← same] at function
            revert lists function
            cases parent.kind <;> simp [Kind.listsStatements, Kind.isFunction, Kind.isFunctionDeclaration,
              Body.isFunctionValue]
        · rw [none] at mem
          cases mem
      · omega
  · have := ((wf.laid.node tMem).1.node outer).2
    omega
  · omega

/-- Where all that stands between the two nodes is deleted, comments apart, only deletions stand there. -/
theorem deletes (wf : root.WellFormed source) (sound : pane.Sound source.length)
    (placed : ∀ edit ∈ pane.edits, Placed source root edit.range)
    (goes : ∀ other ∈ gone, pane.Deletes other ∨ other.kind = .comment ∧ other.children = []) {edit : Edit}
    (written : edit ∈ pane.edited) (inside : edit.within before.stop after.start = true) :
    edit.parts = [.text []] := by
  obtain ⟨_, afterMem⟩ := flank.mem
  have inside := Edit.within_iff.mp inside
  have early : after.start < source.length := by
    have filled : after.start < after.stop := (wf.solid_of_deletable afterMem flank.second).start_lt_stop
    have := wf.node_fits afterMem
    omega
  rcases placed edit (pane.edited_sublist.mem written) with region | last
  · obtain ⟨owner, ownerMem, t, child, rewritable, begins, ends⟩ := wf.region_covers region
    simp only [Edit.range] at begins ends
    have filled : t.start < t.stop := (wf.solid owner ownerMem t child rewritable).start_lt_stop
    obtain ⟨other, here, below, plain⟩ :=
      flank.below wf ownerMem child rewritable (by omega) (by omega)
    rcases goes other here with ⟨deletion, known, parts, covers⟩ | ⟨comment, none⟩
    · have otherMem : other ∈ root.nodes := by
        obtain ⟨parent, parentMem, front, back, _, row⟩ := flank.siblings
        exact WellFormed.child_node parentMem (by simp [row, here])
      have := ((wf.laid.node otherMem).1.node below).2
      rcases sound.edited_apart written known with rfl | apart
      · exact parts
      · omega
    · exact absurd comment (plain none)
  · have starts : edit.start = source.length := congrArg Range.start last
    have := sound.orderly.proper edit (pane.edited_sublist.mem written)
    omega

end Flank

end

namespace Patcher

variable {patcher : Patcher} {prepared : Prepared}

/-- A program patched by the standard passes is put together from pieces. Where two statements of a list
are kept and all that stands between them is deleted, comments apart, there is between what is put for the
two statements just what the deletions leave of the source there. So there is a semicolon between the two
only if the source has one outside the deletions: none is put in place of a deleted statement. -/
theorem patch_gap (standard : patcher.passes = RewritePass.standard) (config : PatchConfig)
    (wf : prepared.root.WellFormed prepared.source) :
    let rewritten := (patcher.rewrite config prepared).value
    let pane := rewritten.doc.pane
    (finish prepared rewritten).value.map (·.code) =
        ((Piece.assemble prepared.source pane.pieces).map Utf8.decodeEscaped).mapError .encoding ∧
      (∀ inner, pane.Opens inner → inner.pieces <:+: pane.pieces) ∧
      ∀ before after gone, Flank prepared.root before after gone → ∀ inner, pane.Opens inner →
        inner.start ≤ (before.start : Int) → (after.stop : Int) ≤ inner.stop →
        inner.Keeps before → inner.Keeps after →
        (∀ t ∈ gone, inner.Deletes t ∨ t.kind = .comment ∧ t.children = []) →
        let gap := uncovered prepared.source inner.edited before.stop after.start
        (Piece.assemble prepared.source inner.pieces = (do
          let front ← Piece.assemble prepared.source (inner.stretch inner.start before.stop)
          let back ← Piece.assemble prepared.source (inner.stretch after.start inner.stop)
          return front ++ gap ++ back)) ∧
        (0x3B ∈ gap ↔ ∃ i, before.stop ≤ i ∧ i < after.start ∧ prepared.source[i]? = some 0x3B ∧
          ∀ edit ∈ inner.edited, ¬ (edit.start ≤ i ∧ i < edit.stop)) := by
  intro rewritten pane
  refine ⟨code_eq_assemble standard config wf, fun inner opens => opens.pieces_stand, ?_⟩
  intro before after gone flank inner opens begins ends keepsBefore keepsAfter goes gap
  obtain ⟨taken, next, finishing, _, _⟩ := finishing_walked standard config wf
  have made : rewritten = TopLevelAwait.finish prepared.root (patcher.walked config prepared) :=
    rewrite_value (.of_eq standard) config prepared
  have sound : inner.Sound prepared.source.length := by
    have outer := finishing.sound
    rw [← made] at outer
    exact outer.opened opens
  have placed : ∀ edit ∈ inner.edits, Placed prepared.source prepared.root edit.range := by
    have all := placed_finish wf (walked_disciplined wf standard config)
    rw [← made] at all
    exact fun edit mem => (all edit (opens.edits_sublist.mem mem)).1
  obtain ⟨beforeMem, afterMem⟩ := flank.mem
  have ordered := flank.ordered wf
  have filled : after.start < after.stop := (wf.solid_of_deletable afterMem flank.second).start_lt_stop
  have filledB : before.start < before.stop := (wf.solid_of_deletable beforeMem flank.first).start_lt_stop
  have fits := wf.node_fits afterMem
  have clearBefore := keepsBefore.clear wf placed beforeMem flank.first (.inr rfl) (by omega)
  have clearAfter := keepsAfter.clear wf placed afterMem flank.second (.inl rfl) (by omega)
  have between : Piece.assemble prepared.source (inner.stretch before.stop after.start) = .ok gap :=
    sound.assemble_deletions clearBefore clearAfter ordered (by omega)
      fun edit written inside => flank.deletes wf sound placed goes written inside
  refine ⟨?_, mem_uncovered⟩
  rw [← sound.stretch_self, sound.assemble_stretch clearBefore sound.begins (by omega) (by omega) sound.ends,
    sound.assemble_stretch clearAfter (Int.natCast_nonneg _) (by omega) (by omega) sound.ends, between]
  cases Piece.assemble prepared.source (inner.stretch inner.start before.stop) with
  | error fault => rfl
  | ok front =>
      cases Piece.assemble prepared.source (inner.stretch after.start inner.stop) with
      | error fault => rfl
      | ok back =>
          simp only [Bind.bind, Except.bind, Pure.pure, Except.pure, List.append_assoc]

/-- The statement `a` of the program below. -/
def joiningFirst : Tree :=
  .node ⟨.expressionStatement, none, ⟨0, 1⟩, false⟩ [leaf .identifier none 0 1]

/-- The statement `foo();` of the program below. -/
def joiningCall : Tree :=
  .node ⟨.expressionStatement, none, ⟨2, 8⟩, false⟩ [
    .node ⟨.callExpression, none, ⟨2, 7⟩, false⟩ [
      leaf .identifier (some .callee) 2 5,
      .node ⟨.arguments, none, ⟨5, 7⟩, false⟩ [leaf (.token "(") none 5 6, leaf (.token ")") none 6 7]],
    leaf (.token ";") none 7 8]

/-- The statement `(b)()` of the program below. -/
def joiningLast : Tree :=
  .node ⟨.expressionStatement, none, ⟨9, 14⟩, false⟩ [
    .node ⟨.callExpression, none, ⟨9, 14⟩, false⟩ [
      .node ⟨.parenthesizedExpression, some .callee, ⟨9, 12⟩, false⟩ [
        leaf (.token "(") none 9 10, leaf .identifier none 10 11, leaf (.token ")") none 11 12],
      .node ⟨.arguments, none, ⟨12, 14⟩, false⟩ [
        leaf (.token "(") none 12 13, leaf (.token ")") none 13 14]]]

/-- The program of the lines `a`, `foo();` and `(b)()`. -/
def joining : Prepared where
  source := [0x61, 0x0A, 0x66, 0x6F, 0x6F, 0x28, 0x29, 0x3B, 0x0A, 0x28, 0x62, 0x29, 0x28, 0x29]
  start := 0
  root := .node ⟨.program, none, ⟨0, 14⟩, false⟩ [joiningFirst, joiningCall, joiningLast]

/-- Without the call of `foo` the last line of `joining` goes on with the first. -/
theorem joining_gap :
    Piece.assemble joining.source (standard.rewrite { PatchConfig.empty with removeFunctionCalls := ["foo"] }
        joining).value.doc.pane.pieces =
      .ok [0x61, 0x0A, 0x28, 0x62, 0x29, 0x28, 0x29] := by
  have wf : joining.root.WellFormed joining.source := by decide
  have passes : standard.passes = RewritePass.standard := rfl
  have flank : Flank joining.root joiningFirst joiningLast [joiningCall] :=
    ⟨⟨joining.root, self_mem_nodes _, [], [], rfl, rfl⟩, rfl, rfl⟩
  have gap := (patch_gap passes { PatchConfig.empty with removeFunctionCalls := ["foo"] } wf).2.2
    joiningFirst joiningLast [joiningCall] flank _ .here
  have same : (standard.rewrite { PatchConfig.empty with removeFunctionCalls := ["foo"] }
      joining).value.doc.pane = ⟨[⟨2, 9, [.text []], 0, "remove call statement"⟩], 0, 14⟩ := by
    have edits : (standard.rewrite { PatchConfig.empty with removeFunctionCalls := ["foo"] }
        joining).value.doc.edits = [⟨2, 9, [.text []], 0, "remove call statement"⟩] := by decide +kernel
    have source : (standard.rewrite { PatchConfig.empty with removeFunctionCalls := ["foo"] }
        joining).value.doc.source = joining.source := by decide +kernel
    rw [Document.pane, edits, source]
    rfl
  rw [same] at gap ⊢
  have edited : (Pane.mk [⟨2, 9, [.text []], 0, "remove call statement"⟩] 0 14).edited =
      [⟨2, 9, [.text []], 0, "remove call statement"⟩] := by decide
  rw [(gap (by decide) (by decide) (by rw [Pane.Keeps, edited]; decide) (by rw [Pane.Keeps, edited]; decide) ?_).1]
  · rw [Pane.stretch, Pane.stretch, edited]
    rfl
  · intro t mem
    rw [List.mem_singleton.mp mem, Pane.Deletes, edited]
    exact .inl (by decide)

end Patcher

end Rebundle
