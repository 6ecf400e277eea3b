import Rebundle.Proofs.Document.Erasure
import Rebundle.Proofs.Rewrite.Deletion
import Rebundle.Proofs.Rewrite.PassOrder

/-!
# Finished documents

The edits of a finished rewriting are those of the walk, the removals of the waiting statements and the
wrapper. What the walk records touches a waiting statement only from inside, so an edit of the walk is at
hand wherever the wrapper writes its statement.
-/

namespace Rebundle

open Source Tree

namespace Tree.WellFormed

variable {source : Bytes} {root : Tree} (wf : root.WellFormed source)

include wf

/-- A node around a statement of the program is the program or the statement. -/
theorem around_statement {t node : Tree} (child : t ∈ root.children) (nonempty : t.start < t.stop)
    (mem : node ∈ root.nodes) (above : t ∈ node.nodes) : node = root ∨ node = t := by
  rcases mem_nodes.mp mem with same | ⟨other, memOther, below⟩
  · exact .inl same
  · have inside := ((wf.laid.child memOther).1.node (mem_nodes_trans above below)).2
    rcases wf.laid.siblings child memOther with rfl | apart
    · exact .inr (mem_nodes_antisymm below above)
    · omega

/-- A region of the walk that touches a waiting statement lies in it. -/
theorem region_in_await (led : root.AwaitsLed) {t : Tree} (child : t ∈ root.children)
    (await : t.isAwaitStatement = true) {range : Range} (region : Region source root Spared range)
    (begins : range.start < t.stop) (ends : t.start < range.stop) :
    t.start ≤ range.start ∧ range.stop ≤ t.stop := by
  have kind := kind_of_isAwaitStatement await
  have tMem := child_node (self_mem_nodes root) child
  have solid := wf.solid_of_deletable tMem (by rw [kind]; rfl)
  have nonempty : t.start < t.stop := solid.start_lt_stop
  have uncovered := wf.region_not_covering led child await region
  cases region with
  | @node parent node parentMem mem _ _ =>
      have nodeMem := child_node parentMem mem
      rcases wf.laid.comparable nodeMem tMem with below | above | apart
      · exact ((wf.laid.node tMem).1.node below).2
      · have covers := ((wf.laid.node nodeMem).1.node above).2
        exact absurd (uncovered covers.1 covers.2) id
      · simp only [Tree.start, Tree.stop] at *
        omega
  | @declarators declaration first last mem declares hull =>
      have inside := hull.inside (wf.laid.node mem).1
      simp only at begins ends
      rcases wf.laid.comparable mem tMem with below | above | apart
      · have := ((wf.laid.node tMem).1.node below).2
        simp only
        omega
      · rcases wf.around_statement child nonempty mem above with rfl | rfl
        · rw [wf.program] at declares
          cases declares
        · rw [kind] at declares
          cases declares
      · omega
  | @removal parent statement parentMem mem lists deletable _ =>
      have wide := wf.widened (child_node parentMem mem)
      rcases wf.extent_around_await child await parentMem mem lists deletable with covers | inside | apart
      · exact absurd (uncovered (Nat.le_trans wide.begins covers.1) (Nat.le_trans covers.2 wide.ends)) id
      · omega
      · omega

end Tree.WellFormed

namespace TopLevelAwait.Finishing

variable {source : Bytes} {root : Tree} {rewrite next : Rewrite} {taken : List (Tree × Edit)}
  (finishing : Finishing source root rewrite next taken)

include finishing

/-- The edits of the finished document. -/
theorem cases_finish {edit : Edit} (mem : edit ∈ (finish root rewrite).doc.edits) :
    edit ∈ rewrite.doc.edits ∨ (∃ entry ∈ taken, entry.2 = edit) ∨
      edit.start = source.length ∧ edit.stop = source.length ∧ edit.parts = wrapper source taken ∧
        edit.seq = next.doc.recorded ∧ edit.reason = "async wrapper" := by
  by_cases none : taken = []
  · rw [finish_untaken finishing.out none] at mem
    exact .inl mem
  · rw [(finishing.edits none).2, List.mem_append, List.mem_singleton] at mem
    rcases mem with mem | rfl
    · exact (finishing.mem_iff.mp mem).imp_right .inl
    · exact .inr (.inr ⟨rfl, rfl, rfl, rfl, rfl⟩)

theorem mem_finish_of_next {edit : Edit} (mem : edit ∈ next.doc.edits) :
    edit ∈ (finish root rewrite).doc.edits := by
  by_cases none : taken = []
  · rw [finish_untaken finishing.out none]
    rcases finishing.mem_iff.mp mem with walked | ⟨entry, known, _⟩
    · exact walked
    · rw [none] at known
      cases known
  · rw [(finishing.edits none).2]
    exact List.mem_append_left _ mem

theorem mem_finish {edit : Edit} (mem : edit ∈ rewrite.doc.edits) :
    edit ∈ (finish root rewrite).doc.edits :=
  finishing.mem_finish_of_next (finishing.mem_iff.mpr (.inl mem))

theorem source_finish : (finish root rewrite).doc.source = source := by
  by_cases none : taken = []
  · rw [finish_untaken finishing.out none]
    exact finishing.disciplined.unchanged
  · exact (finishing.edits none).1

/-- What an edit of the walk writes again is a part of it, with all edits. -/
theorem span_walked {edit : Edit} (mem : edit ∈ rewrite.doc.edits) {span : Span}
    (part : .span span ∈ edit.parts) : span.Inside edit ∧ span.hidden = [] ∧
      0 ≤ span.start ∧ span.start ≤ span.stop ∧ span.stop ≤ (source.length : Int) := by
  obtain ⟨range, rfl, region, begins, ends⟩ := finishing.disciplined.spans edit mem span part
  have fits := finishing.wf.region_fits region
  simp only [Span.Inside, Span.ofRange]
  refine ⟨by omega, rfl, by omega, by omega, by omega⟩

/-- What is written again in a finished document: parts of the edits of the walk, and by the wrapper the waiting
statements. -/
theorem span_cases {edit : Edit} (mem : edit ∈ (finish root rewrite).doc.edits) {span : Span}
    (part : .span span ∈ edit.parts) : edit ∈ rewrite.doc.edits ∨
      edit.seq = next.doc.recorded ∧ ∃ entry ∈ taken, span = Span.ofRange entry.1.range [entry.2] := by
  rcases finishing.cases_finish mem with walked | ⟨entry, known, rfl⟩ | ⟨_, _, parts, seq, _⟩
  · exact .inl walked
  · rw [(finishing.spec.removals entry known).2] at part
    simp [removal] at part
  · rw [parts] at part
    exact .inr ⟨seq, mem_wrapper part⟩

/-- The pane that a finished document is rendered from. -/
theorem sound : (finish root rewrite).doc.pane.Sound source.length where
  orderly := by
    have kept := finishing.kept_finish
    refine ⟨kept.sorted, finishing.finished_nested, fun edit mem => (kept.inside edit mem).1, ?_,
      kept.numbered.nodup_iff.mpr List.nodup_range⟩
    intro edit mem span part
    rcases finishing.span_cases mem part with walked | ⟨_, entry, known, rfl⟩
    · exact (finishing.span_walked walked part).2.2
    · obtain ⟨child, _, _⟩ := mem_statements (finishing.entry_mem known)
      have fits := finishing.wf.node_fits (child_mem_nodes child)
      have nonempty := finishing.nonempty known
      simp only [Span.ofRange, Tree.start, Tree.stop] at *
      omega
  begins := Int.le_refl _
  proper := Int.natCast_nonneg _
  ends := by
    change (((finish root rewrite).doc.source.length : Nat) : Int) ≤ _
    rw [finishing.source_finish]

theorem all_within : ∀ edit ∈ (finish root rewrite).doc.pane.edits,
    edit.within (finish root rewrite).doc.pane.start (finish root rewrite).doc.pane.stop = true := by
  intro edit mem
  have inside := (finishing.kept_finish.inside edit mem).2
  rw [Edit.within_iff]
  simp only [Document.pane]
  omega

/-- An edit of the walk that touches a waiting statement lies in it, and does not cover it. -/
theorem walked_in_await (led : root.AwaitsLed) {edit : Edit} (mem : edit ∈ rewrite.doc.edits)
    {entry : Tree × Edit} (known : entry ∈ taken) (begins : edit.start < entry.1.stop)
    (ends : entry.1.start < edit.stop) :
    entry.1.start ≤ edit.start ∧ edit.stop ≤ entry.1.stop ∧
      ¬ (edit.start ≤ entry.1.start ∧ entry.1.stop ≤ edit.stop) := by
  have statement := finishing.entry_mem known
  obtain ⟨child, _, _⟩ := mem_statements statement
  have await := isAwaitStatement_of_mem statement
  have region := finishing.disciplined.regions edit mem
  obtain ⟨first, second⟩ := finishing.wf.region_in_await led child await region begins ends
  exact ⟨first, second, fun covers =>
    finishing.wf.region_not_covering led child await region covers.1 covers.2⟩

/-- The removal of a waiting statement dominates the edits of the walk in the statement. -/
theorem removal_dominates (led : root.AwaitsLed) {edit : Edit} (mem : edit ∈ rewrite.doc.edits)
    {entry : Tree × Edit} (known : entry ∈ taken) (begins : edit.start < entry.1.stop)
    (ends : entry.1.start < edit.stop) : entry.2.dominates edit = true := by
  obtain ⟨first, second, uncovered⟩ := finishing.walked_in_await led mem known begins ends
  have covers := finishing.covers known
  have := (finishing.disciplined.kept.inside edit mem).1
  rw [Edit.dominates_iff]
  omega

/-- Where the wrapper writes a statement that an edit of the walk touches, the removal of the statement guards the
edit. -/
theorem removal_shelters (led : root.AwaitsLed) {eraser outer : Edit} (mem : eraser ∈ rewrite.doc.edits)
    (seq : outer.seq = next.doc.recorded) {entry : Tree × Edit} (known : entry ∈ taken)
    (begins : eraser.start < entry.1.stop) (ends : entry.1.start < eraser.stop) :
    Shelters (finish root rewrite).doc.edits outer eraser entry.2 where
  mem := finishing.mem_finish_of_next (finishing.mem_iff.mpr (.inr ⟨entry, known, rfl⟩))
  higher := finishing.removal_dominates led mem known begins ends
  plain := by
    intro span part
    rw [(finishing.spec.removals entry known).2] at part
    simp [removal] at part
  others := by
    intro other otherMem differs span part
    rcases finishing.span_cases otherMem part with walked | ⟨seq', _⟩
    · obtain ⟨inside, visible, _⟩ := finishing.span_walked walked part
      refine ⟨by simp [visible], by simp [visible], inside, fun within => ?_⟩
      obtain ⟨first, second, _⟩ := finishing.walked_in_await led mem known begins ends
      have proper := (finishing.disciplined.kept.inside eraser mem).1
      rw [Edit.within_iff] at within
      unfold Span.Inside at inside
      exact finishing.removal_dominates led walked known (by omega) (by omega)
    · exact absurd (seq'.trans seq.symm) differs

/-- An edit of the walk is at hand where the wrapper writes a statement that it touches. -/
theorem at_hand (led : root.AwaitsLed) {eraser outer : Edit} (mem : eraser ∈ rewrite.doc.edits)
    (seq : outer.seq = next.doc.recorded) {entry : Tree × Edit} (known : entry ∈ taken)
    (begins : eraser.start < entry.1.stop) (ends : entry.1.start < eraser.stop) :
    let span := Span.ofRange entry.1.range [entry.2]
    eraser.seq ≠ outer.seq ∧ eraser.seq ∉ span.hidden ∧ eraser.within span.start span.stop = true := by
  obtain ⟨first, second, _⟩ := finishing.walked_in_await led mem known begins ends
  have early := finishing.disciplined.kept.seq_lt mem
  have late := (finishing.spec.removals entry known).1
  have last : eraser.seq < outer.seq := by
    rw [seq]
    exact finishing.kept.seq_lt (finishing.mem_iff.mpr (.inl mem))
  refine ⟨by omega, ?_, Abreast.within_ofRange.mpr ⟨first, second⟩⟩
  change eraser.seq ∉ [entry.2.seq]
  rw [List.mem_singleton]
  omega

/-- An edit of the walk erases a range when the spans of the walk that touch the range have the edit
inside or never stand beside it. -/
theorem erases (led : root.AwaitsLed) {eraser : Edit} (known : eraser ∈ rewrite.doc.edits) {range : Range}
    (begins : eraser.start ≤ range.start) (nonempty : range.start < range.stop)
    (ends : range.stop ≤ eraser.stop)
    (spans : ∀ edit ∈ rewrite.doc.edits, ∀ span, .span span ∈ edit.parts → span.Apart range ∨
      (eraser.seq ≠ edit.seq ∧ eraser.within span.start span.stop = true) ∨
      eraser.dominates edit = true) :
    Erases (finish root rewrite).doc.edits eraser range := by
  -- where the wrapper writes a statement that the range touches
  have touched {entry : Tree × Edit} (touches : ¬ (Span.ofRange entry.1.range [entry.2]).Apart range) :
      eraser.start < entry.1.stop ∧ entry.1.start < eraser.stop := by
    simp only [Span.Apart, Span.ofRange, not_or, Int.not_le, Int.ofNat_lt] at touches
    simp only [Tree.start, Tree.stop]
    omega
  refine ⟨finishing.mem_finish known, begins, nonempty, ends, ?_, ?_⟩
  · intro edit mem span part
    rcases finishing.span_cases mem part with walked | ⟨seq, entry, taken, rfl⟩
    · obtain ⟨inside, visible, _⟩ := finishing.span_walked walked part
      rcases spans edit walked span part with apart | ⟨other, within⟩ | higher
      · exact .inl apart
      · exact .inr (.inl ⟨other, by simp [visible], within⟩)
      · exact .inr (.inr ⟨higher, inside⟩)
    · by_cases apart : (Span.ofRange entry.1.range [entry.2]).Apart range
      · exact .inl apart
      · obtain ⟨touches, touches'⟩ := touched apart
        exact .inr (.inl (finishing.at_hand led known seq taken touches touches'))
  · intro edit mem span part
    rcases finishing.span_cases mem part with walked | ⟨seq, entry, taken, rfl⟩
    · exact .inl (finishing.span_walked walked part).1
    · by_cases apart : (Span.ofRange entry.1.range [entry.2]).Apart range
      · exact .inr (.inl apart)
      · obtain ⟨touches, touches'⟩ := touched apart
        exact .inr (.inr ⟨entry.2, finishing.removal_shelters led known seq taken touches touches'⟩)

end TopLevelAwait.Finishing

end Rebundle
