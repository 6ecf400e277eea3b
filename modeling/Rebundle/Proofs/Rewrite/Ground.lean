import Rebundle.Proofs.Rewrite.Region
import Rebundle.Proofs.Rewrite.Relocation
import Rebundle.Proofs.Syntax.Layout

/-!
# Where edits lie

The passes record edits on nodes that end behind the offset at which they begin, on the declarators of such
a node, on such ranges widened to whole lines, and at the end. What holds of all these ranges holds of every
edit. Where a line begins at the offset and no node but the program and the errors in it reaches across,
edits lie behind the offset. Where the nodes lie inside the source, edits do.
-/

namespace Rebundle

open Source Tree

/-- An offset of a source at which a line begins, and across which no node of the tree reaches but the
program and errors. -/
structure Seam (source : Bytes) (root : Tree) (offset : Nat) : Prop where
  program : root.kind = .program
  laid : root.LaidBelow
  inside : offset ≤ source.length
  feed : offset = 0 ∨ source[offset - 1]? = some 0x0A
  apart : ∀ t ∈ root.nodes, t.kind ≠ .program → t.kind ≠ .error → t.stop ≤ offset ∨ offset ≤ t.start

namespace Seam

variable {source : Bytes} {root : Tree} {offset : Nat} (seam : Seam source root offset)

include seam

theorem node_laid {t : Tree} (mem : t ∈ root.nodes) (program : t.kind ≠ .program) : t.Laid := by
  refine seam.laid.node mem ?_
  rintro rfl
  exact program seam.program

theorem behind {t : Tree} (mem : t ∈ root.nodes) (late : offset < t.stop) (program : t.kind ≠ .program)
    (error : t.kind ≠ .error) : offset ≤ t.start := by
  rcases seam.apart t mem program error with early | behind
  · exact absurd late (Nat.not_lt.mpr early)
  · exact behind

/-- Everything below a node that ends behind the offset begins there. -/
theorem below {t : Tree} (mem : t ∈ root.nodes) (late : offset < t.stop) (program : t.kind ≠ .program)
    (error : t.kind ≠ .error) {node : Tree} (inner : node ∈ t.nodes) : offset ≤ node.start := by
  have here := seam.behind mem late program error
  have := ((seam.node_laid mem program).node inner).2
  omega

/-- A line that begins at the offset or in front of it ends there. -/
theorem lineStart_ge {start : Nat} (behind : offset ≤ start) :
    offset ≤ lineStart source start := by
  have inside := seam.inside
  rcases seam.feed with zero | feed
  · omega
  · by_cases zero : offset = 0
    · omega
    · have size : (source.take start).length = min start source.length := List.length_take
      -- the run of the line does not reach back to the line feed in front of the offset
      have short : ((source.take start).reverse.takeWhile (· != 0x0A)).length ≤
          (source.take start).length - offset := by
        rw [← Nat.not_lt]
        intro long
        obtain ⟨b, found, plain⟩ := getElem?_of_lt_takeWhile long
        rw [List.getElem?_reverse (by omega), List.getElem?_take_of_lt (by omega)] at found
        rw [show (source.take start).length - 1 - ((source.take start).length - offset) = offset - 1
          by omega, feed] at found
        cases found
        simp at plain
      simp only [lineStart]
      omega

/-- Widening a range behind the offset stays behind it. -/
theorem extent_ge {range : Range} (behind : offset ≤ range.start) :
    offset ≤ (extent source range).start := by
  have inside := seam.inside
  have resolved : offset ≤ resolve source.length range.start := by
    simp only [resolve]
    rw [if_pos (by omega)]
    omega
  have line := seam.lineStart_ge resolved
  simp only [extent, lineExtent]
  generalize (if (range.stop : Int) ≤ source.length then
    lineRest source (resolve source.length range.stop) else []) = rest
  split
  · simpa using line
  · simpa using behind

end Seam

/-- Ranges of a source on which passes may record edits. -/
structure Ground (source : Bytes) (root : Tree) (offset : Nat) (allowed : Range → Prop) : Prop where
  program : root.kind = .program
  laid : root.LaidBelow
  node : ∀ t ∈ root.nodes, offset < t.stop → t.kind ≠ .program → t.kind ≠ .error → ∀ inner ∈ t.nodes,
    allowed inner.range
  declarators : ∀ t ∈ root.nodes, offset < t.stop → t.kind ≠ .program → t.kind ≠ .error →
    ∀ first last : Tree, t.Hull first last → allowed ⟨first.start, last.stop⟩
  widened : ∀ range, allowed range → allowed (extent source range)
  ending : allowed ⟨source.length, source.length⟩

theorem Tree.LaidBelow.of_kind {root t : Tree} (laid : root.LaidBelow) (kind : root.kind = .program)
    (mem : t ∈ root.nodes) (program : t.kind ≠ .program) : t.Laid := by
  refine laid.node mem ?_
  rintro rfl
  exact program kind

namespace Ground

variable {source : Bytes} {root : Tree} {offset : Nat} {allowed : Range → Prop}

/-- A parent ends where its children do or later. -/
theorem parent_late (ground : Ground source root offset allowed) {parent t : Tree} (mem : parent ∈ root.nodes)
    (program : parent.kind ≠ .program) (child : t ∈ parent.children) (late : offset < t.stop) :
    offset < parent.stop := by
  have := ((ground.laid.of_kind ground.program mem program).child child).2
  omega

/-- The ranges behind a seam. -/
theorem of_seam (seam : Seam source root offset) : Ground source root offset (offset ≤ ·.start) where
  program := seam.program
  laid := seam.laid
  node := fun _ mem late program error _ inner => seam.below mem late program error inner
  declarators := fun _ mem late program error _ _ hull =>
    seam.below mem late program error (child_mem_nodes ((declarators_sublist _).mem (List.mem_of_head? hull.head)))
  widened := fun _ behind => seam.extent_ge behind
  ending := seam.inside

/-- The ranges that do not end before they begin. -/
theorem of_laid (program : root.kind = .program) (laid : root.LaidBelow) (offset : Nat) :
    Ground source root offset fun range => range.start ≤ range.stop where
  program := program
  laid := laid
  node := fun _ mem _ kind _ _ below => ((laid.of_kind program mem kind).node below).1.start_le_stop
  declarators := fun _ mem _ kind _ _ _ hull => (hull.inside (laid.of_kind program mem kind)).2.1
  widened := fun _ => extent_ordered
  ending := Nat.le_refl _

/-- The ranges inside the source. -/
theorem of_fits (program : root.kind = .program) (laid : root.LaidBelow)
    (fits : ∀ t ∈ root.nodes, t.stop ≤ source.length) (offset : Nat) :
    Ground source root offset fun range => range.start ≤ range.stop ∧ range.stop ≤ source.length where
  program := program
  laid := laid
  node := by
    intro t mem _ kind _ inner below
    exact ⟨((laid.of_kind program mem kind).node below).1.start_le_stop, fits inner (mem_nodes_trans below mem)⟩
  declarators := by
    intro t mem _ kind _ first last hull
    obtain ⟨_, ordered, ends⟩ := hull.inside (laid.of_kind program mem kind)
    exact ⟨ordered, Nat.le_trans ends (fits t mem)⟩
  widened := by
    intro range ⟨ordered, ends⟩
    have wide := widened_extent ordered ends
    exact ⟨Nat.le_trans wide.begins (Nat.le_trans ordered wide.ends), wide.fits⟩
  ending := ⟨Nat.le_refl _, Nat.le_refl _⟩

end Ground

/-- A rewriting of a source that begins at an offset and has recorded edits on allowed ranges only. -/
structure Rewrite.Grounded (source : Bytes) (offset : Nat) (allowed : Range → Prop) (rewrite : Rewrite) : Prop where
  unchanged : rewrite.doc.source = source
  skips : rewrite.skipBefore = offset
  sorted : rewrite.doc.edits.Pairwise fun a b => a.start ≤ b.start
  edits : ∀ edit ∈ rewrite.doc.edits, allowed edit.range

namespace Rewrite.Grounded

variable {source : Bytes} {root : Tree} {offset : Nat} {allowed : Range → Prop} {rewrite : Rewrite}
  (ground : Ground source root offset allowed) (grounded : rewrite.Grounded source offset allowed)

include grounded

theorem of_doc {next : Rewrite} (doc : next.doc = rewrite.doc)
    (skips : next.skipBefore = rewrite.skipBefore) : next.Grounded source offset allowed where
  unchanged := doc ▸ grounded.unchanged
  skips := skips ▸ grounded.skips
  sorted := doc ▸ grounded.sorted
  edits := doc ▸ grounded.edits

theorem write (record : Log.Record) : (rewrite.write record).Grounded source offset allowed :=
  ⟨grounded.unchanged, grounded.skips, grounded.sorted, grounded.edits⟩

theorem count (key : Text) (amount : Nat) : (rewrite.count key amount).Grounded source offset allowed :=
  ⟨grounded.unchanged, grounded.skips, grounded.sorted, grounded.edits⟩

theorem replace {range : Range} (allows : allowed range) (parts : List Part) (reason : Text) :
    (rewrite.replace range parts reason).Grounded source offset allowed where
  unchanged := grounded.unchanged
  skips := grounded.skips
  sorted := Edit.insert_ascending _ grounded.sorted
  edits := by
    intro edit mem
    rcases Edit.mem_insert.mp mem with rfl | known
    · exact allows
    · exact grounded.edits edit known

include ground

theorem remove {range : Range} (allows : allowed range) (reason : Text) :
    (rewrite.remove range reason).2.Grounded source offset allowed := by
  have wide : allowed (extent rewrite.source range) := by
    rw [Rewrite.source, grounded.unchanged]
    exact ground.widened range allows
  have doc := remove_doc range reason rewrite
  generalize extent rewrite.source range = wider at wide doc
  refine ⟨?_, (steps_keeps.remove rewrite range trivial).skipBefore.trans grounded.skips, ?_, ?_⟩
  · rw [doc]
    exact grounded.unchanged
  · rw [doc]
    exact Edit.insert_ascending _ grounded.sorted
  · rw [doc]
    intro edit mem
    rcases Edit.mem_insert.mp mem with rfl | known
    · exact wide
    · exact grounded.edits edit known

/-- Deleting a statement that ends behind the offset, with the export around it. -/
theorem removeStatement {cursor : Cursor} (stands : cursor.whole = root)
    (late : offset < cursor.focus.stop) (program : cursor.kind ≠ .program)
    (error : cursor.kind ≠ .error) (reason : Text) :
    (rewrite.removeStatement cursor.range cursor.ancestors reason).Grounded source offset allowed := by
  have here : allowed cursor.range :=
    ground.node _ (stands ▸ cursor.focus_mem_whole) late program error _ (self_mem_nodes _)
  have either {range : Range} (allows : allowed range) (lists : Bool) :
      (if lists then (rewrite.remove range reason).2
        else rewrite.replace range [.text ";"] reason).Grounded source offset allowed := by
    split
    · exact grounded.remove ground allows reason
    · exact grounded.replace allows _ reason
  rcases cursor.parent_cases with ⟨_, top, _⟩ | ⟨parent, up⟩
  · rw [top, Rewrite.removeStatement]
    exact grounded.remove ground here reason
  · obtain ⟨child, above⟩ := Cursor.parent_spec up
    rw [above, Rewrite.removeStatement]
    by_cases exported : parent.focus.label.kind = .exportStatement
    · have kind : parent.focus.kind = .exportStatement := exported
      have parentMem : parent.focus ∈ root.nodes :=
        ((Cursor.whole_parent up).trans stands) ▸ parent.focus_mem_whole
      have parentHere : allowed parent.focus.label.range :=
        ground.node _ parentMem (ground.parent_late parentMem (by simp [kind]) child late)
          (by simp [kind]) (by simp [kind]) _ (self_mem_nodes _)
      simp only [exported, beq_self_eq_true, if_true]
      cases parent.ancestors with
      | nil => exact grounded.remove ground parentHere reason
      | cons owner rest => exact either parentHere _
    · simp only [beq_eq_false_iff_ne.mpr exported, Bool.false_eq_true, if_false]
      exact either here _

end Rewrite.Grounded

section

variable {source : Bytes} {root : Tree} {offset : Nat} {allowed : Range → Prop} {cursor : Cursor} {rewrite : Rewrite}

/-- A node of a rewritten program that ends behind the offset, and is neither the program nor an error. -/
structure Ground.Visits (root : Tree) (offset : Nat) (cursor : Cursor) : Prop where
  stands : cursor.whole = root
  late : offset < cursor.focus.stop
  program : cursor.kind ≠ .program
  error : cursor.kind ≠ .error

namespace Ground.Visits

variable (ground : Ground source root offset allowed) (visits : Visits root offset cursor)

include visits

theorem mem : cursor.focus ∈ root.nodes := visits.stands ▸ cursor.focus_mem_whole

include ground

theorem below {node : Tree} (inner : node ∈ cursor.focus.nodes) : allowed node.range :=
  ground.node _ visits.mem visits.late visits.program visits.error node inner

theorem here : allowed cursor.range := visits.below ground (self_mem_nodes _)

end Ground.Visits

variable (ground : Ground source root offset allowed) (visits : Ground.Visits root offset cursor)
  (grounded : rewrite.Grounded source offset allowed)

include ground visits grounded

theorem Modules.grounded_visit : (Modules.pass.visit cursor rewrite).2.Grounded source offset allowed := by
  simp only [pass]
  split
  · unfold rewriteImport
    dsimp only
    split
    · exact grounded
    · split
      · exact (grounded.removeStatement ground visits.stands visits.late visits.program visits.error
          _).count _ _
      · rename_i request _ _
        have stated : (statementFor ("require(" ++ rewrite.text request ++ ")")
            (Imported.ofStatement cursor.focus) rewrite).2.Grounded source offset allowed :=
          grounded.of_doc (statementFor_doc _ _ _) (Rewrite.steps_keeps.statementFor _ _ _).skipBefore
        exact ((stated.write _).replace (visits.here ground) _ _).count _ _
  · unfold rewriteMember
    dsimp only
    split
    · split
      · split
        · exact ((grounded.write _).replace (visits.here ground) _ _).count _ _
        · exact grounded
      · exact grounded
    · exact grounded

theorem Renaming.grounded_visit : (Renaming.pass.visit cursor rewrite).2.Grounded source offset allowed := by
  change (visit cursor rewrite).2.Grounded source offset allowed
  unfold visit
  split
  · exact grounded
  · split
    · exact grounded
    · exact (grounded.replace (visits.here ground) _ _).count _ _

theorem Removal.grounded_removeFunction : (removeFunction cursor rewrite).2.Grounded source offset allowed := by
  unfold removeFunction
  split
  · exact grounded
  · dsimp only
    split
    · exact ((grounded.write _).removeStatement ground visits.stands visits.late visits.program
        visits.error _).count _ _
    · exact grounded

theorem Removal.grounded_removeDeclarators :
    (removeDeclarators cursor rewrite).2.Grounded source offset allowed := by
  unfold removeDeclarators
  dsimp only
  split
  · exact grounded
  · have counted (names : List Text) : ((names.foldl (fun rewrite name =>
        rewrite.write (Log.info ("removing variable declaration " ++ name))) rewrite).count
          "variables_removed" names.length).Grounded source offset allowed := by
      apply grounded.of_doc
      · rw [Rewrite.count_doc]
        exact Rewrite.doc_foldl (fun rewrite _ => Rewrite.write_doc _ rewrite) names rewrite
      · exact (Rewrite.steps_keeps.foldl (fun rewrite _ => Rewrite.steps_keeps.write rewrite _) names
          rewrite).skipBefore
    split
    · rename_i first last _ head tail
      have allows : allowed ⟨first.start, last.stop⟩ :=
        ground.declarators _ visits.mem visits.late visits.program visits.error first last ⟨head, tail⟩
      exact (counted _).replace allows _ _
    · exact (counted _).removeStatement ground visits.stands visits.late visits.program
        visits.error _

theorem Removal.grounded_removeCall : (removeCall cursor rewrite).2.Grounded source offset allowed := by
  have replaced {rewrite : Rewrite} (grounded : rewrite.Grounded source offset allowed) :
      (removeCall.replaceCall cursor rewrite).2.Grounded source offset allowed :=
    (grounded.replace (visits.here ground) _ _).count _ _
  unfold removeCall
  dsimp only
  split
  · exact grounded
  · split
    · rename_i parent up
      split
      · rename_i whole
        simp only [isWholeStatement, up, Bool.and_eq_true, beq_iff_eq] at whole
        have kind : parent.focus.kind = .expressionStatement := whole.1
        have standsParent := (Cursor.whole_parent up).trans visits.stands
        have late := ground.parent_late (standsParent ▸ parent.focus_mem_whole) (by simp [kind])
          (Cursor.parent_spec up).1 visits.late
        exact ((grounded.write _).removeStatement ground standsParent late
          (by simp [Cursor.kind, kind]) (by simp [Cursor.kind, kind]) _).count _ _
      · exact replaced (grounded.write _)
    · exact replaced (grounded.write _)

theorem Removal.grounded_visit : (Removal.pass.visit cursor rewrite).2.Grounded source offset allowed := by
  change (visit cursor rewrite).2.Grounded source offset allowed
  unfold visit
  split
  · exact grounded_removeCall ground visits grounded
  · split
    · exact grounded_removeDeclarators ground visits grounded
    · exact grounded_removeFunction ground visits grounded

theorem Body.grounded_visit (concerned : Body.pass.concerns cursor.kind = true) :
    (Body.pass.visit cursor rewrite).2.Grounded source offset allowed := by
  change (visit cursor rewrite).2.Grounded source offset allowed
  unfold visit
  split
  · exact grounded
  · rename_i name function label found
    obtain ⟨_, inner⟩ := isFunction_of_target concerned found
    dsimp only
    split
    · rename_i value body _ has
      have below : body ∈ cursor.focus.nodes :=
        mem_nodes_trans (child_mem_nodes (List.mem_of_find?_eq_some has)) inner
      exact ((grounded.write _).replace (visits.below ground below) _ _).count _ _
    · exact grounded

end

namespace TopLevelAwait

variable {source : Bytes} {root : Tree} {offset : Nat} {allowed : Range → Prop} {rewrite : Rewrite}
  (ground : Ground source root offset allowed)

include ground

theorem grounded_takeOut {row : List Tree} (allows : ∀ t ∈ row, allowed t.range)
    (grounded : rewrite.Grounded source offset allowed) : (takeOut rewrite row).2.Grounded source offset allowed := by
  induction row generalizing rewrite with
  | nil => exact grounded
  | cons t rest ih =>
      have removed := grounded.remove ground (allows t List.mem_cons_self) "top-level await"
      rw [takeOut]
      cases step : rewrite.remove t.range "top-level await" with
      | mk edit next =>
          rw [step] at removed
          exact ih (fun other mem => allows other (List.mem_cons_of_mem _ mem)) removed

theorem grounded_finish (grounded : rewrite.Grounded source offset allowed) :
    (finish root rewrite).Grounded source offset allowed := by
  have allows : ∀ t ∈ statements rewrite.skipBefore root, allowed t.range := by
    intro t mem
    obtain ⟨child, kind, _⟩ := mem_statements mem
    have ends : offset < t.stop := by
      simp only [statements, List.mem_filter, Bool.and_eq_true, decide_eq_true_eq] at mem
      rw [← grounded.skips]
      exact mem.2.1.1
    exact ground.node t (child_mem_nodes child) ends (by simp [kind]) (by simp [kind]) t (self_mem_nodes t)
  have taken := grounded_takeOut ground allows grounded
  rw [finish]
  split
  · rename_i out
    rw [out] at taken
    exact taken
  · rename_i removed next _ out
    rw [out] at taken
    refine ((taken.write _).replace ?_ _ _).count _ _
    change allowed ⟨next.doc.source.length, next.doc.source.length⟩
    rw [taken.unchanged]
    exact ground.ending

end TopLevelAwait

namespace RewritePass

variable {source : Bytes} {root : Tree} {offset : Nat} {allowed : Range → Prop} {rewrite : Rewrite}
  (ground : Ground source root offset allowed)

/-- No pass is concerned with the program or with errors. -/
theorem concerns_cases {pass : RewritePass} (known : pass ∈ standard) {kind : Kind}
    (concerned : pass.concerns kind = true) : kind ≠ .program ∧ kind ≠ .error := by
  rcases mem_standard.mp known with rfl | rfl | rfl | rfl | rfl <;>
    exact ⟨by rintro rfl; revert concerned; decide, by rintro rfl; revert concerned; decide⟩

theorem grounded_prepare {pass : RewritePass} (known : pass ∈ standard)
    (grounded : rewrite.Grounded source offset allowed) : (pass.prepare rewrite).Grounded source offset allowed := by
  have doc : (pass.prepare rewrite).doc = rewrite.doc := by
    rcases mem_standard.mp known with rfl | rfl | rfl | rfl | rfl
    · rfl
    · exact Renaming.prepare_doc rewrite
    · rfl
    · rfl
    · rfl
  exact grounded.of_doc doc (keeps_prepare known rewrite).skipBefore

include ground

theorem grounded_visit {cursor : Cursor} (visits : Ground.Visits root offset cursor) {pass : RewritePass}
    (known : pass ∈ standard) (concerned : pass.concerns cursor.kind = true)
    (grounded : rewrite.Grounded source offset allowed) :
    (pass.visit cursor rewrite).2.Grounded source offset allowed := by
  rcases mem_standard.mp known with rfl | rfl | rfl | rfl | rfl
  · exact Modules.grounded_visit ground visits grounded
  · exact Renaming.grounded_visit ground visits grounded
  · exact Removal.grounded_visit ground visits grounded
  · exact Body.grounded_visit ground visits grounded concerned
  · exact grounded

theorem grounded_visitAll {cursor : Cursor} (stands : cursor.whole = root)
    (late : cursor.kind ≠ .program → offset < cursor.focus.stop) {passes : List RewritePass}
    (known : ∀ pass ∈ passes, pass ∈ standard ∧ pass.concerns cursor.kind = true)
    (grounded : rewrite.Grounded source offset allowed) :
    (visitAll cursor rewrite passes).2.Grounded source offset allowed := by
  refine visitAll_preserves (·.Grounded source offset allowed) (fun pass mem state before => ?_) grounded
  obtain ⟨one, concerned⟩ := known pass mem
  obtain ⟨program, error⟩ := concerns_cases one concerned
  exact grounded_visit ground ⟨stands, late program, program, error⟩ one concerned before

/-- A run of standard passes, in any order and number, records its edits on allowed ranges. -/
theorem grounded_run {passes : List RewritePass} (known : ∀ pass ∈ passes, pass ∈ standard)
    (grounded : rewrite.Grounded source offset allowed) : (run passes root rewrite).Grounded source offset allowed := by
  refine List.foldlRecOn passes _ ?_ ?_
  · refine walk_preserves (·.Grounded source offset allowed) ?_ ?_
    · intro cursor state stands late before
      refine grounded_visitAll ground stands (fun program => before.skips ▸ late program) (fun pass mem => ?_) before
      obtain ⟨one, concerned⟩ := List.mem_filter.mp mem
      exact ⟨known pass one, concerned⟩
    · exact List.foldlRecOn passes _ grounded fun _ before pass mem => grounded_prepare (known pass mem) before
  · intro state before pass mem
    have one := known pass mem
    rcases mem_standard.mp one with rfl | rfl | rfl | rfl | rfl
    · exact before
    · exact before
    · exact before
    · exact before
    · exact TopLevelAwait.grounded_finish ground before

end RewritePass

end Rebundle
