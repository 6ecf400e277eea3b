import Rebundle.Proofs.Rewrite.Erased

/-!
# What covers a child

An edit that covers a child of a node is recorded for something in the child, which it then takes up as a
whole; or it covers the node too; or it drops declarators of the node.
-/

namespace Rebundle

open Source Tree Cursor TopLevelAwait

section

variable {source : Bytes} {root : Tree}

theorem Deleted.widened {t : Tree} {range : Range} (deleted : Deleted source root t range)
    (wf : root.WellFormed source) (mem : t ∈ root.nodes) : Widened source t.range range := by
  cases deleted with
  | lines => exact wf.widened mem
  | alone =>
      exact ⟨Nat.le_refl _, Nat.le_refl _, wf.node_fits mem, by omega, by omega, by omega, .inl rfl⟩

/-- What is deleted with a child of a node is the node as well, or it is in the child. -/
theorem Deleted.around_child {t parent child : Tree} {range : Range} (deleted : Deleted source root t range)
    (wf : root.WellFormed source) (mem : t ∈ root.nodes) (parentMem : parent ∈ root.nodes)
    (childMem : child ∈ parent.children) (solid : Solid source child.range)
    (begins : range.start ≤ child.start) (ends : child.stop ≤ range.stop) :
    (range.start ≤ parent.start ∧ parent.stop ≤ range.stop) ∨ t ∈ child.nodes := by
  have wide := deleted.widened wf mem
  have covers := deleted.covers wf mem
  have filled : child.start < child.stop := solid.start_lt_stop
  have inside := (wf.laid.node parentMem).1.child childMem
  have notBefore : ¬ child.stop ≤ t.start := by
    intro apart
    have := wide.before solid apart
    change child.stop ≤ range.start at this
    omega
  have notBehind : ¬ t.stop ≤ child.start := by
    intro apart
    have := wide.behind solid apart
    change range.stop ≤ child.start at this
    omega
  rcases wf.laid.comparable mem parentMem with below | above | apart
  · rcases mem_nodes.mp below with rfl | ⟨other, otherMem, belowOther⟩
    · exact .inl covers
    · have insideT := ((wf.laid.node parentMem).1.child otherMem).1.node belowOther
      rcases (wf.laid.node parentMem).1.siblings otherMem childMem with rfl | apart
      · exact .inr belowOther
      · omega
  · have := ((wf.laid.node mem).1.node above).2
    exact .inl (by omega)
  · omega

/-- The declarators of a declaration that cover a child of a node cover the node, or the declaration is in
the child, or it is the node. -/
theorem Tree.WellFormed.declarators_around_child (wf : root.WellFormed source)
    {declaration one last parent child : Tree} (mem : declaration ∈ root.nodes)
    (hull : declaration.Hull one last) (parentMem : parent ∈ root.nodes)
    (childMem : child ∈ parent.children) (filled : child.start < child.stop)
    (begins : one.start ≤ child.start) (ends : child.stop ≤ last.stop) :
    (one.start ≤ parent.start ∧ parent.stop ≤ last.stop) ∨ declaration ∈ child.nodes ∨
      declaration = parent := by
  have laid := (wf.laid.node mem).1
  have laidParent := (wf.laid.node parentMem).1
  have within := hull.inside laid
  have inside := laidParent.child childMem
  rcases wf.laid.comparable mem parentMem with below | above | apart
  · rcases mem_nodes.mp below with rfl | ⟨other, otherMem, belowOther⟩
    · exact .inr (.inr rfl)
    · have insideD := (laidParent.child otherMem).1.node belowOther
      rcases laidParent.siblings otherMem childMem with rfl | apart
      · exact .inr (.inl belowOther)
      · omega
  · rcases mem_nodes.mp above with rfl | ⟨branch, branchMem, below⟩
    · exact .inr (.inr rfl)
    · have insideP := ((laid.child branchMem).1.node below).2
      have ordered := hull.first_last laid
      have firstIn := (laid.child hull.first_mem).1.start_le_stop
      have lastIn := (laid.child hull.last_mem).1.start_le_stop
      left
      rcases hull.child_cases laid branchMem with before | behind | rfl | rfl | between
      · omega
      · omega
      · rcases ordered with rfl | apart <;> omega
      · rcases ordered with rfl | apart <;> omega
      · omega
  · omega

/-- What is recorded for a node, in terms of the tree: something is deleted, with a text for it, or
declarators are dropped. -/
inductive Lies (source : Bytes) (config : PatchConfig) (root : Tree) : Range → List Part → Prop where
  | deleted {t : Tree} {range : Range} (mem : t ∈ root.nodes) (deleted : Deleted source root t range)
      (deletable : range = t.range ∨ t.kind.isDeletable = true) (text : Text) :
      Lies source config root range [.text text]
  | declarators {t one last : Tree} (mem : t ∈ root.nodes) (declares : t.kind.isVariableDeclaration = true)
      (hull : t.Hull one last) : Lies source config root ⟨one.start, last.stop⟩
        (Removal.keptParts (Removal.keptOf source config t))

theorem Noted.lies {config : PatchConfig} {cursor : Cursor} {entry : Entry}
    (noted : Noted source config cursor entry) (wf : root.WellFormed source)
    (stands : cursor.whole = root) : Lies source config root entry.range entry.parts := by
  have known : cursor.focus ∈ root.nodes := stands ▸ cursor.focus_mem_whole
  cases noted with
  | blot blot =>
      obtain ⟨text, plain⟩ := blot.plain
      rw [plain]
      obtain ⟨t, mem, _, deletable, deleted⟩ := blot.deleted wf stands
      exact .deleted mem deleted deletable text
  | declarators declares hull => exact .declarators known declares hull
  | @body name function body label value concerned target configured has =>
      obtain ⟨_, below⟩ := Body.isFunction_of_target concerned target
      have mem := WellFormed.child_node (mem_nodes_trans below known) (List.mem_of_find?_eq_some has)
      exact .deleted mem .alone (.inl rfl) _

/-- What is recorded for a child of a node and covers it lies on the child, or it covers the node, or it drops
declarators of the node. -/
theorem Lies.around_child {config : PatchConfig} {range : Range} {parts : List Part}
    (lies : Lies source config root range parts) (wf : root.WellFormed source) {parent child : Tree}
    (parentMem : parent ∈ root.nodes) (childMem : child ∈ parent.children)
    (solid : Solid source child.range) (noCase : child.kind.isCase = false)
    (noList : parent.kind.listsStatements = false) (begins : range.start ≤ child.start)
    (ends : child.stop ≤ range.stop) :
    (range.start ≤ parent.start ∧ parent.stop ≤ range.stop) ∨ range = child.range ∨
      parent.kind.isVariableDeclaration = true ∧ ∃ one last, parent.Hull one last ∧
        range = ⟨one.start, last.stop⟩ ∧ parts = Removal.keptParts (Removal.keptOf source config parent) := by
  have childIn := WellFormed.child_node parentMem childMem
  have filled : child.start < child.stop := solid.start_lt_stop
  have exactly {inner : Range} (starts : child.start ≤ inner.start) (stops : inner.stop ≤ child.stop)
      (same : range = inner) : range = child.range := by
    have first : range.start = child.range.start := Nat.le_antisymm begins (same ▸ starts)
    have second : range.stop = child.range.stop := Nat.le_antisymm (same ▸ stops) ends
    obtain ⟨start, stop⟩ := range
    exact congrArg₂ Range.mk first second
  cases lies with
  | @deleted t _ mem deleted deletable text =>
      rcases deleted.around_child wf mem parentMem childMem solid begins ends with covers | below
      · exact .inl covers
      · right; left
        have inside := ((wf.laid.node childIn).1.node below).2
        cases deleted with
        | alone => exact exactly inside.1 inside.2 rfl
        | @lines list listMem childT lists =>
            rcases deletable with same | deletable
            · exact exactly inside.1 inside.2 same
            · rcases wf.extent_inside listMem childT lists deletable parentMem childMem noCase below
                with rfl | narrow
              · rw [wf.laid.parent_unique parentMem listMem childMem childT filled, lists] at noList
                cases noList
              · omega
  | @declarators t one last mem declares hull =>
      rcases wf.declarators_around_child mem hull parentMem childMem filled begins ends with
        covers | below | rfl
      · exact .inl covers
      · have inside := ((wf.laid.node childIn).1.node below).2
        have within := hull.inside (wf.laid.node mem).1
        exact .inr (.inl (exactly (by simp only; omega) (by simp only; omega) rfl))
      · exact .inr (.inr ⟨declares, one, last, hull, rfl, rfl⟩)

end

/-- Every edit of a finished document that is not at the end of the source lies on something. -/
theorem Narrated.lies {source : Bytes} {config : PatchConfig} {root : Tree} {passes : List RewritePass}
    {first rewrite next : Rewrite} {noted : List Cursor} {taken : List (Tree × Edit)}
    (narrated : Narrated source config root passes first rewrite noted)
    (finishing : Finishing source root rewrite next taken) {edit : Edit}
    (mem : edit ∈ (finish root rewrite).doc.edits) (early : edit.start < source.length) :
    Lies source config root edit.range edit.parts := by
  rcases finishing.cases_finish mem with walked | ⟨entry, known, rfl⟩ | ⟨starts, _⟩
  · obtain ⟨c, place, note⟩ := narrated.chronicle.edits edit walked
    exact note.lies finishing.wf (narrated.stands place)
  · have statement := finishing.entry_mem known
    obtain ⟨child, kind, _⟩ := mem_statements statement
    have removal := (finishing.spec.removals entry known).2
    rw [finishing.disciplined.unchanged] at removal
    have range : entry.2.range = extent source entry.1.range := by rw [removal, removal_range]
    have parts : entry.2.parts = [.text []] := by rw [removal]; rfl
    rw [range, parts]
    exact .deleted (child_mem_nodes child)
      (.lines (self_mem_nodes root) child (by rw [finishing.wf.program]; rfl))
      (.inr (by rw [kind]; rfl)) []
  · omega

end Rebundle
