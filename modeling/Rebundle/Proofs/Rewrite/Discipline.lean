import Rebundle.Proofs.Rewrite.Relocation

/-!
# The discipline of edits

The document that rendering gets from the standard passes: of any two edits one lies inside the other
or they are disjoint, and so it is with an edit and a range that another edit writes again. Removals
are widened over blanks, but never over what another edit covers.
-/

namespace Rebundle

open Source Tree

theorem Region.mono {source : Bytes} {root : Tree} {allowed wider : Tree → Tree → Prop} {range : Range}
    (implies : ∀ parent t, allowed parent t → wider parent t)
    (region : Region source root allowed range) : Region source root wider range := by
  cases region with
  | node parentMem mem rewritable allows =>
      exact .node parentMem mem rewritable (implies _ _ allows)
  | declarators mem declares hull => exact .declarators mem declares hull
  | removal parentMem mem lists deletable allows =>
      exact .removal parentMem mem lists deletable (implies _ _ allows)

/-- Where the edits of a finished rewriting lie: on a region, or at the end of the source. -/
def Placed (source : Bytes) (root : Tree) (range : Range) : Prop :=
  Region source root (fun _ _ => True) range ∨ range = ⟨source.length, source.length⟩

/-- Whether a span writes this range again. -/
def Span.Writes (span : Span) (range : Range) : Prop :=
  span.start = range.start ∧ span.stop = range.stop

theorem Span.writes_ofRange (range : Range) (hidden : List Edit) :
    (Span.ofRange range hidden).Writes range := ⟨rfl, rfl⟩

namespace Placed

variable {source : Bytes} {root : Tree} {a b : Range}

theorem ofSpared (region : Region source root Spared a) : Placed source root a :=
  .inl (region.mono fun _ _ _ => trivial)

theorem fits (wf : root.WellFormed source) (placed : Placed source root a) :
    a.start ≤ a.stop ∧ a.stop ≤ source.length := by
  rcases placed with region | rfl
  · exact wf.region_fits region
  · exact ⟨Nat.le_refl _, Nat.le_refl _⟩

theorem nestedOrDisjoint (wf : root.WellFormed source) (placedA : Placed source root a)
    (placedB : Placed source root b) : a.NestedOrDisjoint b := by
  have fitsA := placedA.fits wf
  have fitsB := placedB.fits wf
  rcases placedA with regionA | rfl
  · rcases placedB with regionB | rfl
    · exact wf.nested_regions regionA regionB
    · exact .inr (.inr (.inl fitsA.2))
  · exact .inr (.inr (.inr fitsB.2))

end Placed

namespace TopLevelAwait

variable {source : Bytes} {root : Tree} {rewrite : Rewrite}

/-- A waiting statement and its removal are regions of the program. -/
theorem placed_of_taken (wf : root.WellFormed source) {n : Nat} {before after : Document}
    {taken : List (Tree × Edit)} (unchanged : before.source = source)
    (out : TakenOut (statements n root) before taken after) {entry : Tree × Edit}
    (mem : entry ∈ taken) :
    Placed source root entry.1.range ∧ Placed source root entry.2.range := by
  have known : entry.1 ∈ statements n root := by
    rw [← out.statements]
    exact List.mem_map_of_mem mem
  obtain ⟨child, kind, _⟩ := mem_statements known
  have deletable : entry.1.kind.isDeletable = true := by rw [kind]; rfl
  constructor
  · exact .inl (.node (self_mem_nodes root) child
      (.inl (Kind.isRewritten_of_isDeletable deletable)) trivial)
  · rw [(out.removals entry mem).2, unchanged, removal_range]
    exact .inl (.removal (self_mem_nodes root) child (by rw [wf.program]; rfl) deletable trivial)

/-- Every edit of a finished rewriting is placed, and so are the ranges that it writes again. -/
theorem placed_finish (wf : root.WellFormed source)
    (disciplined : rewrite.doc.Disciplined source root) :
    ∀ edit ∈ (finish root rewrite).doc.edits, Placed source root edit.range ∧
      ∀ span, .span span ∈ edit.parts → ∃ range, span.Writes range ∧
        Placed source root range := by
  have walked : ∀ edit ∈ rewrite.doc.edits, Placed source root edit.range ∧
      ∀ span, .span span ∈ edit.parts → ∃ range, span.Writes range ∧
        Placed source root range := by
    intro edit mem
    refine ⟨.ofSpared (disciplined.regions edit mem), ?_⟩
    intro span written
    obtain ⟨range, rfl, region, _⟩ := disciplined.spans edit mem span written
    exact ⟨range, Span.writes_ofRange _ _, .ofSpared region⟩
  have spec := takeOut_spec (statements rewrite.skipBefore root) rewrite
  cases out : takeOut rewrite (statements rewrite.skipBefore root) with
  | mk taken next =>
      rw [out] at spec
      by_cases none : taken = []
      · rw [finish_untaken out none]
        exact walked
      · have source : next.doc.source = source := spec.unchanged.trans disciplined.unchanged
        rw [finish_some out none, source]
        intro edit mem
        rcases Edit.mem_insert.mp mem with rfl | mem
        · refine ⟨.inr rfl, ?_⟩
          intro span written
          obtain ⟨entry, known, rfl⟩ := mem_wrapper written
          exact ⟨entry.1.range, Span.writes_ofRange _ _,
            (placed_of_taken wf disciplined.unchanged spec known).1⟩
        · rcases List.mem_append.mp (spec.edits.mem_iff.mp mem) with mem | mem
          · obtain ⟨entry, known, rfl⟩ := List.mem_map.mp mem
            have placed := placed_of_taken wf disciplined.unchanged spec known
            refine ⟨placed.2, ?_⟩
            intro span written
            rw [(spec.removals entry known).2] at written
            simp [removal] at written
          · exact walked edit mem

end TopLevelAwait

namespace Patcher

variable {patcher : Patcher} {prepared : Prepared}

/-- The state of the passes of a patcher after their walk. -/
def walked (patcher : Patcher) (config : PatchConfig) (prepared : Prepared) : Rewrite :=
  RewritePass.walked (patcher.passes.filter fun pass => pass.applies config) prepared.root
    (start config prepared (scopesFor config prepared).value)

theorem rewrite_value (orders : patcher.passes.Perm RewritePass.standard) (config : PatchConfig)
    (prepared : Prepared) :
    (patcher.rewrite config prepared).value =
      TopLevelAwait.finish prepared.root (patcher.walked config prepared) := by
  rw [walked, ← RewritePass.run_perm orders]
  rfl

theorem walked_disciplined (wf : prepared.root.WellFormed prepared.source)
    (standard : patcher.passes = RewritePass.standard) (config : PatchConfig) :
    (patcher.walked config prepared).doc.Disciplined prepared.source prepared.root := by
  apply RewritePass.disciplined_walked wf
  · rw [standard]
    exact fun pass mem => (List.mem_filter.mp mem).1
  · exact Document.Disciplined.ofSource _ _

/-- The standard passes keep their edits nested or disjoint, and they write no range again that an edit
overlaps in part, whatever they are asked to do. -/
theorem rewrite_nestedOrDisjoint (standard : patcher.passes = RewritePass.standard)
    (config : PatchConfig) (wf : prepared.root.WellFormed prepared.source) :
    let edits := (patcher.rewrite config prepared).value.doc.edits
    (∀ a ∈ edits, ∀ b ∈ edits, a.range.NestedOrDisjoint b.range) ∧
      ∀ a ∈ edits, ∀ span, .span span ∈ a.parts → ∃ range, span.Writes range ∧
        ∀ b ∈ edits, range.NestedOrDisjoint b.range := by
  have placed := TopLevelAwait.placed_finish wf (walked_disciplined wf standard config)
  rw [← rewrite_value (.of_eq standard)] at placed
  constructor
  · intro a memA b memB
    exact (placed a memA).1.nestedOrDisjoint wf (placed b memB).1
  · intro a memA span written
    obtain ⟨range, writes, on⟩ := (placed a memA).2 span written
    exact ⟨range, writes, fun b memB => on.nestedOrDisjoint wf (placed b memB).1⟩

/-- The program `await f;` with `var a, b` on the next line. -/
def waiting : Prepared where
  source := [0x61, 0x77, 0x61, 0x69, 0x74, 0x20, 0x66, 0x3B, 0x0A,
    0x76, 0x61, 0x72, 0x20, 0x61, 0x2C, 0x20, 0x62]
  start := 0
  root :=
    let leaf (kind : Kind) (role : Option Role) (start stop : Nat) : Tree :=
      .node ⟨kind, role, ⟨start, stop⟩, false⟩ []
    .node ⟨.program, none, ⟨0, 17⟩, false⟩ [
      .node ⟨.expressionStatement, none, ⟨0, 8⟩, false⟩ [
        .node ⟨.awaitExpression, none, ⟨0, 7⟩, false⟩ [
          leaf (.token "await") none 0 5, leaf .identifier none 6 7],
        leaf (.token ";") none 7 8],
      .node ⟨.variableDeclaration, none, ⟨9, 17⟩, false⟩ [
        leaf (.token "var") none 9 12,
        .node ⟨.variableDeclarator, none, ⟨13, 14⟩, false⟩ [leaf .identifier (some .name) 13 14],
        leaf (.token ",") none 14 15,
        .node ⟨.variableDeclarator, none, ⟨16, 17⟩, false⟩ [leaf .identifier (some .name) 16 17]]]

theorem waiting_nestedOrDisjoint :
    waiting.root.WellFormed waiting.source ∧
      let edits := (standard.rewrite { PatchConfig.empty with removeIdentifiers := ["a"] }
        waiting).value.doc.edits
      ∀ a ∈ edits, ∀ b ∈ edits, a.range.NestedOrDisjoint b.range := by
  have wf : waiting.root.WellFormed waiting.source := by decide
  have passes : standard.passes = RewritePass.standard := rfl
  exact ⟨wf, (rewrite_nestedOrDisjoint passes _ wf).1⟩

end Patcher

end Rebundle
