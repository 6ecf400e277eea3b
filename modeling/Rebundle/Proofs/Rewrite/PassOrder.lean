import Mathlib.Data.List.Nodup
import Rebundle.Proofs.Rewrite.Abreast
import Rebundle.Proofs.Rewrite.Patched

/-!
# The order of the passes

In whatever order the standard passes are asked, the patched code and the warnings are the same. The
documents of two orders differ in replaced bodies of removed functions only, and these are covered by the
removals of the functions wherever either of them is written.
-/

namespace Rebundle

open Source Tree

namespace TopLevelAwait

variable {source : Bytes} {root : Tree} {a b : Rewrite} {f : Nat → Nat} {extra : List Nat}
  {guards : Edit → Edit → Prop}

theorem renumber_removal (f : Nat → Nat) (seq : Nat) (t : Tree) :
    (removal source seq t).renumber f = removal source (f seq) t := by
  simp only [removal, Edit.renumber, List.map_cons, List.map_nil, Part.renumber]

/-- Taking statements out of two documents gives the same removals, each under its own number. -/
theorem takeOut_extends (agrees : a.Agrees b) (extended : a.doc.Extends f extra b.doc)
    (guarded : b.doc.Guarded guards extra) (row : List Tree) :
    (takeOut b row).1 = (takeOut a row).1.map (Prod.map id (Edit.renumber f)) ∧
      (takeOut a row).2.doc.Extends f extra (takeOut b row).2.doc ∧
        (takeOut b row).2.doc.Guarded guards extra := by
  induction row generalizing a b with
  | nil => exact ⟨rfl, extended, guarded⟩
  | cons t rest ih =>
      have follows := agrees.follows.remove t.range "top-level await"
      have number : (b.remove t.range "top-level await").1 =
          (a.remove t.range "top-level await").1.renumber f := by
        rw [remove_edit, remove_edit, renumber_removal, extended.number, agrees.source]
      have grown : (a.remove t.range "top-level await").2.doc.Extends f extra
          (b.remove t.range "top-level await").2.doc := by
        rw [follows.first, follows.second]
        exact extended.record _ _ [.text []] _
      have covered : (b.remove t.range "top-level await").2.doc.Guarded guards extra := by
        rw [follows.second]
        exact guarded.record extended.recorded_not_mem _ _ _ _
      obtain ⟨same, last, still⟩ := ih follows.agrees grown covered
      simp only [takeOut]
      refine ⟨?_, last, still⟩
      rw [List.map_cons, same, number]
      rfl

theorem renumber_wrapper (f : Nat → Nat) (source : Bytes) (taken : List (Tree × Edit)) :
    (wrapper source taken).map (Part.renumber f) =
      wrapper source (taken.map (Prod.map id (Edit.renumber f))) := by
  have ends : tail source.length ((taken.map (Prod.map id (Edit.renumber f))).map (·.2)) =
      tail source.length (taken.map (·.2)) := by
    rw [tail, tail, List.map_map, ← List.map_reverse, ← List.map_reverse, List.foldl_map, List.foldl_map]
    rfl
  have lines : (taken.flatMap line).map (Part.renumber f) =
      (taken.map (Prod.map id (Edit.renumber f))).flatMap line := by
    rw [List.map_flatMap, List.flatMap_map]
    rfl
  rw [wrapper, wrapper, ends, ← lines]
  simp only [List.map_cons, List.map_append, List.map_nil, Part.renumber, List.cons_append]

theorem takeOut_warnings (row : List Tree) (rewrite : Rewrite) :
    (takeOut rewrite row).2.warnings = rewrite.warnings := by
  induction row generalizing rewrite with
  | nil => rfl
  | cons t rest ih =>
      simp only [takeOut]
      rw [ih]
      simp only [Rewrite.remove]

theorem finish_warnings (root : Tree) (rewrite : Rewrite) :
    (finish root rewrite).warnings = rewrite.warnings := by
  have taken := takeOut_warnings (statements rewrite.skipBefore root) rewrite
  rw [finish]
  split
  · rename_i out
    rw [out] at taken
    exact taken
  · rename_i out
    rw [out] at taken
    exact taken

/-- Finishing records the same in two documents. -/
theorem finish_extends (root : Tree) (agrees : a.Agrees b) (extended : a.doc.Extends f extra b.doc)
    (guarded : b.doc.Guarded guards extra) :
    (finish root a).doc.Extends f extra (finish root b).doc ∧
      (finish root b).doc.Guarded guards extra := by
  obtain ⟨same, last, still⟩ := takeOut_extends agrees extended guarded (statements a.skipBefore root)
  cases first : takeOut a (statements a.skipBefore root) with
  | mk taken next =>
      cases second : takeOut b (statements a.skipBefore root) with
      | mk taken' next' =>
          rw [first, second] at same last
          rw [second] at still
          dsimp only at same last still
          subst same
          rw [← agrees.skipBefore] at second
          by_cases none : taken = []
          · rw [finish_untaken first none, finish_untaken second (by rw [none]; rfl)]
            exact ⟨extended, guarded⟩
          · rw [finish_some first none, finish_some second (by simpa using none), last.unchanged,
              ← renumber_wrapper]
            exact ⟨last.record _ _ _ _, still.record last.recorded_not_mem _ _ _ _⟩

namespace Finishing

variable {rewrite next : Rewrite} {taken : List (Tree × Edit)}
  (finishing : Finishing source root rewrite next taken)

include finishing

/-- The edits of the finished document that write something again: they are edits of the walk, or the
wrapper, which writes the waiting statements again, each without its removal. -/
theorem spans_finish {edit : Edit} (mem : edit ∈ (finish root rewrite).doc.edits) {span : Span}
    (written : .span span ∈ edit.parts) : edit ∈ rewrite.doc.edits ∨
      ∃ t ∈ root.children, t.kind = .expressionStatement ∧
        ∃ removal ∈ (finish root rewrite).doc.edits, removal.reason = "top-level await" ∧
          span = Span.ofRange t.range [removal] := by
  by_cases none : taken = []
  · rw [finish_untaken finishing.out none] at mem
    exact .inl mem
  · rw [(finishing.edits none).2] at mem ⊢
    rcases List.mem_append.mp mem with walked | last
    · exact .inl (finishing.mem_of_span walked written)
    · rw [List.mem_singleton] at last
      subst last
      obtain ⟨entry, known, rfl⟩ := mem_wrapper written
      obtain ⟨child, kind, _⟩ := mem_statements (finishing.entry_mem known)
      refine .inr ⟨entry.1, child, kind, entry.2, List.mem_append_left _ (finishing.mem_iff.mpr
        (.inr ⟨entry, known, rfl⟩)), ?_, rfl⟩
      rw [(finishing.spec.removals entry known).2]
      simp only [removal]

theorem kept_finish : (finish root rewrite).doc.Kept := by
  by_cases none : taken = []
  · rw [finish_untaken finishing.out none]
    exact finishing.disciplined.kept
  · rw [finish_some finishing.out none]
    exact finishing.kept.record (Nat.le_refl _) (Nat.le_refl _)

end Finishing

end TopLevelAwait

namespace Abreast

variable {source : Bytes} {root : Tree} {a b : Rewrite}

theorem within_ofRange {t : Tree} {hidden : List Edit} {edit : Edit} :
    edit.within (Span.ofRange t.range hidden).start (Span.ofRange t.range hidden).stop = true ↔
      t.start ≤ edit.start ∧ edit.stop ≤ t.stop := by
  simp only [Edit.within_iff, Span.ofRange, Int.ofNat_le, Tree.start, Tree.stop]

/-- An edit that is hidden or writes again is no removal of a function, since its number tells it apart. -/
theorem visible {doc : Document} (kept : doc.Kept) {guard edit other : Edit}
    (overrides : Overrides source root guard edit) (mem : guard ∈ doc.edits) (mem' : other ∈ doc.edits)
    (differs : other.reason ≠ "remove function" ∨ ∃ span, .span span ∈ other.parts) :
    guard.seq ≠ other.seq := by
  intro same
  have distinct : (doc.edits.map (·.seq)).Nodup := kept.numbered.nodup_iff.mpr List.nodup_range
  have equal := List.inj_on_of_nodup_map distinct mem mem' same
  subst equal
  obtain ⟨function, name, body, overriding⟩ := overrides
  rcases differs with reason | ⟨span, written⟩
  · exact reason overriding.reason
  · obtain ⟨text, plain⟩ := overriding.plain
    rw [plain] at written
    simp at written

/-- In a finished document the removals of functions cover the bodies that are replaced besides. -/
theorem covering (wf : root.WellFormed source) (names : root.NamesFunctions)
    (abreast : Abreast source root a b) {next : Rewrite} {taken : List (Tree × Edit)}
    (finishing : TopLevelAwait.Finishing source root b next taken) {extra : List Nat}
    (guarded : (TopLevelAwait.finish root b).doc.Guarded (Overrides source root) extra) :
    Covering (Overrides source root) (fun edit => !extra.contains edit.seq)
      (TopLevelAwait.finish root b).doc.edits where
  guarded edit mem dropped := by
    obtain ⟨guard, known, kept, overrides⟩ := guarded edit mem (by simpa using dropped)
    exact ⟨guard, known, by simpa using kept, overrides⟩
  dominates := by
    rintro guard - edit - ⟨function, name, body, overriding⟩
    exact overriding.dominates wf names
  visible := by
    intro other mem span written guard memGuard edit memEdit overrides
    refine ⟨visible finishing.kept_finish overrides memGuard mem (.inr ⟨span, written⟩), ?_⟩
    rcases finishing.spans_finish mem written with walked | ⟨t, _, _, removal, known, reason, rfl⟩
    · obtain ⟨_, _, _, _, _, _, _, _, _, _, rfl⟩ := abreast.shaped other walked span written
      exact List.not_mem_nil
    · have apart := visible finishing.kept_finish overrides memGuard known (.inl (by rw [reason]; decide))
      simpa [Span.ofRange] using apart
  inner := by
    rintro start stop closed other mem lies free span written edit memEdit dropped inside guard memGuard
      ⟨function, name, body, overriding⟩
    rcases finishing.spans_finish mem written with walked | ⟨t, child, kind, removal, _, _, rfl⟩
    · obtain ⟨declaration, known, declares, first, last, hull, begins, ends, declarator, among, rfl⟩ :=
        abreast.shaped other walked span written
      have wide := hull.declarator (wf.laid.node known).1 among
      rw [within_ofRange] at inside ⊢
      rcases overriding.inside wf known (declaration.declarators_sublist.mem among)
        (.inl (kind_of_mem_declarators among)) inside with within | below
      · exact within
      · -- the function is around the declaration, so its removal dominates the edit
        have around : edit.within start stop = true := by
          simp only [Edit.entry] at begins ends
          rw [Edit.within_iff] at lies ⊢
          omega
        have above := overriding.dominates_declarators wf names known declares hull among below begins ends
        rw [free guard memGuard edit memEdit dropped ⟨function, name, body, overriding⟩
          (closed edit memEdit dropped around guard memGuard ⟨function, name, body, overriding⟩)] at above
        cases above
    · rw [within_ofRange] at inside ⊢
      rcases overriding.inside wf (self_mem_nodes root) child (.inr kind) inside with within | below
      · exact within
      · exact absurd below (overriding.not_mem_nodes wf child kind)

/-- States abreast are rendered alike when they are finished. -/
theorem render_finish (wf : root.WellFormed source) (names : root.NamesFunctions)
    (abreast : Abreast source root a b) :
    (TopLevelAwait.finish root b).doc.render = (TopLevelAwait.finish root a).doc.render := by
  obtain ⟨f, extra, extended, guarded⟩ := abreast.related
  have first : TopLevelAwait.Finishing source root a _ _ := ⟨wf, abreast.first, rfl⟩
  have second : TopLevelAwait.Finishing source root b _ _ := ⟨wf, abreast.second, rfl⟩
  obtain ⟨finished, covered⟩ := TopLevelAwait.finish_extends root abreast.agrees extended guarded
  have kept := second.kept_finish
  refine finished.render first.kept_finish kept second.finished_nested
    (covering wf names abreast second covered) ?_
  intro edit _ _ _ guard known _
  have inside := kept.inside guard known
  rw [Edit.within_iff]
  omega

end Abreast

namespace Patcher

variable {patcher : Patcher} {prepared : Prepared}

/-- What a patch lets its caller see besides the counters. -/
def seen (result : Except Failure Patch) : Except Failure (Text × List Text × Nat) :=
  result.map fun patch => (patch.code, patch.warnings, patch.syntaxErrors)

theorem seen_finish {a b : Rewrite} (render : b.doc.render = a.doc.render)
    (warnings : b.warnings = a.warnings) :
    seen (finish prepared b).value = seen (finish prepared a).value := by
  rw [finish, finish, render]
  cases a.doc.render with
  | error fault => rfl
  | ok rendered =>
      change Except.ok (_, b.warnings, _) = Except.ok (_, a.warnings, _)
      rw [warnings]

/-- The standard passes may be asked in any order: the code and the warnings are the same. -/
theorem patch_perm (orders : patcher.passes.Perm RewritePass.standard) (config : PatchConfig)
    (wf : prepared.root.WellFormed prepared.source) (names : prepared.root.NamesFunctions) :
    let ordered := { patcher with passes := RewritePass.standard }
    seen (finish prepared (patcher.rewrite config prepared).value).value =
        seen (finish prepared (ordered.rewrite config prepared).value).value ∧
      ∀ source path, (patcher.prepare source path).value = .ok prepared →
        seen (patcher.patch config source path).value = seen (ordered.patch config source path).value := by
  intro ordered
  have same : seen (finish prepared (patcher.rewrite config prepared).value).value =
      seen (finish prepared (ordered.rewrite config prepared).value).value := by
    have abreast := abreast_walked wf orders config
      (start config prepared (scopesFor config prepared).value) (Document.Disciplined.ofSource _ _)
      rfl
    have standard : ordered.passes.Perm RewritePass.standard := .refl _
    rw [rewrite_value orders, rewrite_value standard]
    apply seen_finish
    · exact abreast.render_finish wf names
    · rw [TopLevelAwait.finish_warnings, TopLevelAwait.finish_warnings]
      exact abreast.agrees.warnings
  refine ⟨same, ?_⟩
  intro source path read
  have read' : (ordered.prepare source path).value = .ok prepared := read
  rw [patch_of_prepare read, patch_of_prepare read']
  exact same

/-- The program `function f() {}`. -/
def declaring : Prepared where
  source := [0x66, 0x75, 0x6E, 0x63, 0x74, 0x69, 0x6F, 0x6E, 0x20, 0x66, 0x28, 0x29, 0x20, 0x7B, 0x7D]
  start := 0
  root :=
    let leaf (kind : Kind) (role : Option Role) (start stop : Nat) : Tree :=
      .node ⟨kind, role, ⟨start, stop⟩, false⟩ []
    .node ⟨.program, none, ⟨0, 15⟩, false⟩ [
      .node ⟨.functionDeclaration, none, ⟨0, 15⟩, false⟩ [
        leaf (.token "function") none 0 8,
        leaf .identifier (some .name) 9 10,
        .node ⟨.formalParameters, some .parameters, ⟨10, 12⟩, false⟩ [
          leaf (.token "(") none 10 11, leaf (.token ")") none 11 12],
        .node ⟨.statementBlock, some .body, ⟨13, 15⟩, false⟩ [
          leaf (.token "\x7b") none 13 14, leaf (.token "\x7d") none 14 15]]]

/-- Asked in the opposite order, the passes record one edit more when they remove a function whose body
they replace. -/
theorem declaring_perm :
    let config := { PatchConfig.empty with
      removeIdentifiers := ["f"], replaceFunctionBody := [("f", "x")] }
    let backward := { standard with passes := RewritePass.standard.reverse }
    backward.passes.Perm RewritePass.standard ∧ declaring.root.WellFormed declaring.source ∧
      declaring.root.NamesFunctions ∧
      (standard.rewrite config declaring).value.doc.edits.length = 1 ∧
      (backward.rewrite config declaring).value.doc.edits.length = 2 ∧
      seen (finish declaring (backward.rewrite config declaring).value).value =
        seen (finish declaring (standard.rewrite config declaring).value).value := by
  intro config backward
  have orders : backward.passes.Perm RewritePass.standard := List.reverse_perm _
  have wf : declaring.root.WellFormed declaring.source := by decide
  have names : declaring.root.NamesFunctions := by decide
  exact ⟨orders, wf, names, by decide +kernel, by decide +kernel,
    (patch_perm orders config wf names).1⟩

end Patcher

end Rebundle
