import Rebundle.Proofs.Rewrite.Deletion

/-!
# Patched programs

The code of a patch is what is left of the program, followed by one wrapper with its waiting
statements. One thing breaks this: an edit of what is left that writes the end of the source again
writes the insertion there along with it, and the wrapper appears twice.
-/

namespace Rebundle

open Source Tree

namespace Document

/-- Whether an outermost edit writes a range again that reaches to the end of the source. -/
def Trails (doc : Document) : Prop :=
  ∃ edit ∈ undominated doc.edits 0 doc.source.length, edit.Trails doc.source.length

instance (doc : Document) : Decidable doc.Trails :=
  inferInstanceAs (Decidable (∃ edit ∈ undominated doc.edits 0 doc.source.length,
    edit.Trails doc.source.length))

end Document

namespace TopLevelAwait

/-- The wrapper takes more room than the line feed in front of it. -/
theorem written_wrapper_length (source : Bytes) (taken : List (Tree × Edit))
    (f : Span → Except Utf8.EncodeFault Bytes) (text : Bytes)
    (made : written f (wrapper source taken) = .ok text) : 2 ≤ text.length := by
  have first : wrapper source taken =
      [.text (lead source (tail source.length (taken.map (·.2))) ++ opening)] ++
        (taken.flatMap line ++ [.text closing]) := rfl
  rw [first, written_append, written_ascii (ascii_opening _ _)] at made
  obtain ⟨front, behind, opens, _, rfl⟩ := append_ok made
  cases opens
  have : 2 ≤ opening.length := by decide
  simp only [Utf8.asciiBytes, List.length_append, List.length_map]
  omega

/-- What is left of a program, and its waiting statements in a wrapper. -/
def relocatedBytes (rest : Document) (lead : Text) (lines : Except Utf8.EncodeFault (List Bytes)) :
    Except Utf8.EncodeFault Bytes := do
  let front ← rest.render
  let lines ← lines
  return front ++ (Utf8.asciiBytes (lead ++ opening) ++ lines.flatMap indented ++
    Utf8.asciiBytes closing)

theorem relocatedBytes_ok {rest : Document} {start : Text}
    {lines : Except Utf8.EncodeFault (List Bytes)} {bytes : Bytes}
    (made : relocatedBytes rest start lines = .ok bytes) :
    ∃ front row, rest.render = .ok front ∧ lines = .ok row ∧
      bytes = front ++ (Utf8.asciiBytes (start ++ opening) ++ row.flatMap indented ++
        Utf8.asciiBytes closing) := by
  rw [relocatedBytes] at made
  cases first : rest.render with
  | error fault =>
      rw [first] at made
      cases made
  | ok front =>
      rw [first] at made
      cases lines with
      | error fault => cases made
      | ok row => exact ⟨front, row, rfl, rfl, (Except.ok.inj made).symm⟩

/-- What stands in front of the wrapper is all that its length depends on. -/
theorem length_relocatedBytes {rest : Document} {start start' : Text}
    {lines : Except Utf8.EncodeFault (List Bytes)} {bytes bytes' : Bytes}
    (made : relocatedBytes rest start lines = .ok bytes)
    (made' : relocatedBytes rest start' lines = .ok bytes') :
    bytes.length + start'.length = bytes'.length + start.length := by
  obtain ⟨front, row, first, second, rfl⟩ := relocatedBytes_ok made
  obtain ⟨front', row', first', second', rfl⟩ := relocatedBytes_ok made'
  rw [first] at first'
  rw [second] at second'
  cases first'
  cases second'
  simp only [Utf8.asciiBytes, List.length_append, List.length_map]
  omega

namespace Finishing

variable {source : Bytes} {root : Tree} {rewrite next : Rewrite} {taken : List (Tree × Edit)}
  (finishing : Finishing source root rewrite next taken)

include finishing

/-- The insertion at the end of the source. -/
theorem wrapper_atEnd : AtEnd source next.doc.edits
    ⟨source.length, source.length, wrapper source taken, next.doc.recorded, "async wrapper"⟩ :=
  finishing.atEnd rfl rfl rfl

theorem finished_nested : ∀ a ∈ (finish root rewrite).doc.edits,
    ∀ b ∈ (finish root rewrite).doc.edits, a.range.NestedOrDisjoint b.range := by
  have placed := placed_finish finishing.wf finishing.disciplined
  intro a memA b memB
  exact (placed a memA).1.nestedOrDisjoint finishing.wf (placed b memB).1

/-- The rendered document, with the insertion as its last edit. -/
theorem render_finish (found : taken ≠ []) :
    (finish root rewrite).doc.render = outline source (next.doc.edits ++
      [⟨source.length, source.length, wrapper source taken, next.doc.recorded, "async wrapper"⟩])
      0 source.length := by
  obtain ⟨unchanged, edits⟩ := finishing.edits found
  have kept : (finish root rewrite).doc.Kept := by
    rw [finish_some finishing.out found]
    exact finishing.kept.record (Nat.le_refl _) (Nat.le_refl _)
  rw [Document.render, unchanged, ← edits]
  exact window_eq_outline kept.sorted finishing.finished_nested
    (fun edit mem => (kept.inside edit mem).1) _ _

/-- What is left of the program. -/
theorem render_rest (found : taken ≠ []) :
    next.doc.render = outline source next.doc.edits 0 source.length := by
  have known : ∀ edit ∈ next.doc.edits, edit ∈ (finish root rewrite).doc.edits := by
    rw [(finishing.edits found).2]
    exact fun edit mem => List.mem_append_left _ mem
  rw [Document.render, finishing.unchanged]
  exact window_eq_outline finishing.kept.sorted
    (fun a memA b memB => finishing.finished_nested a (known a memA) b (known b memB))
    (fun edit mem => (finishing.kept.inside edit mem).1) _ _

/-- The text of the insertion: the waiting statements with the edits of the walk inside them. -/
theorem written_insertion {last : Edit} (seq : last.seq = next.doc.recorded) :
    written (fun span => outline source (last.without span.hidden next.doc.edits) span.start span.stop)
        (wrapper source taken) = (do
      let lines ← (statements rewrite.skipBefore root).mapM fun t =>
        window source rewrite.doc.edits t.start t.stop
      return Utf8.asciiBytes (lead source (tail source.length (taken.map (·.2))) ++ opening) ++
        lines.flatMap indented ++ Utf8.asciiBytes closing) := by
  rw [written_wrapper source (g := fun t => window source rewrite.doc.edits t.start t.stop),
    finishing.spec.statements]
  intro entry mem
  exact finishing.outline_statement seq mem

/-- When nothing writes the end of the source again, the wrapper stands behind the rest, once. -/
theorem render_once (found : taken ≠ []) (quiet : ¬ next.doc.Trails) :
    (finish root rewrite).doc.render = relocatedBytes next.doc
      (lead source (tail source.length (taken.map (·.2))))
      ((statements rewrite.skipBefore root).mapM fun t =>
        window source rewrite.doc.edits t.start t.stop) := by
  have free : ∀ edit ∈ undominated next.doc.edits 0 source.length,
      ¬ edit.Trails source.length := by
    intro edit mem trails
    rw [Document.Trails, finishing.unchanged] at quiet
    exact quiet ⟨edit, mem, trails⟩
  have whole := finishing.wrapper_atEnd.outline_append (Int.natCast_nonneg source.length) free
  rw [finishing.render_finish found, whole, finishing.written_insertion rfl, relocatedBytes,
    finishing.render_rest found]
  cases outline source next.doc.edits 0 source.length with
  | error fault => rfl
  | ok front =>
      cases (statements rewrite.skipBefore root).mapM fun t =>
        window source rewrite.doc.edits t.start t.stop <;> rfl

/-- When an edit writes the end of the source again, the rendered document is longer than the rest
with one wrapper, even with a line feed more. -/
theorem render_again (found : taken ≠ []) (trails : next.doc.Trails) {long : Bytes}
    (made : (finish root rewrite).doc.render = .ok long) :
    ∃ once, relocatedBytes next.doc (lead source (tail source.length (taken.map (·.2))))
        ((statements rewrite.skipBefore root).mapM fun t =>
          window source rewrite.doc.edits t.start t.stop) = .ok once ∧
      once.length + 2 ≤ long.length := by
  rw [finishing.render_finish found] at made
  rw [Document.Trails, finishing.unchanged] at trails
  obtain ⟨edit, mem, trails⟩ := trails
  obtain ⟨front, text, first, second, less⟩ := finishing.wrapper_atEnd.length_le_of_trails
    (written_wrapper_length source taken) (Int.natCast_nonneg source.length) mem trails made
  rw [finishing.written_insertion rfl] at second
  refine ⟨front ++ text, ?_, by rw [List.length_append]; exact less⟩
  rw [relocatedBytes, finishing.render_rest found, first]
  cases lines : (statements rewrite.skipBefore root).mapM fun t =>
      window source rewrite.doc.edits t.start t.stop with
  | error fault =>
      rw [lines] at second
      cases second
  | ok lines' =>
      rw [lines] at second
      cases second
      rfl

end Finishing

end TopLevelAwait

namespace Patcher

variable {patcher : Patcher} {prepared : Prepared}

/-- The statements of a program that wait. -/
def awaits (prepared : Prepared) : List Tree :=
  TopLevelAwait.statements prepared.start prepared.root

/-- What is left of a program when its waiting statements are taken out. -/
def rest (patcher : Patcher) (config : PatchConfig) (prepared : Prepared) : Document :=
  (TopLevelAwait.takeOut (patcher.walked config prepared) (awaits prepared)).2.doc

/-- What is left of a program, and its waiting statements in a wrapper at the end, each with the edits
of the walk inside it. -/
def relocated (patcher : Patcher) (config : PatchConfig) (prepared : Prepared) (lead : Text) :
    Except Utf8.EncodeFault Text := do
  let front ← (patcher.rest config prepared).render
  let lines ← (awaits prepared).mapM fun t =>
    window prepared.source (patcher.walked config prepared).doc.edits t.start t.stop
  return Utf8.decodeEscaped front ++ lead ++ TopLevelAwait.opening ++
    (lines.flatMap fun line => TopLevelAwait.indentedText (Utf8.decodeEscaped line)) ++
    TopLevelAwait.closing

theorem walked_skipBefore (standard : patcher.passes = RewritePass.standard) (config : PatchConfig) :
    (patcher.walked config prepared).skipBefore = prepared.start := by
  have known : ∀ pass ∈ patcher.passes.filter fun pass => pass.applies config,
      pass ∈ RewritePass.standard := by
    rw [standard]
    exact fun pass mem => (List.mem_filter.mp mem).1
  have keeps := RewritePass.keeps_walked known prepared.root
    (start config prepared (scopesFor config prepared).value)
  exact keeps.skipBefore

/-- The relocated program is decoded from its bytes. -/
theorem relocated_eq (config : PatchConfig) {lead : Text} (blank : lead = [] ∨ lead = "\n") :
    patcher.relocated config prepared lead =
      (TopLevelAwait.relocatedBytes (patcher.rest config prepared) lead
        ((awaits prepared).mapM fun t =>
          window prepared.source (patcher.walked config prepared).doc.edits t.start t.stop)).map
        Utf8.decodeEscaped := by
  have ascii : Utf8.Ascii (lead ++ TopLevelAwait.opening) := by
    rcases blank with rfl | rfl <;> decide
  rw [relocated, TopLevelAwait.relocatedBytes]
  cases (patcher.rest config prepared).render with
  | error fault => rfl
  | ok front =>
      cases (awaits prepared).mapM fun t =>
          window prepared.source (patcher.walked config prepared).doc.edits t.start t.stop with
      | error fault => rfl
      | ok lines =>
          exact congrArg Except.ok (TopLevelAwait.decodeEscaped_wrapper front ascii lines).symm

/-- The code of a patch is the rendered document, decoded. -/
theorem finish_code (prepared : Prepared) (rewrite : Rewrite) :
    (finish prepared rewrite).value.map (·.code) =
      (rewrite.doc.render.map Utf8.decodeEscaped).mapError Failure.encoding := by
  rw [finish]
  cases rewrite.doc.render <;> rfl

/-- A source that is read is patched by its program. -/
theorem patch_of_prepare {config : PatchConfig} {source : Text} {path : Option Text}
    (read : (patcher.prepare source path).value = .ok prepared) :
    (patcher.patch config source path).value =
      (finish prepared (patcher.rewrite config prepared).value).value := by
  simp only [patch, Bind.bind]
  rw [read]

/-- A patch was made of the program in its source: its code is the rendered document, decoded. -/
theorem patch_ok {config : PatchConfig} {source : Text} {path : Option Text} {patch : Patch}
    (made : (patcher.patch config source path).value = .ok patch) :
    ∃ prepared rendered, (patcher.prepare source path).value = .ok prepared ∧
      (patcher.rewrite config prepared).value.doc.render = .ok rendered ∧
      patch.code = Utf8.decodeEscaped rendered := by
  cases read : (patcher.prepare source path).value with
  | error failure =>
      simp only [Patcher.patch, Bind.bind, read] at made
      cases made
  | ok prepared =>
      have code := finish_code prepared (patcher.rewrite config prepared).value
      rw [← patch_of_prepare read, made] at code
      cases rendered : (patcher.rewrite config prepared).value.doc.render with
      | error fault =>
          rw [rendered] at code
          cases code
      | ok bytes =>
          rw [rendered] at code
          exact ⟨prepared, bytes, rfl, rendered, Except.ok.inj code⟩

section

variable (standard : patcher.passes = RewritePass.standard) (config : PatchConfig)
  (wf : prepared.root.WellFormed prepared.source)

include standard wf

/-- The statements of a walked program, taken out. -/
theorem finishing_walked : ∃ taken next,
    TopLevelAwait.Finishing prepared.source prepared.root (patcher.walked config prepared) next taken ∧
      (patcher.rest config prepared) = next.doc ∧ taken.map (·.1) = awaits prepared := by
  have skip : (patcher.walked config prepared).skipBefore = prepared.start :=
    walked_skipBefore standard config
  cases out : TopLevelAwait.takeOut (patcher.walked config prepared) (awaits prepared) with
  | mk taken next =>
      have finishing : TopLevelAwait.Finishing prepared.source prepared.root
          (patcher.walked config prepared) next taken :=
        ⟨wf, walked_disciplined wf standard config, by rw [skip]; exact out⟩
      refine ⟨taken, next, finishing, by rw [rest, out], ?_⟩
      rw [finishing.spec.statements, skip, awaits]

theorem code_once (found : awaits prepared ≠ []) (quiet : ¬ (patcher.rest config prepared).Trails) :
    ∃ lead, (lead = [] ∨ lead = "\n") ∧
      (finish prepared (patcher.rewrite config prepared).value).value.map (·.code) =
        (patcher.relocated config prepared lead).mapError Failure.encoding := by
  obtain ⟨taken, next, finishing, rest, statements⟩ := finishing_walked standard config wf
  have some : taken ≠ [] := by
    rintro rfl
    exact found statements.symm
  refine ⟨TopLevelAwait.lead prepared.source
    (TopLevelAwait.tail prepared.source.length (taken.map (·.2))), TopLevelAwait.lead_cases _ _, ?_⟩
  rw [rest] at quiet
  rw [finish_code, rewrite_value (.of_eq standard), finishing.render_once some quiet,
    relocated_eq config (TopLevelAwait.lead_cases _ _), rest, ← finishing.spec.statements, statements]

theorem code_again (found : awaits prepared ≠ []) (trails : (patcher.rest config prepared).Trails)
    {patch : Patch}
    (made : (finish prepared (patcher.rewrite config prepared).value).value = .ok patch)
    {lead : Text} (blank : lead = [] ∨ lead = "\n") :
    patcher.relocated config prepared lead ≠ .ok patch.code := by
  obtain ⟨taken, next, finishing, rest, statements⟩ := finishing_walked standard config wf
  have some : taken ≠ [] := by
    rintro rfl
    exact found statements.symm
  have code := finish_code prepared (patcher.rewrite config prepared).value
  rw [made, rewrite_value (.of_eq standard)] at code
  rw [rest] at trails
  intro same
  rw [relocated_eq config blank, rest] at same
  cases long : (TopLevelAwait.finish prepared.root (patcher.walked config prepared)).doc.render with
  | error fault =>
      rw [long] at code
      cases code
  | ok bytes =>
      rw [long] at code
      obtain ⟨once, made', less⟩ := finishing.render_again some trails long
      rw [← finishing.spec.statements, statements] at made'
      cases other : TopLevelAwait.relocatedBytes next.doc lead ((awaits prepared).mapM fun t =>
          window prepared.source (patcher.walked config prepared).doc.edits t.start t.stop) with
      | error fault =>
          rw [other] at same
          cases same
      | ok bytes' =>
          rw [other] at same
          have equal : bytes' = bytes := by
            apply Utf8.decodeEscaped_injective
            exact (Except.ok.inj same).trans (Except.ok.inj code)
          have lengths := TopLevelAwait.length_relocatedBytes made' other
          have short : lead.length ≤ 1 := by
            rcases blank with rfl | rfl <;> decide
          rw [equal] at lengths
          omega

/-- The waiting statements are missing from what is left. -/
theorem rest_removes (led : prepared.root.AwaitsLed) {t : Tree} (mem : t ∈ awaits prepared) :
    ∃ edit ∈ undominated (patcher.rest config prepared).edits 0 prepared.source.length,
      edit.range = extent prepared.source t.range ∧ edit.parts = [.text []] := by
  obtain ⟨taken, next, finishing, rest, statements⟩ := finishing_walked standard config wf
  rw [← statements] at mem
  obtain ⟨entry, known, rfl⟩ := List.mem_map.mp mem
  have removal := (finishing.spec.removals entry known).2
  rw [finishing.disciplined.unchanged] at removal
  rw [rest]
  refine ⟨entry.2, finishing.removal_mem_undominated led known, ?_, ?_⟩
  · rw [removal, TopLevelAwait.removal_range]
  · rw [removal]
    simp only [TopLevelAwait.removal]

end

/-- The waiting statements of a program are taken out and stand in one wrapper behind all else, in
their order and with the edits inside them, if and only if no outermost edit of what is left writes
the end of the source again. A program without such statements is patched by the walk alone. -/
theorem patch_relocated (standard : patcher.passes = RewritePass.standard) (config : PatchConfig)
    (wf : prepared.root.WellFormed prepared.source) :
    let patched := (finish prepared (patcher.rewrite config prepared).value).value
    (∀ source path, (patcher.prepare source path).value = .ok prepared →
      (patcher.patch config source path).value = patched) ∧
    (awaits prepared = [] → patched.map (·.code) =
      ((patcher.walked config prepared).doc.render.map Utf8.decodeEscaped).mapError .encoding) ∧
    (awaits prepared ≠ [] → ¬ (patcher.rest config prepared).Trails →
      ∃ lead, (lead = [] ∨ lead = "\n") ∧
        patched.map (·.code) = (patcher.relocated config prepared lead).mapError .encoding) ∧
    (awaits prepared ≠ [] → (patcher.rest config prepared).Trails →
      ∀ patch lead, patched = .ok patch → lead = [] ∨ lead = "\n" →
        patcher.relocated config prepared lead ≠ .ok patch.code) ∧
    (prepared.root.AwaitsLed → ∀ t ∈ awaits prepared,
      ∃ edit ∈ undominated (patcher.rest config prepared).edits 0 prepared.source.length,
        edit.range = extent prepared.source t.range ∧ edit.parts = [.text []]) := by
  refine ⟨?_, ?_, ?_, ?_, ?_⟩
  · intro source path read
    exact patch_of_prepare read
  · intro none
    rw [finish_code, rewrite_value (.of_eq standard), TopLevelAwait.finish_none]
    rw [walked_skipBefore standard config]
    exact none
  · exact code_once standard config wf
  · intro found trails patch lead made blank
    exact code_again standard config wf found trails made blank
  · intro led t mem
    exact rest_removes standard config wf led mem

/-- Without a task the program `waiting` is relocated; without its first variable, what is left ends
with the second one, which is written again. -/
theorem waiting_relocated :
    let removing := { PatchConfig.empty with removeIdentifiers := ["a"] }
    let patched := fun config => (finish waiting (standard.rewrite config waiting).value).value
    waiting.root.WellFormed waiting.source ∧ waiting.root.AwaitsLed ∧ awaits waiting ≠ [] ∧
      (∃ lead, (lead = [] ∨ lead = "\n") ∧ (patched PatchConfig.empty).map (·.code) =
        (standard.relocated PatchConfig.empty waiting lead).mapError .encoding) ∧
      (standard.rest removing waiting).Trails ∧
      ∀ patch, patched removing = .ok patch →
        standard.relocated removing waiting "\n" ≠ .ok patch.code := by
  have wf : waiting.root.WellFormed waiting.source := by decide
  have found : awaits waiting ≠ [] := by decide +kernel
  have quiet : ¬ (standard.rest PatchConfig.empty waiting).Trails := by decide +kernel
  have trails :
      (standard.rest { PatchConfig.empty with removeIdentifiers := ["a"] } waiting).Trails := by
    decide +kernel
  refine ⟨wf, by decide, found, ?_, trails, ?_⟩
  · exact (patch_relocated rfl PatchConfig.empty wf).2.2.1 found quiet
  · intro patch made
    exact (patch_relocated rfl _ wf).2.2.2.1 found trails patch "\n" made (.inr rfl)

end Patcher

end Rebundle
