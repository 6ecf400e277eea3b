import Mathlib.Data.List.Pairwise
import Rebundle.Proofs.Document.Trailing
import Rebundle.Proofs.Rewrite.Discipline
import Rebundle.Proofs.Text.Decoding

/-!
# The wrapper of the waiting statements

The insertion that finishing records at the end writes the waiting statements again in their order,
each with the edits inside it. It is the last edit of the document, and nothing hides it.
-/

namespace Rebundle

open Source Tree

namespace Source

variable {f : Span → Except Utf8.EncodeFault Bytes}

theorem written_append (front back : List Part) :
    written f (front ++ back) = (do
      let first ← written f front
      let second ← written f back
      return first ++ second) := by
  induction front with
  | nil =>
      cases h : written f back <;>
        simp [written, h, Bind.bind, Except.bind, Pure.pure, Except.pure]
  | cons part rest ih =>
      cases part with
      | text t =>
          simp only [List.cons_append, written, ih, Bind.bind, Except.bind]
          cases Utf8.encodeEscaped t with
          | error fault => rfl
          | ok bytes =>
              cases written f rest with
              | error fault => rfl
              | ok behind => cases written f back <;> simp [Pure.pure, Except.pure]
      | span span =>
          simp only [List.cons_append, written, ih, Bind.bind, Except.bind]
          cases f span with
          | error fault => rfl
          | ok bytes =>
              cases written f rest with
              | error fault => rfl
              | ok behind => cases written f back <;> simp [Pure.pure, Except.pure]

theorem written_ascii {t : Text} (ascii : Utf8.Ascii t) :
    written f [.text t] = .ok (Utf8.asciiBytes t) := by
  simp [written, Utf8.encodeEscaped_ascii ascii, Bind.bind, Except.bind, Pure.pure, Except.pure]

end Source

namespace TopLevelAwait

theorem lead_cases (source : Bytes) (tail : Nat) : lead source tail = [] ∨ lead source tail = "\n" := by
  unfold lead
  split
  · exact .inl rfl
  · exact .inr rfl

/-- What stands in front of the statements, between each and the next, and behind them. -/
def opening : Text := ";(async () => \x7b\n"

def closing : Text := "\x7d)();\n"

def indented (bytes : Bytes) : Bytes :=
  Utf8.asciiBytes "  " ++ bytes ++ Utf8.asciiBytes "\n"

def indentedText (t : Text) : Text := "  " ++ t ++ "\n"

theorem ascii_opening (source : Bytes) (tail : Nat) : Utf8.Ascii (lead source tail ++ opening) := by
  rcases lead_cases source tail with lead | lead
  · rw [lead]
    decide
  · rw [lead]
    decide

theorem written_line (f : Span → Except Utf8.EncodeFault Bytes) (entry : Tree × Edit) :
    written f (line entry) =
      (f (Span.ofRange entry.1.range [entry.2])).map indented := by
  have blanks : Utf8.encodeEscaped "  " = .ok (Utf8.asciiBytes "  ") :=
    Utf8.encodeEscaped_ascii (by decide)
  have feed : Utf8.encodeEscaped "\n" = .ok (Utf8.asciiBytes "\n") :=
    Utf8.encodeEscaped_ascii (by decide)
  simp only [line, written, blanks, feed, Bind.bind, Except.bind]
  cases f (Span.ofRange entry.1.range [entry.2]) <;>
    simp [Except.map, indented, Pure.pure, Except.pure]

/-- The lines of the wrapper, when every span is written as `g` writes its statement. -/
theorem written_lines {f : Span → Except Utf8.EncodeFault Bytes}
    {g : Tree → Except Utf8.EncodeFault Bytes} {taken : List (Tree × Edit)}
    (each : ∀ entry ∈ taken, f (Span.ofRange entry.1.range [entry.2]) = g entry.1) :
    written f (taken.flatMap line) = (do
      let lines ← (taken.map (·.1)).mapM g
      return lines.flatMap indented) := by
  induction taken with
  | nil => rfl
  | cons entry rest ih =>
      rw [List.flatMap_cons, written_append, written_line, each entry List.mem_cons_self,
        ih fun other mem => each other (List.mem_cons_of_mem _ mem)]
      simp only [List.map_cons, List.mapM_cons, Bind.bind, Except.bind]
      cases g entry.1 with
      | error fault => rfl
      | ok bytes =>
          cases (rest.map (·.1)).mapM g <;>
            simp [Except.map, Pure.pure, Except.pure]

theorem written_wrapper {f : Span → Except Utf8.EncodeFault Bytes}
    {g : Tree → Except Utf8.EncodeFault Bytes} (source : Bytes) {taken : List (Tree × Edit)}
    (each : ∀ entry ∈ taken, f (Span.ofRange entry.1.range [entry.2]) = g entry.1) :
    written f (wrapper source taken) = (do
      let lines ← (taken.map (·.1)).mapM g
      return Utf8.asciiBytes (lead source (tail source.length (taken.map (·.2))) ++ opening) ++
        lines.flatMap indented ++ Utf8.asciiBytes closing) := by
  have split : wrapper source taken =
      [.text (lead source (tail source.length (taken.map (·.2))) ++ opening)] ++
        taken.flatMap line ++ [.text closing] := rfl
  rw [split, written_append, written_append, written_ascii (ascii_opening _ _),
    written_ascii (by decide), written_lines each]
  simp only [Bind.bind, Except.bind]
  cases (taken.map (·.1)).mapM g <;> simp [Pure.pure, Except.pure]

theorem decodeEscaped_lines (lines : List Bytes) (back : Bytes) :
    Utf8.decodeEscaped (lines.flatMap indented ++ back) =
      (lines.flatMap fun line => indentedText (Utf8.decodeEscaped line)) ++
        Utf8.decodeEscaped back := by
  induction lines with
  | nil => rfl
  | cons line rest ih =>
      have feed : Utf8.Ascii "\n" := by decide
      rw [List.flatMap_cons, indented, List.append_assoc, List.append_assoc, List.append_assoc,
        Utf8.decodeEscaped_ascii_append (by decide),
        Utf8.decodeEscaped_append _ (Utf8.startsAscii_append feed (by decide) _),
        Utf8.decodeEscaped_ascii_append feed, ih, List.flatMap_cons, indentedText]
      simp only [List.append_assoc]

/-- The wrapper, decoded behind what it stands behind. -/
theorem decodeEscaped_wrapper (front : Bytes) {start : Text} (ascii : Utf8.Ascii (start ++ opening))
    (lines : List Bytes) :
    Utf8.decodeEscaped (front ++ (Utf8.asciiBytes (start ++ opening) ++ lines.flatMap indented ++
        Utf8.asciiBytes closing)) =
      Utf8.decodeEscaped front ++ start ++ opening ++
        (lines.flatMap fun line => indentedText (Utf8.decodeEscaped line)) ++ closing := by
  have some : start ++ opening ≠ [] := List.append_ne_nil_of_right_ne_nil _ (by decide)
  have plain : Utf8.Ascii closing := by decide
  have last : Utf8.decodeEscaped (Utf8.asciiBytes closing) = closing := by
    have whole := Utf8.decodeEscaped_ascii_append plain []
    rw [List.append_nil] at whole
    exact whole.trans (List.append_nil closing)
  rw [List.append_assoc (Utf8.asciiBytes _),
    Utf8.decodeEscaped_append _ (Utf8.startsAscii_append ascii some _),
    Utf8.decodeEscaped_ascii_append ascii, decodeEscaped_lines, last]
  simp only [List.append_assoc]

/-- The step from the end of a walk to the statements taken out. -/
structure Finishing (source : Bytes) (root : Tree) (rewrite next : Rewrite)
    (taken : List (Tree × Edit)) : Prop where
  wf : root.WellFormed source
  disciplined : rewrite.doc.Disciplined source root
  out : takeOut rewrite (statements rewrite.skipBefore root) = (taken, next)

namespace Finishing

variable {source : Bytes} {root : Tree} {rewrite next : Rewrite} {taken : List (Tree × Edit)}
  (finishing : Finishing source root rewrite next taken)

include finishing

theorem spec : TakenOut (statements rewrite.skipBefore root) rewrite.doc taken next.doc := by
  have spec := takeOut_spec (statements rewrite.skipBefore root) rewrite
  rwa [finishing.out] at spec

theorem unchanged : next.doc.source = source :=
  finishing.spec.unchanged.trans finishing.disciplined.unchanged

theorem kept : next.doc.Kept := by
  have fits : ∀ t ∈ statements rewrite.skipBefore root,
      (extent rewrite.doc.source t.range).start ≤ (extent rewrite.doc.source t.range).stop ∧
        (extent rewrite.doc.source t.range).stop ≤ rewrite.doc.source.length := by
    intro t mem
    obtain ⟨child, kind, _⟩ := mem_statements mem
    have region : Region source root (fun _ _ => True) (extent source t.range) :=
      .removal (self_mem_nodes root) child (by rw [finishing.wf.program]; rfl)
        (by rw [kind]; rfl) trivial
    rw [finishing.disciplined.unchanged]
    exact finishing.wf.region_fits region
  have kept := kept_takeOut finishing.disciplined.kept fits
  rwa [finishing.out] at kept

theorem entry_mem {entry : Tree × Edit} (mem : entry ∈ taken) :
    entry.1 ∈ statements rewrite.skipBefore root := by
  rw [← finishing.spec.statements]
  exact List.mem_map_of_mem mem

/-- The edits after the statements are taken out: those of the walk, and the removals. -/
theorem mem_iff {edit : Edit} :
    edit ∈ next.doc.edits ↔ edit ∈ rewrite.doc.edits ∨ ∃ entry ∈ taken, entry.2 = edit := by
  rw [finishing.spec.edits.mem_iff, List.mem_append, List.mem_map, or_comm]

theorem mem_of_span {edit : Edit} (mem : edit ∈ next.doc.edits) {span : Span}
    (written : .span span ∈ edit.parts) : edit ∈ rewrite.doc.edits := by
  rcases finishing.mem_iff.mp mem with mem | ⟨entry, known, rfl⟩
  · exact mem
  · rw [(finishing.spec.removals entry known).2] at written
    simp [removal] at written

theorem inward {edit : Edit} (mem : edit ∈ next.doc.edits) : edit.Inward := by
  intro span written
  have known := finishing.mem_of_span mem written
  obtain ⟨range, rfl, region, begins, ends⟩ := finishing.disciplined.spans edit known span written
  have ordered := (finishing.wf.region_fits region).1
  simp only [Span.ofRange]
  omega

theorem atEnd {last : Edit} (starts : last.start = source.length)
    (stops : last.stop = source.length) (seq : last.seq = next.doc.recorded) :
    AtEnd source next.doc.edits last where
  starts := starts
  stops := stops
  fits edit mem := by
    rw [← finishing.unchanged]
    exact (finishing.kept.inside edit mem).2
  inward _ mem := finishing.inward mem
  distinct edit mem := by
    have := finishing.kept.seq_lt mem
    omega
  visible := by
    intro edit mem span written
    have known := finishing.mem_of_span mem written
    obtain ⟨range, rfl, _⟩ := finishing.disciplined.spans edit known span written
    simp [Span.ofRange]

/-- The wrapper is the last edit of the finished document. -/
theorem edits (found : taken ≠ []) :
    (finish root rewrite).doc.source = source ∧
      (finish root rewrite).doc.edits = next.doc.edits ++
        [⟨source.length, source.length, wrapper source taken, next.doc.recorded, "async wrapper"⟩] := by
  rw [finish_some finishing.out found, finishing.unchanged]
  refine ⟨finishing.unchanged, Edit.insert_eq_append ?_⟩
  intro other mem
  have bounds := finishing.kept.inside other mem
  have earlier := finishing.kept.seq_lt mem
  rw [finishing.unchanged] at bounds
  rw [Bool.eq_false_iff, ne_eq, Edit.precedes_iff]
  simp only
  omega

/-- Two statements that are taken out are the same or lie apart, each with something in it. -/
theorem apart {a b : Tree × Edit} (memA : a ∈ taken) (memB : b ∈ taken) :
    a = b ∨ a.1.stop ≤ b.1.start ∨ b.1.stop ≤ a.1.start := by
  have rows : (statements rewrite.skipBefore root).Pairwise fun a b => a.stop ≤ b.start :=
    finishing.wf.laid.children.pairwise.sublist (List.filter_sublist.trans List.filter_sublist)
  rw [← finishing.spec.statements, List.pairwise_map] at rows
  by_cases same : a = b
  · exact .inl same
  · have either : taken.Pairwise fun a b => a.1.stop ≤ b.1.start ∨ b.1.stop ≤ a.1.start :=
      rows.imp Or.inl
    have : Std.Symm fun a b : Tree × Edit => a.1.stop ≤ b.1.start ∨ b.1.stop ≤ a.1.start :=
      ⟨fun _ _ => Or.symm⟩
    exact .inr (either.forall memA memB same)

theorem nonempty {entry : Tree × Edit} (mem : entry ∈ taken) :
    entry.1.start < entry.1.stop := by
  obtain ⟨child, kind, _⟩ := mem_statements (finishing.entry_mem mem)
  exact (finishing.wf.solid_of_deletable (child_mem_nodes child) (by rw [kind]; rfl)).start_lt_stop

/-- A removal covers its statement. -/
theorem covers {entry : Tree × Edit} (mem : entry ∈ taken) :
    entry.2.start ≤ entry.1.start ∧ entry.1.stop ≤ entry.2.stop := by
  obtain ⟨child, _, _⟩ := mem_statements (finishing.entry_mem mem)
  have wide := finishing.wf.widened (child_mem_nodes child)
  rw [(finishing.spec.removals entry mem).2, finishing.disciplined.unchanged, removal_start,
    removal_stop]
  exact ⟨wide.begins, wide.ends⟩

/-- Inside a statement that is taken out the edits are those of the walk: the other removals lie
elsewhere, and its own one is hidden. -/
theorem outline_statement {last : Edit} (seq : last.seq = next.doc.recorded)
    {entry : Tree × Edit} (mem : entry ∈ taken) :
    outline source (last.without [entry.2.seq] next.doc.edits) entry.1.start entry.1.stop =
      window source rewrite.doc.edits entry.1.start entry.1.stop := by
  have walked := finishing.disciplined
  have numbered (edit : Edit) (mem : edit ∈ rewrite.doc.edits) : edit.seq < rewrite.doc.recorded :=
    walked.kept.seq_lt mem
  have whole : window source rewrite.doc.edits entry.1.start entry.1.stop =
      outline source rewrite.doc.edits entry.1.start entry.1.stop :=
    window_eq_outline walked.kept.sorted
      (fun a memA b memB => finishing.wf.nested_regions (walked.regions a memA) (walked.regions b memB))
      (fun edit mem => (walked.kept.inside edit mem).1) entry.1.start entry.1.stop
  have same : (last.without [entry.2.seq] next.doc.edits).filter
      (fun edit => edit.seq < rewrite.doc.recorded) = rewrite.doc.edits := by
    calc (last.without [entry.2.seq] next.doc.edits).filter
          (fun edit => edit.seq < rewrite.doc.recorded)
        = next.doc.edits.filter (fun edit => edit.seq < rewrite.doc.recorded) := by
          rw [Edit.without, List.filter_filter]
          apply List.filter_congr
          intro edit known
          have own := (finishing.spec.removals entry mem).1
          have below := finishing.kept.seq_lt known
          by_cases early : edit.seq < rewrite.doc.recorded
          · have : edit.seq ≠ entry.2.seq := by omega
            have : edit.seq ≠ next.doc.recorded := by omega
            simp [*]
          · simp [early]
      _ = rewrite.doc.edits.filter (fun edit => edit.seq < rewrite.doc.recorded) :=
          finishing.spec.earlier _ (Nat.le_refl _)
      _ = rewrite.doc.edits := List.filter_eq_self.mpr fun edit mem => by simpa using numbered edit mem
  rw [whole, ← same]
  refine (outline_filter ?_ ?_).symm
  · intro edit known _
    exact finishing.inward (List.mem_filter.mp known).1
  · intro edit known lies
    obtain ⟨known, other⟩ := List.mem_filter.mp known
    rcases finishing.mem_iff.mp known with known | ⟨entry', mem', rfl⟩
    · simpa using numbered edit known
    · rcases finishing.apart mem mem' with rfl | apart
      · simp at other
      · have covers := finishing.covers mem'
        have nonempty := finishing.nonempty mem
        have nonempty' := finishing.nonempty mem'
        rw [Edit.within_iff] at lies
        omega

end Finishing

end TopLevelAwait

end Rebundle
