import Rebundle.Proofs.Document.Pieces
import Rebundle.Proofs.Rewrite.Alphabet

/-!
# Patches keep line ends unified

What the passes write is made of texts of the source, of texts of their own, of string literals and of new
names. When neither the source nor a new name has a carriage return, no edit brings one in, so the patched
code has none.
-/

namespace Rebundle

namespace Text

theorem alphabet_unified : Alphabet (· ≠ '\r') := fun _ _ other => other

end Text

/-- What is put together from unified pieces is unified. -/
theorem Piece.unified_assemble {source : Bytes} {pieces : List Piece}
    (all : ∀ piece ∈ pieces, ∀ bytes, piece.bytes source = .ok bytes → Utf8.Unified bytes) {bytes : Bytes}
    (made : Piece.assemble source pieces = .ok bytes) : Utf8.Unified bytes := by
  induction pieces generalizing bytes with
  | nil =>
      cases made
      exact fun mem => nomatch mem
  | cons piece rest ih =>
      rw [Piece.assemble] at made
      cases first : piece.bytes source with
      | error fault =>
          rw [first] at made
          cases made
      | ok front =>
          rw [first] at made
          cases second : Piece.assemble source rest with
          | error fault =>
              rw [second] at made
              cases made
          | ok back =>
              rw [second] at made
              cases made
              have here := all piece List.mem_cons_self front first
              have behind := ih (fun other mem => all other (List.mem_cons_of_mem _ mem)) second
              exact fun mem => (List.mem_append.mp mem).elim here behind

theorem Source.copied_of_mem_cut {stop cursor : Int} {edits : List Edit} {piece : Piece}
    (mem : piece ∈ Source.cut (fun _ => []) stop cursor edits) :
    ∃ first last, piece = .copied first last := by
  induction edits generalizing cursor with
  | nil => exact ⟨cursor, stop, List.mem_singleton.mp mem⟩
  | cons edit rest ih =>
      rcases List.mem_cons.mp mem with same | mem
      · exact ⟨cursor, edit.start, same⟩
      · exact ih mem

/-- A rendering has no carriage return when neither the source nor a text of an edit has one. -/
theorem Document.unified_render {doc : Document} (source : Utf8.Unified doc.source)
    (texts : ∀ edit ∈ doc.edits, ∀ t : Text, .text t ∈ edit.parts → t.Unified) {bytes : Bytes}
    (made : doc.render = .ok bytes) : Utf8.Unified bytes := by
  rw [Document.render_eq_assemble] at made
  refine Piece.unified_assemble (fun piece mem written same => ?_) made
  obtain ⟨pane, opens, copied | ⟨edit, among, t, part, rfl⟩⟩ := Pane.mem_pieces mem
  · obtain ⟨first, last, rfl⟩ := Source.copied_of_mem_cut copied
    cases same
    exact fun mem => source (List.mem_of_mem_drop (List.mem_of_mem_take mem))
  · have known := opens.edits_sublist.mem (pane.edited_sublist.mem among)
    exact (Utf8.unified_encodeEscaped same).mpr (texts edit known t part)

namespace Patcher

variable {patcher : Patcher} {config : PatchConfig} {source : Text} {path : Option Text}

theorem unified_prepare (unified : source.Unified) {prepared : Prepared}
    (read : (patcher.prepare source path).value = .ok prepared) : Utf8.Unified prepared.source := by
  obtain ⟨head, middle, body, first, second, third, bytes, _⟩ := encode_ok (prepare_ok read).1
  have one := (Utf8.unified_encodeEscaped first).mpr
    (Bootstrap.within_interpreterLine Text.alphabet_unified unified)
  have two := (Utf8.unified_encodeEscaped second).mpr
    (Text.alphabet_unified.admits patcher.bootstrap.common_snippet)
  have rest := Text.Within.sublist unified
    (List.drop_sublist (Bootstrap.interpreterLine source).length source)
  have three := (Utf8.unified_encodeEscaped third).mpr rest
  rw [bytes]
  intro mem
  rcases List.mem_append.mp mem with mem | mem
  · exact (List.mem_append.mp mem).elim one two
  · exact three mem

/-- The patch of a source without carriage returns has none, and it is written as it was rendered. -/
theorem patch_unified (known : ∀ pass ∈ patcher.passes, pass ∈ RewritePass.standard)
    (targets : ∀ entry ∈ config.renameIdentifiers, entry.2.Unified) (unified : source.Unified) {patch : Patch}
    (made : (patcher.patch config source path).value = .ok patch) :
    patch.code.Unified ∧ ∃ bytes, Utf8.encodeEscaped patch.code = .ok bytes ∧
      Utf8.decodeEscaped bytes = patch.code := by
  obtain ⟨prepared, bytes, read, rendered, code⟩ := patch_ok made
  have clear := unified_prepare unified read
  have texts (t : Tree) : (t.text prepared.source).Unified :=
    Utf8.unified_decodeEscaped.mpr fun mem => clear (List.mem_of_mem_drop (List.mem_of_mem_take mem))
  have written := within_rewrite known Text.alphabet_unified texts targets
    fun entry _ c mem => (Json.literal_plain entry.2 c mem).2
  have source : (patcher.rewrite config prepared).value.doc.source = prepared.source := source_rewrite known
  rw [code]
  exact ⟨Utf8.unified_decodeEscaped.mpr (Document.unified_render (source ▸ clear) written.texts rendered), bytes,
    Utf8.encodeEscaped_decodeEscaped bytes, rfl⟩

end Patcher

end Rebundle
