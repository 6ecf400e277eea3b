import Rebundle.Proofs.Document.Recording

/-!
# Pieces

A rendering is a row of pieces: bytes copied from the source, and texts of edits. Every piece is written
in some pane, a range of the source with the edits at hand for it: the whole document, or a span of an
edit that a pane writes. The pieces of a pane stand together in the rendering.
-/

namespace Rebundle

/-- A range of the source and the edits to write it with. -/
structure Pane where
  edits : List Edit
  start : Int
  stop : Int

/-- A part of what is rendered. -/
inductive Piece where
  | copied (start stop : Int)
  | text (edit : Edit) (t : Text)

namespace Piece

def bytes (source : Bytes) : Piece → Except Utf8.EncodeFault Bytes
  | .copied start stop => .ok (Source.slice source start stop)
  | .text _ t => Utf8.encodeEscaped t

/-- The bytes of a row of pieces. -/
def assemble (source : Bytes) : List Piece → Except Utf8.EncodeFault Bytes
  | [] => .ok []
  | piece :: rest => do
      let first ← piece.bytes source
      let behind ← assemble source rest
      return first ++ behind

theorem assemble_append (source : Bytes) (front back : List Piece) :
    assemble source (front ++ back) = (do
      let first ← assemble source front
      let second ← assemble source back
      return first ++ second) := by
  induction front with
  | nil =>
      cases h : assemble source back <;>
        simp [assemble, h, Bind.bind, Except.bind, Pure.pure, Except.pure]
  | cons piece rest ih =>
      simp only [List.cons_append, assemble, ih, Bind.bind, Except.bind]
      cases piece.bytes source with
      | error fault => rfl
      | ok bytes =>
          cases assemble source rest with
          | error fault => rfl
          | ok behind => cases assemble source back <;> simp [Pure.pure, Except.pure]

end Piece

namespace Edit

/-- The pieces of an edit, when `inner` gives those of its spans. -/
def pieces (inner : Span → List Piece) (edit : Edit) : List Piece :=
  edit.parts.flatMap fun part =>
    match part with
    | .text t => [.text edit t]
    | .span span => inner span

theorem mem_pieces {inner : Span → List Piece} {edit : Edit} {piece : Piece} :
    piece ∈ edit.pieces inner ↔
      (∃ t, .text t ∈ edit.parts ∧ piece = .text edit t) ∨
        ∃ span, .span span ∈ edit.parts ∧ piece ∈ inner span := by
  simp only [pieces, List.mem_flatMap]
  constructor
  · rintro ⟨part, mem, among⟩
    cases part with
    | text t => exact .inl ⟨t, mem, by simpa using among⟩
    | span span => exact .inr ⟨span, mem, among⟩
  · rintro (⟨t, mem, rfl⟩ | ⟨span, mem, among⟩)
    · exact ⟨_, mem, List.mem_singleton.mpr rfl⟩
    · exact ⟨_, mem, among⟩

/-- Writing the parts of an edit is putting its pieces together. -/
theorem assemble_pieces {source : Bytes} {render : Span → Except Utf8.EncodeFault Bytes}
    {inner : Span → List Piece} (edit : Edit)
    (same : ∀ span, .span span ∈ edit.parts → render span = Piece.assemble source (inner span)) :
    Source.written render edit.parts = Piece.assemble source (edit.pieces inner) := by
  unfold pieces
  generalize edit.parts = parts at same
  induction parts with
  | nil => rfl
  | cons part rest ih =>
      have later := ih fun span mem => same span (List.mem_cons_of_mem _ mem)
      rw [List.flatMap_cons, Piece.assemble_append, ← later]
      cases part with
      | text t =>
          simp only [Source.written, Piece.assemble, Piece.bytes, Bind.bind, Except.bind]
          cases Utf8.encodeEscaped t with
          | error fault => rfl
          | ok bytes => cases Source.written render rest <;> simp [Pure.pure, Except.pure]
      | span span =>
          simp only [Source.written]
          rw [same span List.mem_cons_self]

end Edit

namespace Source

/-- The source from `cursor` to `stop`, cut at these edits. -/
def cut (inner : Edit → List Piece) (stop cursor : Int) : List Edit → List Piece
  | [] => [.copied cursor stop]
  | edit :: rest => .copied cursor edit.start :: (inner edit ++ cut inner stop edit.stop rest)

variable {inner : Edit → List Piece} {stop cursor : Int} {edits : List Edit}

theorem mem_cut {piece : Piece} (mem : piece ∈ cut inner stop cursor edits) :
    (∃ edit ∈ edits, piece ∈ inner edit) ∨ piece ∈ cut (fun _ => []) stop cursor edits := by
  induction edits generalizing cursor with
  | nil => exact .inr mem
  | cons edit rest ih =>
      simp only [cut, List.mem_cons, List.mem_append, List.nil_append] at mem ⊢
      rcases mem with here | inside | later
      · exact .inr (.inl here)
      · exact .inl ⟨edit, .inl rfl, inside⟩
      · rcases ih later with ⟨other, known, inside⟩ | copied
        · exact .inl ⟨other, .inr known, inside⟩
        · exact .inr (.inr copied)

/-- What is put for an edit stands between what is copied up to the edit and from the edit on. -/
theorem cut_between {edit : Edit} (mem : edit ∈ edits) :
    ∃ front back, .copied front edit.start :: (inner edit ++ [.copied edit.stop back]) <:+:
      cut inner stop cursor edits := by
  induction edits generalizing cursor with
  | nil => cases mem
  | cons first rest ih =>
      rw [cut]
      rcases List.mem_cons.mp mem with rfl | later
      · obtain ⟨back, behind, row⟩ : ∃ back behind, cut inner stop edit.stop rest =
            .copied edit.stop back :: behind := by
          cases rest with
          | nil => exact ⟨stop, [], rfl⟩
          | cons next rest => exact ⟨next.start, _, rfl⟩
        refine ⟨cursor, back, [], behind, ?_⟩
        rw [row]
        simp
      · obtain ⟨front, back, inside⟩ := @ih first.stop later
        exact ⟨front, back, (inside.trans (List.suffix_append _ _).isInfix).trans
          (List.suffix_cons _ _).isInfix⟩

theorem inner_stands {edit : Edit} (mem : edit ∈ edits) : inner edit <:+: cut inner stop cursor edits := by
  obtain ⟨front, back, inside⟩ := @cut_between inner stop cursor edits edit mem
  have between : inner edit <:+: .copied front edit.start :: (inner edit ++ [.copied edit.stop back]) :=
    ⟨[.copied front edit.start], [.copied edit.stop back], rfl⟩
  exact between.trans inside

theorem assemble_cut {source : Bytes} {replaced : Edit → Except Utf8.EncodeFault Bytes}
    (same : ∀ edit ∈ edits, replaced edit = Piece.assemble source (inner edit)) :
    splice source replaced stop cursor edits = Piece.assemble source (cut inner stop cursor edits) := by
  induction edits generalizing cursor with
  | nil => simp [splice, cut, Piece.assemble, Piece.bytes, Bind.bind, Except.bind, Pure.pure, Except.pure]
  | cons edit rest ih =>
      have later := @ih edit.stop fun other mem => same other (List.mem_cons_of_mem _ mem)
      rw [splice, later, same edit List.mem_cons_self, cut, Piece.assemble, Piece.assemble_append]
      simp only [Piece.bytes, Bind.bind, Except.bind]
      cases Piece.assemble source (inner edit) with
      | error fault => rfl
      | ok bytes =>
          cases Piece.assemble source (cut inner stop edit.stop rest) <;> simp [Pure.pure, Except.pure]

end Source

namespace Pane

/-- The edits that a pane writes. -/
def edited (pane : Pane) : List Edit :=
  Source.chosen pane.stop pane.start (Source.fromOffset pane.start pane.edits)

theorem edited_sublist (pane : Pane) : pane.edited.Sublist pane.edits :=
  (Source.chosen_sublist _ _ _).trans (Source.fromOffset_sublist _ _)

/-- The pane of a span of an edit. -/
def under (pane : Pane) (edit : Edit) (span : Span) : Pane :=
  ⟨edit.without span.hidden pane.edits, span.start, span.stop⟩

/-- The pieces that a pane is written in. -/
def pieces (pane : Pane) : List Piece :=
  Source.cut
    (fun edit =>
      if _mem : edit ∈ pane.edits then edit.pieces fun span => pieces (pane.under edit span) else [])
    pane.stop pane.start pane.edited
termination_by pane.edits.length
decreasing_by exact Edit.length_without_lt _mem _

/-- The pieces that stand for an edit. -/
def replaced (pane : Pane) (edit : Edit) : List Piece :=
  edit.pieces fun span => (pane.under edit span).pieces

theorem cut_congr {f g : Edit → List Piece} {stop cursor : Int} {edits : List Edit}
    (same : ∀ edit ∈ edits, f edit = g edit) :
    Source.cut f stop cursor edits = Source.cut g stop cursor edits := by
  induction edits generalizing cursor with
  | nil => rfl
  | cons edit rest ih =>
      rw [Source.cut, Source.cut, same edit List.mem_cons_self,
        ih fun other mem => same other (List.mem_cons_of_mem _ mem)]

theorem pieces_eq (pane : Pane) :
    pane.pieces = Source.cut pane.replaced pane.stop pane.start pane.edited := by
  rw [pieces]
  apply cut_congr
  intro edit mem
  rw [dif_pos (pane.edited_sublist.mem mem), replaced]

/-- Writing a window of the source is putting its pieces together. -/
theorem window_eq_assemble (source : Bytes) (pane : Pane) :
    Source.window source pane.edits pane.start pane.stop = Piece.assemble source pane.pieces := by
  generalize size : pane.edits.length = n
  induction n using Nat.strongRecOn generalizing pane with
  | _ n ih =>
      rw [Source.window_eq, pieces_eq]
      apply Source.assemble_cut
      intro edit mem
      have known := pane.edited_sublist.mem mem
      apply Edit.assemble_pieces
      intro span _
      exact ih _ (by rw [← size]; exact Edit.length_without_lt known _) (pane.under edit span) rfl

/-- The panes that writing a pane opens: the pane itself, and those of the spans that it writes. -/
inductive Opens (top : Pane) : Pane → Prop where
  | here : Opens top top
  | span {pane : Pane} {edit : Edit} {span : Span} (opened : Opens top pane)
      (written : edit ∈ pane.edited) (part : .span span ∈ edit.parts) :
      Opens top (pane.under edit span)

namespace Opens

variable {top pane other : Pane}

theorem trans (first : top.Opens pane) (second : pane.Opens other) : top.Opens other := by
  induction second with
  | here => exact first
  | span _ written part ih => exact .span ih written part

theorem edits_sublist (opened : top.Opens pane) : pane.edits.Sublist top.edits := by
  induction opened with
  | here => exact List.Sublist.refl _
  | span _ _ _ ih => exact (Edit.without_sublist _ _ _).trans ih

/-- What a pane that is opened is written in stands together. -/
theorem pieces_stand (opened : top.Opens pane) : pane.pieces <:+: top.pieces := by
  induction opened with
  | here => exact List.infix_refl _
  | @span pane edit span _ written part ih =>
      refine List.IsInfix.trans ?_ ih
      rw [pane.pieces_eq]
      refine List.IsInfix.trans ?_ (Source.inner_stands written)
      obtain ⟨front, back, row⟩ := List.append_of_mem part
      rw [replaced, Edit.pieces, row, List.flatMap_append, List.flatMap_cons]
      exact ⟨_, _, by simp [List.append_assoc]; rfl⟩

end Opens

/-- An edit that a pane writes stands in place of what it covers. -/
theorem replaced_between {pane : Pane} {edit : Edit} (written : edit ∈ pane.edited) :
    ∃ front back, .copied front edit.start :: (pane.replaced edit ++ [.copied edit.stop back]) <:+:
      pane.pieces := by
  rw [pane.pieces_eq]
  exact Source.cut_between written

/-- Every piece is written in some pane: copied between the edits there, or as a text of one of them. -/
theorem mem_pieces {top : Pane} {piece : Piece} (mem : piece ∈ top.pieces) :
    ∃ pane, top.Opens pane ∧
      (piece ∈ Source.cut (fun _ => []) pane.stop pane.start pane.edited ∨
        ∃ edit ∈ pane.edited, ∃ t, .text t ∈ edit.parts ∧ piece = .text edit t) := by
  generalize size : top.edits.length = n
  induction n using Nat.strongRecOn generalizing top with
  | _ n ih =>
      rw [pieces_eq] at mem
      rcases Source.mem_cut mem with ⟨edit, written, inside⟩ | copied
      · rcases Edit.mem_pieces.mp inside with ⟨t, part, rfl⟩ | ⟨span, part, inside⟩
        · exact ⟨top, .here, .inr ⟨edit, written, t, part, rfl⟩⟩
        · have smaller := Edit.length_without_lt (top.edited_sublist.mem written) span.hidden
          obtain ⟨pane, opened, found⟩ :=
            @ih _ (by rw [← size]; exact smaller) (top.under edit span) inside rfl
          exact ⟨pane, (Opens.span .here written part).trans opened, found⟩
      · exact ⟨top, .here, .inl copied⟩

end Pane

namespace Document

def pane (doc : Document) : Pane := ⟨doc.edits, 0, doc.source.length⟩

/-- A document is rendered in the pieces of its pane. -/
theorem render_eq_assemble (doc : Document) : doc.render = Piece.assemble doc.source doc.pane.pieces :=
  Pane.window_eq_assemble doc.source doc.pane

end Document

end Rebundle
