import Rebundle.Document.Edit

/-!
# Rendering

A window of the source is written from left to right: an edit that begins behind what is written and
ends inside the window is replaced by its parts, and all else is copied. A span is a window of its
own, in which the edit that holds it and the edits it hides are missing. So every span is written
with fewer edits, and rendering ends.
-/

namespace Rebundle

namespace Edit

/-- The edits that a span of an edit is written with. -/
def without (edit : Edit) (hidden : List Nat) (edits : List Edit) : List Edit :=
  edits.filter fun other => other.seq != edit.seq && !hidden.contains other.seq

theorem length_without_lt {edit : Edit} {edits : List Edit} (mem : edit ∈ edits)
    (hidden : List Nat) : (edit.without hidden edits).length < edits.length := by
  unfold without
  rw [List.length_filter_lt_length_iff_exists]
  exact ⟨edit, mem, by simp⟩

end Edit

namespace Source

mutual

/-- A window of the source with the edits applied. -/
def window (source : Bytes) (edits : List Edit) (start stop : Int) :
    Except Utf8.EncodeFault Bytes :=
  scan source edits stop start (edits.attach.dropWhile fun edit => edit.val.start < start)
termination_by (edits.length, 2, 0)

/-- The window from `cursor` on, where the edits of `queue` are still to be met. -/
def scan (source : Bytes) (edits : List Edit) (stop cursor : Int)
    (queue : List { edit // edit ∈ edits }) : Except Utf8.EncodeFault Bytes :=
  match queue with
  | [] => .ok (slice source cursor stop)
  | ⟨edit, mem⟩ :: queue =>
      if stop < edit.start then .ok (slice source cursor stop)
      else if edit.start < cursor || stop < edit.stop then scan source edits stop cursor queue
      else do
        let replaced ← expand source edits edit mem edit.parts
        let behind ← scan source edits stop edit.stop queue
        return slice source cursor edit.start ++ replaced ++ behind
termination_by (edits.length, 1, queue.length)

/-- The parts of an edit. -/
def expand (source : Bytes) (edits : List Edit) (edit : Edit) (mem : edit ∈ edits)
    (parts : List Part) : Except Utf8.EncodeFault Bytes :=
  match parts with
  | [] => .ok []
  | .text t :: parts => do
      let bytes ← Utf8.encodeEscaped t
      let behind ← expand source edits edit mem parts
      return bytes ++ behind
  | .span span :: parts => do
      let bytes ← window source (edit.without span.hidden edits) span.start span.stop
      let behind ← expand source edits edit mem parts
      return bytes ++ behind
termination_by (edits.length, 0, parts.length)
decreasing_by
  · exact Prod.Lex.right _ (Prod.Lex.right _ (by simp))
  · exact Prod.Lex.left _ _ (Edit.length_without_lt mem _)
  · exact Prod.Lex.right _ (Prod.Lex.right _ (by simp))

end

end Source

namespace Document

/-- The source with all edits applied. -/
def render (doc : Document) : Except Utf8.EncodeFault Bytes :=
  Source.window doc.source doc.edits 0 doc.source.length

end Document

end Rebundle
