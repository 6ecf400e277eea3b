import Rebundle.Syntax.Query

/-!
# Documents and their edits

A document is a source with the edits recorded on it. An edit replaces a range of the source by parts:
text, or spans of the source itself. Edits are kept in the order of their places, an outer range
before the ranges inside it and equal ranges in the order of recording.
-/

namespace Rebundle

namespace Source

/-- An offset counted from the start, or from the end when it is negative, moved into a source of
`length` bytes. -/
def resolve (length : Nat) (offset : Int) : Nat :=
  if 0 ≤ offset then min offset.toNat length else (length + offset).toNat

/-- The bytes between two offsets. -/
def slice (source : Bytes) (start stop : Int) : Bytes :=
  let first := resolve source.length start
  (source.drop first).take (resolve source.length stop - first)

theorem resolve_natCast {length i : Nat} (fits : i ≤ length) : resolve length (i : Int) = i := by
  simp only [resolve]
  rw [if_pos (by omega)]
  omega

end Source

/-- A range of the source that is written again, with the edits inside it except the hidden ones. -/
structure Span where
  start : Int
  stop : Int
  hidden : List Nat
deriving DecidableEq

/-- A piece of a replacement. -/
inductive Part where
  | text (t : Text)
  | span (s : Span)
deriving DecidableEq

instance : Coe Text Part := ⟨.text⟩

/-- The replacement of a range by parts; `seq` is its number in the order of recording. -/
structure Edit where
  start : Nat
  stop : Nat
  parts : List Part
  seq : Nat
  reason : Text
deriving DecidableEq

namespace Edit

/-- Whether an edit stands before another: it begins earlier, or it reaches further, or it was
recorded earlier. -/
def precedes (a b : Edit) : Bool :=
  a.start < b.start || (a.start == b.start && (b.stop < a.stop || (b.stop == a.stop && a.seq < b.seq)))

def range (edit : Edit) : Range := ⟨edit.start, edit.stop⟩

/-- The edits with one more at its place. -/
def insert (edit : Edit) : List Edit → List Edit
  | [] => [edit]
  | other :: rest => if edit.precedes other then edit :: other :: rest else other :: insert edit rest

end Edit

namespace Span

/-- The span of a node without the given edits. -/
def ofRange (range : Range) (hidden : List Edit) : Span :=
  ⟨range.start, range.stop, hidden.map (·.seq)⟩

end Span

/-- A range that lies outside the source or ends before it begins. -/
structure RangeFault where
  start : Int
  stop : Int
  length : Nat
deriving DecidableEq

def RangeFault.message (fault : RangeFault) : Text :=
  "invalid edit range " ++ Text.ofInt fault.start ++ ".." ++ Text.ofInt fault.stop ++ " for "
    ++ Text.ofNat fault.length ++ " bytes"

/-- A source with its edits in order; `recorded` edits have been made. -/
structure Document where
  source : Bytes
  edits : List Edit
  recorded : Nat

namespace Document

def ofSource (source : Bytes) : Document := ⟨source, [], 0⟩

def text (start stop : Int) (doc : Document) : Text :=
  Utf8.decodeEscaped (Source.slice doc.source start stop)

/-- Records the replacement of a range that lies inside the source. -/
def record (start stop : Nat) (parts : List Part) (reason : Text) (doc : Document) :
    Edit × Document :=
  let edit := ⟨start, stop, parts, doc.recorded, reason⟩
  (edit, { doc with edits := edit.insert doc.edits, recorded := doc.recorded + 1 })

/-- Records the replacement of a range, unless it does not lie inside the source. -/
def replace (start stop : Int) (parts : List Part) (reason : Text) (doc : Document) :
    Except RangeFault (Edit × Document) :=
  if start < 0 || stop < start || doc.source.length < stop then
    .error ⟨start, stop, doc.source.length⟩
  else .ok (doc.record start.toNat stop.toNat parts reason)

theorem replace_eq_ok {doc : Document} {start stop : Int} (parts : List Part) (reason : Text)
    (first : 0 ≤ start) (second : start ≤ stop) (third : stop ≤ doc.source.length) :
    doc.replace start stop parts reason = .ok (doc.record start.toNat stop.toNat parts reason) := by
  unfold replace
  rw [if_neg]
  simp only [Bool.or_eq_true, decide_eq_true_eq, not_or, Int.not_lt]
  exact ⟨⟨first, second⟩, third⟩

end Document

/-!
A node that stands alone on its lines is removed with them, its indentation and the line feed
included. A node that shares its line is removed with the blanks that follow it.
-/

def isLineFeed (b : UInt8) : Bool := b == 0x0A

/-- Spaces, tabs and the bytes that end lines. -/
def isLineBlank (b : UInt8) : Bool := isIndent b || b == 0x0D || isLineFeed b

namespace Source

/-- The bytes from an offset to behind the next line feed, or to the end. -/
def lineRest (source : Bytes) (offset : Nat) : Bytes :=
  let rest := source.drop offset
  let line := rest.takeWhile fun b => !isLineFeed b
  rest.take (line.length + 1)

/-- The number of spaces and tabs at an offset. An offset counted from the end stays in front of the
last byte, and one in front of the source sees nothing. -/
def blanksAt (source : Bytes) (offset : Int) : Nat :=
  let blanks := ((source.drop (resolve source.length offset)).takeWhile isIndent).length
  if 0 ≤ offset then blanks
  else if source.length + offset < 0 then 0
  else min blanks (-offset - 1).toNat

/-- The range of the lines of a node, or the node with the blanks behind it. -/
def lineExtent (source : Bytes) (start stop : Int) : Int × Int :=
  let first := lineStart source (resolve source.length start)
  let rest := if stop ≤ source.length then lineRest source (resolve source.length stop) else []
  if (slice source first start).all isIndent && rest.all isLineBlank then
    (first, resolve source.length stop + rest.length)
  else (start, stop + blanksAt source stop)

theorem lineStart_le (source : Bytes) (offset : Nat) : lineStart source offset ≤ offset := by
  simp only [lineStart, List.length_take]
  omega

theorem length_lineRest_le (source : Bytes) (offset : Nat) :
    (lineRest source offset).length ≤ source.length - offset := by
  simp only [lineRest, List.length_take, List.length_drop]
  omega

theorem blanksAt_natCast {source : Bytes} {offset : Nat} (fits : offset ≤ source.length) :
    blanksAt source offset = ((source.drop offset).takeWhile isIndent).length := by
  simp only [blanksAt, resolve_natCast fits]
  rw [if_pos (by omega)]

theorem blanksAt_le {source : Bytes} {offset : Nat} (fits : offset ≤ source.length) :
    blanksAt source offset ≤ source.length - offset := by
  rw [blanksAt_natCast fits, ← List.length_drop]
  exact ((source.drop offset).takeWhile_sublist isIndent).length_le

/-- The lines of a range of the source are a range of the source. -/
theorem lineExtent_inside {source : Bytes} {start stop : Nat} (ordered : start ≤ stop)
    (fits : stop ≤ source.length) :
    let extent := lineExtent source start stop
    0 ≤ extent.1 ∧ extent.1 ≤ extent.2 ∧ extent.2 ≤ source.length := by
  have early := lineStart_le source start
  have room := length_lineRest_le source stop
  have blanks := blanksAt_le fits
  simp only [lineExtent, resolve_natCast (Nat.le_trans ordered fits), resolve_natCast fits]
  rw [if_pos (show ((stop : Int) ≤ source.length) by omega)]
  split <;> simp only <;> omega

end Source

namespace Document

/-- Records the removal of a node, with its lines when `wholeLine` is set. -/
def remove (start stop : Int) (wholeLine : Bool) (reason : Text) (doc : Document) :
    Except RangeFault (Edit × Document) :=
  let (start, stop) := if wholeLine then Source.lineExtent doc.source start stop else (start, stop)
  doc.replace start stop [.text []] reason

end Document

end Rebundle
