import Rebundle.Config
import Rebundle.Document.Edit
import Rebundle.Scope.Analysis

/-!
# Rewriting

What the rewrite passes share while they walk through one program: the document they record edits
on, the names in use, the new names of places, and what they count, warn about and report.
-/

namespace Rebundle

namespace Names

/-- Whether an ASCII name may begin with this byte. -/
def starts (b : UInt8) : Bool :=
  (0x41 ≤ b && b ≤ 0x5A) || (0x61 ≤ b && b ≤ 0x7A) || b == 0x5F || b == 0x24

def continues (b : UInt8) : Bool := starts b || (0x30 ≤ b && b ≤ 0x39)

/-- The runs of name bytes that begin like a name; `open?` holds the run being read, newest byte
first. -/
def runsFrom : (open? : Option Bytes) → Bytes → List Bytes
  | none, [] => []
  | some run, [] => [run.reverse]
  | none, b :: rest => if starts b then runsFrom (some [b]) rest else runsFrom none rest
  | some run, b :: rest =>
      if continues b then runsFrom (some (b :: run)) rest
      else run.reverse :: runsFrom none rest

/-- Everything in a source that looks like a name, each once. -/
def collect (source : Bytes) : List Text :=
  ((runsFrom none source).map fun run => run.map fun b => CodePoint.ofNat b.toNat).eraseDups

/-- The candidates for a fresh name: the base, then the base with 2, 3 and so on. -/
def candidate (base : Text) (i : Nat) : Text :=
  if i = 0 then base else base ++ Text.ofNat (i + 1)

/-- The first candidate that is not in use; of one more candidate than names in use, one is free. -/
def fresh (hint : Text) (used : List Text) : Text :=
  let base : Text := "_" ++ hint.dropWhile (· == ('_' : CodePoint))
  let candidates := (List.range (used.length + 1)).map (candidate base)
  (candidates.find? fun name => !used.contains name).getD base

end Names

/-- The state of the rewriting of one program. -/
structure Rewrite where
  doc : Document
  config : PatchConfig
  skipBefore : Nat
  scopes : ScopeTable
  renames : Table Range Text
  stats : Table Text Nat
  warnings : List Text
  usedNames : List Text
  log : Log

namespace Rewrite

def source (rewrite : Rewrite) : Bytes := rewrite.doc.source

/-- The text of a node. -/
def text (t : Tree) (rewrite : Rewrite) : Text := t.text rewrite.source

def count (key : Text) (amount : Nat) (rewrite : Rewrite) : Rewrite :=
  { rewrite with stats := rewrite.stats.put key ((rewrite.stats.get? key).getD 0 + amount) }

def write (record : Log.Record) (rewrite : Rewrite) : Rewrite :=
  { rewrite with log := rewrite.log ++ [record] }

/-- Warns in the result and in the log. -/
def warn (message : Text) (rewrite : Rewrite) : Rewrite :=
  { rewrite.write (Log.warning message) with warnings := rewrite.warnings ++ [message] }

/-- The name that a place will carry. -/
def localName (t : Tree) (rewrite : Rewrite) : Text :=
  (rewrite.renames.get? t.range).getD (rewrite.text t)

/-- A name that nothing uses, which is in use from now on. -/
def freshName (hint : Text) (rewrite : Rewrite) : Text × Rewrite :=
  let name := Names.fresh hint rewrite.usedNames
  (name, { rewrite with usedNames := name :: rewrite.usedNames })

/-- Replaces a range of the source. -/
def replace (range : Range) (parts : List Part) (reason : Text) (rewrite : Rewrite) : Rewrite :=
  { rewrite with doc := (rewrite.doc.record range.start range.stop parts reason).2 }

/-- Removes a node with its lines, or with the blanks behind it. -/
def remove (range : Range) (reason : Text) (rewrite : Rewrite) : Edit × Rewrite :=
  let (start, stop) := Source.lineExtent rewrite.source range.start range.stop
  let (edit, doc) := rewrite.doc.record start.toNat stop.toNat [.text []] reason
  (edit, { rewrite with doc })

/-- A range of the source is replaced as the document replaces it, which refuses no such range. -/
theorem replace_inside (rewrite : Rewrite) {range : Range} (ordered : range.start ≤ range.stop)
    (fits : range.stop ≤ rewrite.source.length) (parts : List Part) (reason : Text) :
    (rewrite.doc.replace range.start range.stop parts reason).map (·.2) =
      .ok (rewrite.replace range parts reason).doc := by
  rw [Document.replace_eq_ok parts reason (by omega) (by omega) (Int.ofNat_le.mpr fits)]
  rfl

/-- A node of the source is removed as the document removes it with its lines. -/
theorem remove_inside (rewrite : Rewrite) {range : Range} (ordered : range.start ≤ range.stop)
    (fits : range.stop ≤ rewrite.source.length) (reason : Text) :
    rewrite.doc.remove range.start range.stop true reason =
      .ok ((rewrite.remove range reason).1, (rewrite.remove range reason).2.doc) := by
  obtain ⟨first, second, third⟩ := Source.lineExtent_inside ordered fits
  rw [Document.remove, remove]
  simp only [if_true]
  exact Document.replace_eq_ok [.text []] reason first second third

end Rewrite

namespace Kind

/-- Kinds whose children are statements that may be deleted. -/
def listsStatements : Kind → Bool
  | .program | .statementBlock | .switchCase | .switchDefault | .classStaticBlock => true
  | _ => false

end Kind

namespace Rewrite

/-- Deletes a statement below these ancestors, together with the export around it. Where a statement
is required an empty one takes its place. -/
def removeStatement (range : Range) (ancestors : List Label) (reason : Text) (rewrite : Rewrite) :
    Rewrite :=
  let (range, owner) :=
    match ancestors with
    | parent :: rest =>
        if parent.kind == Kind.exportStatement then (parent.range, rest.head?) else (range, some parent)
    | [] => (range, none)
  match owner with
  | some label =>
      if label.kind.listsStatements then (rewrite.remove range reason).2
      else rewrite.replace range [.text ";"] reason
  | none => (rewrite.remove range reason).2

end Rewrite

/-- One concern of the rewriting, offered the nodes of its kinds during the walk. A visit that gives
`false` ends the visits of the node and leaves its children out. -/
structure RewritePass where
  name : Text
  applies : PatchConfig → Bool
  concerns : Kind → Bool
  prepare : Rewrite → Rewrite
  visit : Cursor → Rewrite → Bool × Rewrite
  finish : Tree → Rewrite → Rewrite

end Rebundle
