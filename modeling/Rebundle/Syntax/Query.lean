import Rebundle.Syntax.Tree
import Rebundle.Text.Utf8

/-!
# Questions about nodes

The text of a node, the names that a call can be matched by, and the blanks at the front of a line.
-/

namespace Rebundle

/-- The bytes of a range. -/
def Range.slice (range : Range) (source : Bytes) : Bytes :=
  (source.drop range.start).take (range.stop - range.start)

namespace Tree

/-- The source text of a node; bytes that cannot be decoded are escaped. -/
def text (source : Bytes) (t : Tree) : Text := Utf8.decodeEscaped (t.range.slice source)

/-- `import.meta`. -/
def isImportMeta (source : Bytes) (t : Tree) : Bool :=
  match t.kind with
  | .metaProperty =>
      match t.children with
      | child :: _ => child.kind == .token "import" || child.kind == .importCallee
      | [] => false
  | .memberExpression =>
      match t.child? .object, t.child? .property with
      | some owner, some property =>
          (owner.kind == .importCallee || owner.kind == .token "import")
            && property.text source == "meta"
      | _, _ => false
  | _ => false

mutual

/-- The parts of a chain of plain member names, the last one first. -/
def path? (source : Bytes) : Tree → Option (List Text)
  | .node label children =>
      match label.kind with
      | .identifier | .this => some [text source (.node label children)]
      | .memberExpression =>
          match children.find? fun child => child.label.role == some .property with
          | some property =>
              if property.kind == .propertyIdentifier then
                (pathOfObject? source children).map (property.text source :: ·)
              else none
          | none => none
      | _ => none

/-- The path of the first of these nodes that is the object of a member. -/
def pathOfObject? (source : Bytes) : List Tree → Option (List Text)
  | [] => none
  | .node label children :: rest =>
      if label.role == some .object then path? source (.node label children)
      else pathOfObject? source rest

end

/-- The names of a chain of members with points between, when it consists of plain names. -/
def dottedName? (source : Bytes) (t : Tree) : Option Text :=
  (t.path? source).map fun parts => Text.join "." parts.reverse

/-- The names that a call can be matched by: the name that is called, or the last name of a chain of
members and then the whole chain. -/
def calleeNames (source : Bytes) (call : Tree) : List Text :=
  match call.child? .callee with
  | none => []
  | some callee =>
      match callee.kind with
      | .identifier => [callee.text source]
      | .memberExpression =>
          match callee.child? .property with
          | some property =>
              if property.kind == .propertyIdentifier then
                property.text source :: (callee.dottedName? source).toList
              else []
          | none => []
      | _ => []

end Tree

/-- Spaces and tabs. -/
def isIndent (b : UInt8) : Bool := b == 0x20 || b == 0x09

/-- Where the line begins that holds the offset. -/
def lineStart (source : Bytes) (offset : Nat) : Nat :=
  let before := source.take offset
  before.length - (before.reverse.takeWhile (· != 0x0A)).length

/-- The blanks at the front of the line that holds the offset. -/
def lineIndent (source : Bytes) (offset : Nat) : Text :=
  ((source.drop (lineStart source offset)).takeWhile isIndent).map fun b => CodePoint.ofNat b.toNat

end Rebundle
