import Rebundle.Syntax.Tree

/-!
# Sprouts

A sprout is a tree that has not been placed yet: a leaf knows the bytes of blanks before it and its
own width, and a branch knows its children. Placing adds the widths up, so in a placed tree every
child lies inside its parent and behind its elder siblings, whatever the sprout is.
-/

namespace Rebundle

inductive Sprout where
  | leaf (kind : Kind) (role : Option Role) (gap width : Nat)
  | branch (kind : Kind) (role : Option Role) (children : List Sprout)

namespace Sprout

def kind : Sprout → Kind
  | .leaf kind _ _ _ => kind
  | .branch kind _ _ => kind

/-- The sprout in another role. -/
def inRole (role : Role) : Sprout → Sprout
  | .leaf kind _ gap width => .leaf kind (some role) gap width
  | .branch kind _ children => .branch kind (some role) children

/-- The sprout as a node of another kind. -/
def ofKind (kind : Kind) : Sprout → Sprout
  | .leaf _ role gap width => .leaf kind role gap width
  | .branch _ role children => .branch kind role children

/-- Where a row of trees begins; an empty row begins at `offset`. -/
def startOf (offset : Nat) : List Tree → Nat
  | [] => offset
  | t :: _ => t.start

mutual

/-- The tree of a sprout that follows the text up to `offset`, and the offset behind it. -/
def place (offset : Nat) : Sprout → Tree × Nat
  | .leaf kind role gap width =>
      let start := offset + gap
      (.node ⟨kind, role, ⟨start, start + width⟩, false⟩ [], start + width)
  | .branch kind role children =>
      let (trees, stop) := placeAll offset children
      (.node ⟨kind, role, ⟨startOf offset trees, stop⟩, false⟩ trees, stop)

def placeAll (offset : Nat) : List Sprout → List Tree × Nat
  | [] => ([], offset)
  | sprout :: rest =>
      let (tree, behind) := place offset sprout
      let (trees, stop) := placeAll behind rest
      (tree :: trees, stop)

end

end Sprout

end Rebundle
