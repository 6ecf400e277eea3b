import Rebundle.Syntax.Kind

/-!
# Syntax trees

A node has a kind, the range of bytes it covers, the role it plays in its parent, and its children in
source order. A node may be missing: the reader put it where the source lacks something, so it covers
nothing.
-/

namespace Rebundle

/-- The role of a node in its parent. -/
inductive Role where
  | name | alias | source | kind | left | value | pattern | parameter | parameters | body
  | object | property | callee
deriving DecidableEq

/-- A range of bytes, from its first byte to behind its last. -/
structure Range where
  start : Nat
  stop : Nat
deriving DecidableEq

/-- What a node is, apart from its children. -/
structure Label where
  kind : Kind
  role : Option Role
  range : Range
  missing : Bool
deriving DecidableEq

inductive Tree where
  | node (label : Label) (children : List Tree)

namespace Tree

def label : Tree → Label
  | .node label _ => label

def children : Tree → List Tree
  | .node _ children => children

def kind (t : Tree) : Kind := t.label.kind

def range (t : Tree) : Range := t.label.range

def start (t : Tree) : Nat := t.range.start

def stop (t : Tree) : Nat := t.range.stop

def isMissing (t : Tree) : Bool := t.label.missing

def isNamed (t : Tree) : Bool := t.kind.isNamed

/-- The first child that plays a role. -/
def child? (role : Role) (t : Tree) : Option Tree :=
  t.children.find? fun child => child.label.role == some role

/-- The children that are constructs of the language, without comments. -/
def parts (t : Tree) : List Tree :=
  t.children.filter fun child => child.isNamed && child.kind != .comment

def firstPart? (t : Tree) : Option Tree := t.parts.head?

/-- Whether a keyword or punctuation is among the children. -/
def hasToken (text : String) (t : Tree) : Bool :=
  t.children.any fun child => child.kind == .token text

mutual

/-- The number of nodes. -/
def size : Tree → Nat
  | .node _ children => sizeAll children + 1

def sizeAll : List Tree → Nat
  | [] => 0
  | t :: rest => t.size + sizeAll rest

end

mutual

/-- Whether the node or one below it is an error or missing. -/
def hasError : Tree → Bool
  | .node label children => label.kind == .error || label.missing || anyError children

def anyError : List Tree → Bool
  | [] => false
  | t :: rest => t.hasError || anyError rest

end

mutual

/-- The nodes in the order in which a reader meets them, a node before its children. -/
def nodes : Tree → List Tree
  | .node label children => .node label children :: nodesAll children

def nodesAll : List Tree → List Tree
  | [] => []
  | t :: rest => t.nodes ++ nodesAll rest

end

theorem size_pos (t : Tree) : 0 < t.size := by
  cases t
  simp [size]

end Tree

end Rebundle
