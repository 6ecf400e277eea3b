import Rebundle.Proofs.Syntax.Descent
import Rebundle.Scope.Analysis

/-!
# Scopes and names of a program

Which nodes of a program open a scope, which names a node declares and where, and which names are
references, told from the tree alone: there is no walk here, and nothing depends on what stands first,
but that at every place the first declaration counts.
-/

namespace Rebundle

/-- Where a node declares a name: in the scope around it, in its own one, in the one of the function or
the program around it, or in the one of the program. -/
inductive Holder where
  | around | itself | function | program
deriving DecidableEq

/-- A name that a node declares. -/
structure Naming where
  holder : Holder
  name : Tree

namespace Tree

/-- A declaration names itself around it, a method nowhere, and a function value in itself. The parameters
belong to the function. -/
def functionNamings (t : Tree) : List Naming :=
  let name := (t.child? .name).toList
  let parameters :=
    (t.child? .parameter).toList ++ ((t.child? .parameters).map Tree.parts).getD []
  let around := if t.kind.isFunctionDeclaration then name else []
  let inside := if t.kind.isFunctionDeclaration || t.kind == .methodDefinition then [] else name
  around.map (⟨.around, ·⟩) ++ (inside.map (⟨.itself, ·⟩) ++
    (parameters.flatMap boundNames).map (⟨.itself, ·⟩))

/-- What the head of a block binds belongs to the block, but `var` goes to the function. -/
def blockNamings (t : Tree) : List Naming :=
  match t.kind with
  | .catchClause => ((t.child? .parameter).toList.flatMap boundNames).map (⟨.itself, ·⟩)
  | .forInStatement =>
      match t.child? .kind with
      | none => []
      | some keyword =>
          let holder := if BindingKind.ofKeyword keyword.kind = .var then .function else .itself
          ((t.child? .left).toList.flatMap boundNames).map (⟨holder, ·⟩)
  | _ => []

def declarationNamings (t : Tree) : List Naming :=
  let holder := if t.kind == .variableDeclaration then .function else .around
  let names := (t.parts.filter (·.kind == .variableDeclarator)).filterMap (·.child? .name)
  (names.flatMap boundNames).map (⟨holder, ·⟩)

/-- The name that an import specifier binds. -/
def specifierNames (spec : Tree) : List Tree :=
  match spec.child? .alias, spec.child? .name with
  | some own, _ => [own]
  | none, some name => if name.kind == .identifier then [name] else []
  | none, none => []

/-- The names that one part of an import clause binds. -/
def importedNames (t : Tree) : List Tree :=
  match t.kind with
  | .identifier => [t]
  | .namespaceImport => t.parts.filter (·.kind == .identifier)
  | .namedImports => (t.parts.filter (·.kind == .importSpecifier)).flatMap specifierNames
  | _ => []

/-- The parts of the clauses of an import. -/
def importedParts (t : Tree) : List Tree := (t.parts.filter (·.kind == .importClause)).flatMap Tree.parts

/-- A class names itself like a function, and an import declares for the whole program. -/
def otherNamings (t : Tree) : List Naming :=
  match t.kind with
  | .classDeclaration => (t.child? .name).toList.map (⟨.around, ·⟩)
  | .classExpression => (t.child? .name).toList.map (⟨.itself, ·⟩)
  | .importStatement => (t.importedParts.flatMap importedNames).map (⟨.program, ·⟩)
  | _ => []

/-- All names that a node declares. -/
def namings (t : Tree) : List Naming :=
  if t.kind.opensFunction then t.functionNamings
  else if t.kind.opensBlock then t.blockNamings
  else if t.kind.isVariableDeclaration then t.declarationNamings
  else t.otherNamings

/-- The block that is the body of a function. -/
def functionBody? (t : Tree) : Option Tree :=
  match t.child? .body with
  | some body => if t.kind.opensFunction && body.kind == .statementBlock then some body else none
  | none => none

/-- The names that importing gives another name, in one part of a clause. -/
def renamedImports (t : Tree) : List Tree :=
  match t.kind with
  | .namedImports => (t.parts.filter (·.kind == .importSpecifier)).flatMap fun spec =>
      if (spec.child? .alias).isSome then (spec.child? .name).toList else []
  | _ => []

end Tree

namespace Cursor

/-- Whether a block is the body of the function around it, which opens the scope for both. -/
def isBody (c : Cursor) : Bool :=
  (c.parent?.bind fun function => function.focus.functionBody?).any fun body => body.range == c.range

/-- The kind of the scope that a node opens, if it opens one. -/
def opens? (c : Cursor) : Option ScopeKind :=
  if c.kind.opensFunction then some .function
  else if c.kind.opensBlock then if c.isBody then none else some .block
  else if c.kind == .classExpression then (c.child? .name).map fun _ => .classBody
  else none

/-- The names below a node that belong to other modules. -/
def foreign (c : Cursor) : List Tree :=
  match c.kind with
  | .importStatement => c.focus.importedParts.flatMap Tree.renamedImports
  | .exportSpecifier =>
      (c.child? .alias).toList ++
        if ((c.parent?.bind parent?).bind (·.child? .source)).isSome then (c.child? .name).toList else []
  | .namespaceExport => c.focus.parts
  | _ => []

def opens (c : Cursor) : Bool := c.opens?.isSome

end Cursor

/-- The declarations that count: the first one at every place, where nothing is `declared` yet. -/
def firsts (declared : List Range) : List (Nat × Tree) → List (Nat × Tree)
  | [] => []
  | entry :: rest =>
      if entry.2.range ∈ declared then firsts declared rest
      else entry :: firsts (entry.2.range :: declared) rest

namespace Sites

open Cursor

/-- Whether a node is left out with all below it. -/
def skips (skipBefore : Nat) (t : Tree) : Bool := t.stop ≤ skipBefore && t.kind != .program

/-- The places of a program that are analysed: those of the nodes that end behind `skipBefore`. -/
def ofTree (skipBefore : Nat) (root : Tree) : List Cursor := entered (skips skipBefore) [] root

section

variable (sites : List Cursor)

/-- The number of the scope that a node opens. The scope of the program is number zero, and the others
follow in the order of their nodes. -/
def number (c : Cursor) : Nat := ((sites.filter opens).map address).idxOf c.address + 1

/-- The scopes around a node, the innermost first. -/
def around (c : Cursor) : List Nat := (c.above.filter opens).map (number sites) ++ [0]

/-- The innermost scope around a node. -/
def scopeAround (c : Cursor) : Nat := (around sites c).headD 0

/-- The scopes that are opened by a node itself and above it, the innermost first. -/
def seenFrom (c : Cursor) : List Nat := ((c :: c.above).filter opens).map (number sites) ++ [0]

/-- The scope of the innermost function around a node, or of the program. -/
def functionAround (c : Cursor) : Nat :=
  ((c.above.filter fun d => d.opens? = some .function).map (number sites)).headD 0

/-- The scope in which a node declares. -/
def holder (c : Cursor) : Holder → Nat
  | .around => scopeAround sites c
  | .itself => number sites c
  | .function => functionAround sites c
  | .program => 0

/-- What a node declares, with the scopes. -/
def declaredBy (c : Cursor) : List (Nat × Tree) :=
  c.focus.namings.map fun naming => (holder sites c naming.holder, naming.name)

def declarations (row : List Cursor) : List (Nat × Tree) := row.flatMap (declaredBy sites)

/-- Whether a scope declares a name, wherever the declaration stands. -/
def declares (source : Bytes) (i : Nat) (name : Text) : Bool :=
  (firsts [] (declarations sites sites)).any fun entry => entry.1 == i && entry.2.text source == name

/-- Whether a node is a name at which the nodes `before` it declare nothing, and that belongs to no other
module. -/
def isReference (before : List Cursor) (c : Cursor) : Bool :=
  let known := (declarations sites before).map (·.2.range) ++ (before.flatMap foreign).map Tree.range
  c.kind.isName && c.kind != .typeIdentifier && !known.contains c.range

def referencesFrom (before : List Cursor) : List Cursor → List Cursor
  | [] => []
  | c :: rest =>
      if isReference sites before c then c :: referencesFrom (before ++ [c]) rest
      else referencesFrom (before ++ [c]) rest

/-- The references of a program. -/
def references : List Cursor := referencesFrom sites [] sites

/-- The binding of a reference: its name in the innermost scope that declares it, of those that the
reference and the nodes above it open. -/
def seen (source : Bytes) (c : Cursor) : Option BindingRef :=
  let name := c.focus.text source
  ((seenFrom sites c).find? fun i => declares sites source i name).map (⟨·, name⟩)

end

end Sites

end Rebundle
