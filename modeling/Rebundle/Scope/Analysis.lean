import Rebundle.Log
import Rebundle.Scope.Basic
import Rebundle.Syntax.Cursor
import Rebundle.Syntax.Query

/-!
# Scope analysis

One walk opens the scopes, declares names and collects references; the references are resolved when
all names are known, so a declaration may stand behind its uses. `var` declarations and parameters
belong to the function, other declarations to the block, imports to the program. References that
resolve to no binding are left free.

A pattern binds the names at which it takes a value apart, in source order: not its keys, and not
the names inside its defaults.
-/

namespace Rebundle

namespace Tree

mutual

/-- The nodes of the names that a pattern binds. -/
def boundNames : Tree → List Tree
  | .node label children =>
      match label.kind with
      | .identifier | .shorthandPropertyIdentifierPattern => [.node label children]
      | .objectPattern => boundInEntries children
      | .arrayPattern | .restPattern => boundInParts children
      | .assignmentPattern | .objectAssignmentPattern => boundInRole .left children
      | .requiredParameter | .optionalParameter => boundInRole .pattern children
      | _ => []

/-- The names bound by all of these nodes that are parts of a pattern. -/
def boundInParts : List Tree → List Tree
  | [] => []
  | t :: rest =>
      (if t.isNamed && t.kind != .comment then boundNames t else []) ++ boundInParts rest

/-- The names bound by the entries of an object pattern: behind a key stands a pattern of its own. -/
def boundInEntries : List Tree → List Tree
  | [] => []
  | .node label children :: rest =>
      (match label.kind with
        | .pairPattern => boundInRole .value children
        | _ => boundNames (.node label children)) ++ boundInEntries rest

/-- The names bound by the first of these nodes that plays a role. -/
def boundInRole (role : Role) : List Tree → List Tree
  | [] => []
  | t :: rest => if t.label.role = some role then boundNames t else boundInRole role rest

end

end Tree

namespace Kind

/-- Kinds that open a function scope: the functions of all forms, and the keyword itself. -/
def opensFunction : Kind → Bool
  | .functionDeclaration | .generatorFunctionDeclaration | .functionExpression | .generatorFunction
  | .arrowFunction | .methodDefinition => true
  | k => k == .token "function"

def isFunctionDeclaration : Kind → Bool
  | .functionDeclaration | .generatorFunctionDeclaration => true
  | _ => false

/-- Kinds that open a block scope. -/
def opensBlock : Kind → Bool
  | .statementBlock | .forStatement | .forInStatement | .switchBody | .catchClause
  | .classStaticBlock => true
  | _ => false

def isVariableDeclaration : Kind → Bool
  | .variableDeclaration | .lexicalDeclaration => true
  | _ => false

/-- Kinds of the leaves that may name a binding. -/
def isName : Kind → Bool
  | .identifier | .typeIdentifier | .shorthandPropertyIdentifier
  | .shorthandPropertyIdentifierPattern => true
  | _ => false

end Kind

/-- A scope that is open, with the node that opened it. -/
structure OpenScope where
  range : Range
  kind : Kind
  scope : Nat
deriving DecidableEq

/-- A reference, with the scope in which it stands. -/
structure PendingReference where
  name : Text
  place : Range
  scope : Nat

/-- What a scope analysis knows on its way. The open scopes stand innermost first; names at ignored
places are no references, and blocks that are function bodies open no scope. -/
structure ScopeWalk where
  scopes : List Scope
  opened : List OpenScope
  declared : List Range
  ignored : List Range
  bodies : List Range
  pending : List PendingReference
  byPlace : Table Range BindingRef

namespace ScopeWalk

/-- Nothing is known; the program scope is not yet opened. -/
def start : ScopeWalk := ⟨[], [], [], [], [], [], []⟩

/-- The number of the innermost open scope. -/
def current (walk : ScopeWalk) : Nat :=
  match walk.opened with
  | innermost :: _ => innermost.scope
  | [] => 0

/-- Opens a scope at a node. -/
def openScope (kind : ScopeKind) (t : Tree) (walk : ScopeWalk) : ScopeWalk :=
  let parent := walk.opened.head?.map (·.scope)
  { walk with
    scopes := walk.scopes ++ [⟨kind, t.range, parent, []⟩]
    opened := ⟨t.range, t.kind, walk.scopes.length⟩ :: walk.opened }

/-- Closes the innermost scope when this node opened it; the program scope stays open. -/
def leave (t : Tree) (walk : ScopeWalk) : ScopeWalk :=
  match walk.opened with
  | innermost :: outer :: rest =>
      if innermost.range = t.range ∧ innermost.kind = t.kind then
        { walk with opened := outer :: rest }
      else walk
  | _ => walk

/-- Declares the name at a node in a scope, unless the place declares something already. -/
def declare (source : Bytes) (scope : Nat) (kind : BindingKind) (t : Tree) (walk : ScopeWalk) :
    ScopeWalk :=
  if walk.declared.contains t.range then walk
  else
    let name := t.text source
    { walk with
      scopes := walk.scopes.modify scope (·.declare name kind t.range)
      declared := t.range :: walk.declared
      byPlace := walk.byPlace.put t.range ⟨scope, name⟩ }

/-- Declares every name that a pattern binds. -/
def declarePattern (source : Bytes) (scope : Nat) (kind : BindingKind) (pattern : Tree)
    (walk : ScopeWalk) : ScopeWalk :=
  pattern.boundNames.foldl (fun walk name => walk.declare source scope kind name) walk

def declarePatterns (source : Bytes) (scope : Nat) (kind : BindingKind) (patterns : List Tree)
    (walk : ScopeWalk) : ScopeWalk :=
  patterns.foldl (fun walk pattern => walk.declarePattern source scope kind pattern) walk

def ignore (nodes : List Tree) (walk : ScopeWalk) : ScopeWalk :=
  { walk with ignored := (nodes.map Tree.range).reverse ++ walk.ignored }

/-- Declares the name of a function where it is seen, opens the scope of the function and declares its
parameters there. -/
def enterFunction (source : Bytes) (t : Tree) (walk : ScopeWalk) : ScopeWalk :=
  let name := (t.child? .name).toList
  let around := if t.kind.isFunctionDeclaration then name else []
  let inside := if t.kind.isFunctionDeclaration || t.kind == .methodDefinition then [] else name
  let parameters :=
    (t.child? .parameter).toList ++ ((t.child? .parameters).map Tree.parts).getD []
  let walk := around.foldl (fun walk n => walk.declare source walk.current .function n) walk
  let walk := walk.openScope .function t
  let walk := inside.foldl (fun walk n => walk.declare source walk.current .function n) walk
  let walk := walk.declarePatterns source walk.current .param parameters
  match t.child? .body with
  | some body =>
      if body.kind == .statementBlock then { walk with bodies := body.range :: walk.bodies } else walk
  | none => walk

/-- Opens the scope of a block and declares what its head binds. -/
def enterBlock (source : Bytes) (t : Tree) (walk : ScopeWalk) : ScopeWalk :=
  if walk.bodies.contains t.range then walk
  else
    let walk := walk.openScope .block t
    match t.kind with
    | .catchClause =>
        walk.declarePatterns source walk.current .catchName (t.child? .parameter).toList
    | .forInStatement =>
        match t.child? .kind with
        | none => walk
        | some keyword =>
            let kind := BindingKind.ofKeyword keyword.kind
            let holder :=
              if kind = .var then Scope.varHolder walk.scopes walk.current else walk.current
            walk.declarePatterns source holder kind (t.child? .left).toList
    | _ => walk

/-- Declares what the declarators of a variable declaration bind. -/
def enterDeclaration (source : Bytes) (t : Tree) (walk : ScopeWalk) : ScopeWalk :=
  let (holder, kind) :=
    if t.kind == .variableDeclaration then (Scope.varHolder walk.scopes walk.current, .var)
    else
      (walk.current, ((t.child? .kind).map fun k => BindingKind.ofKeyword k.kind).getD .letName)
  let names := (t.parts.filter (·.kind == .variableDeclarator)).filterMap (·.child? .name)
  walk.declarePatterns source holder kind names

/-- Declares the name of an import specifier; a name with an alias is ignored. -/
def enterSpecifier (source : Bytes) (spec : Tree) (walk : ScopeWalk) : ScopeWalk :=
  match spec.child? .alias, spec.child? .name with
  | some own, name => (walk.ignore name.toList).declare source 0 .import own
  | none, some name => if name.kind == .identifier then walk.declare source 0 .import name else walk
  | none, none => walk

/-- Declares the names of one part of an import clause in the program scope. -/
def enterImported (source : Bytes) (t : Tree) (walk : ScopeWalk) : ScopeWalk :=
  match t.kind with
  | .identifier => walk.declare source 0 .import t
  | .namespaceImport =>
      (t.parts.filter (·.kind == .identifier)).foldl
        (fun walk name => walk.declare source 0 .import name) walk
  | .namedImports =>
      (t.parts.filter (·.kind == .importSpecifier)).foldl
        (fun walk spec => walk.enterSpecifier source spec) walk
  | _ => walk

def enterImport (source : Bytes) (t : Tree) (walk : ScopeWalk) : ScopeWalk :=
  ((t.parts.filter (·.kind == .importClause)).flatMap Tree.parts).foldl
    (fun walk part => walk.enterImported source part) walk

/-- Ignores the alias of an export, and its name too when it comes from another module. -/
def enterExportSpecifier (cursor : Cursor) (walk : ScopeWalk) : ScopeWalk :=
  let walk := walk.ignore (cursor.child? .alias).toList
  let statement := cursor.parent?.bind Cursor.parent?
  match statement.bind (·.child? .source) with
  | some _ => walk.ignore (cursor.child? .name).toList
  | none => walk

/-- Collects a name that is not declared here. -/
def enterName (source : Bytes) (t : Tree) (walk : ScopeWalk) : ScopeWalk :=
  if walk.declared.contains t.range || walk.ignored.contains t.range || t.kind == .typeIdentifier then
    walk
  else
    { walk with pending := walk.pending ++ [⟨t.text source, t.range, walk.current⟩] }

/-- What entering a node adds. -/
def enter (source : Bytes) (cursor : Cursor) (walk : ScopeWalk) : ScopeWalk :=
  let t := cursor.focus
  if t.kind.opensFunction then walk.enterFunction source t
  else if t.kind.opensBlock then walk.enterBlock source t
  else if t.kind.isVariableDeclaration then walk.enterDeclaration source t
  else if t.kind.isName then walk.enterName source t
  else
    match t.kind with
    | .classDeclaration =>
        (t.child? .name).toList.foldl
          (fun walk name => walk.declare source walk.current .className name) walk
    | .classExpression =>
        match t.child? .name with
        | some name =>
            let walk := walk.openScope .classBody t
            walk.declare source walk.current .className name
        | none => walk
    | .importStatement => walk.enterImport source t
    | .exportSpecifier => walk.enterExportSpecifier cursor
    | .namespaceExport => walk.ignore t.parts
    | _ => walk

/-- Visits the nodes that end behind `skipBefore`. -/
def visitor (source : Bytes) (skipBefore : Nat) : Visitor ScopeWalk where
  enter cursor walk :=
    if cursor.focus.stop ≤ skipBefore && cursor.focus.kind != .program then (false, walk)
    else (true, walk.enter source cursor)
  leave cursor walk := walk.leave cursor.focus

/-- Adds one pending reference to the binding that its scope sees. -/
def resolve (table : ScopeTable) (reference : PendingReference) : ScopeTable :=
  match Scope.lookup table.scopes reference.name reference.scope with
  | none =>
      { table with unresolved := table.unresolved ++ [(reference.name, reference.place)] }
  | some ref =>
      { table with
        scopes := table.scopes.modify ref.scope (·.refer reference.name reference.place)
        byPlace := table.byPlace.put reference.place ref }

end ScopeWalk

namespace ScopeTable

/-- What the walk through a program finds. -/
def walk (source : Bytes) (skipBefore : Nat) (root : Tree) : ScopeWalk :=
  (ScopeWalk.visitor source skipBefore).walk root (ScopeWalk.start.openScope .program root)

def ofWalk (walk : ScopeWalk) : ScopeTable :=
  walk.pending.foldl ScopeWalk.resolve ⟨walk.scopes, [], walk.byPlace⟩

/-- The scope table of a program; nodes that end at `skipBefore` or earlier are left out. -/
def ofTree (source : Bytes) (skipBefore : Nat) (root : Tree) : Logged ScopeTable := do
  let walk := walk source skipBefore root
  let table := ofWalk walk
  Logged.write <| Log.debug <|
    "scope analysis: " ++ Text.ofNat walk.scopes.length ++ " scopes, "
      ++ Text.ofNat walk.pending.length ++ " references, "
      ++ Text.ofNat table.unresolved.length ++ " unresolved"
  return table

end ScopeTable

end Rebundle
