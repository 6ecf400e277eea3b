import Rebundle.Proofs.Scope.Declared

/-!
# Programs with their texts

A script is a syntax tree together with what is written for it. A program is read as a script, and its public
names are told from that: the keys of its objects and object patterns, the names of its export specifiers, and
the names that its exported declarations declare. Renaming makes another script of a program: a shorthand
property becomes a pair, an export specifier without an alias gets one, and every other name is replaced.
-/

namespace Rebundle

/-- A syntax tree with its texts: pieces stand between the nodes, and a leaf consists of one piece. A node stands for
a place in the source. -/
inductive Script where
  | piece (part : Part)
  | node (kind : Kind) (role : Option Role) (place : Range) (children : List Script)

/-- The kinds of the keys that are no expressions. -/
def Kind.isPropertyName : Kind → Bool
  | .propertyIdentifier | .privatePropertyIdentifier | .string | .number => true
  | _ => false

namespace Script

def role? : Script → Option Role
  | piece _ => none
  | node _ role _ _ => role

def children : Script → List Script
  | piece _ => []
  | node _ _ _ children => children

/-- Whether a script is a node of some kinds. -/
def hasKind (p : Kind → Bool) : Script → Bool
  | piece _ => false
  | node kind _ _ _ => p kind

/-- The first of these nodes that plays a role. -/
def inRole? (role : Role) (row : List Script) : Option Script := row.find? fun s => s.role? == some role

/-- The first construct among these nodes. -/
def firstPart? (row : List Script) : Option Script :=
  row.find? (hasKind fun kind => kind.isNamed && kind != .comment)

mutual

/-- What is written for a script, from left to right. -/
def parts : Script → List Part
  | piece part => [part]
  | node _ _ _ children => partsAll children

def partsAll : List Script → List Part
  | [] => []
  | s :: rest => s.parts ++ partsAll rest

end

mutual

/-- What the nodes of a script contribute, each by its kind and its children. -/
def collect {α : Type} (own : Kind → List Script → List α) : Script → List α
  | piece _ => []
  | node kind _ _ children => own kind children ++ collectAll own children

def collectAll {α : Type} (own : Kind → List Script → List α) : List Script → List α
  | [] => []
  | s :: rest => collect own s ++ collectAll own rest

end

section

variable (source : Bytes)

/-- The text of a leaf. -/
def text? : Script → Option Text
  | node _ _ place [piece (.span _)] => some (place.text source)
  | node _ _ _ [piece (.text t)] => some t
  | _ => none

/-! The keys of objects. -/

/-- The text of a key that is no expression. -/
def propertyName? (s : Script) : Option Text := if s.hasKind Kind.isPropertyName then s.text? source else none

mutual

/-- The key of an entry of an object or an object pattern, unless it is an expression. -/
def key? : Script → Option Text
  | piece _ => none
  | node kind role place children =>
      match kind with
      | .shorthandPropertyIdentifier | .shorthandPropertyIdentifierPattern =>
          (node kind role place children).text? source
      | .pair | .pairPattern => (firstPart? children).bind (propertyName? source)
      | .methodDefinition => (inRole? .name children).bind (propertyName? source)
      | .objectAssignmentPattern => keyOfLeft? children
      | _ => none

/-- The key of the first of these nodes that is taken apart. -/
def keyOfLeft? : List Script → Option Text
  | [] => none
  | s :: rest => if s.role? == some .left then s.key? else keyOfLeft? rest

end

/-- The keys of an object or an object pattern with these children. -/
def ownKeys (kind : Kind) (children : List Script) : List Text :=
  if kind == .object || kind == .objectPattern then children.filterMap (key? source) else []

/-- The keys of all objects and object patterns of a script. -/
def keys : Script → List Text := collect (ownKeys source)

/-! The names that a program gives away. -/

/-- The name under which an export specifier gives something away: its alias, or else its name. -/
def specified? (s : Script) : Option Text :=
  if s.hasKind (· == .exportSpecifier) then
    ((inRole? .alias s.children).or (inRole? .name s.children)).bind (text? source)
  else none

/-- The names of the specifiers of an export clause. -/
def clauseNames (s : Script) : List Text :=
  if s.hasKind (· == .exportClause) then s.children.filterMap (specified? source) else []

/-- The names of the specifiers of an export statement with these children, unless it passes on what another
program gives away. -/
def ownSpecifiers (kind : Kind) (children : List Script) : List Text :=
  if kind == .exportStatement && (inRole? .source children).isNone then children.flatMap (clauseNames source) else []

/-- The names of all export specifiers that give away something of the program itself. -/
def specifiers : Script → List Text := collect (ownSpecifiers source)

/-- A leaf with its place. -/
def named : Script → List (Range × Text)
  | piece _ => []
  | node kind role place children => ((node kind role place children).text? source).toList.map (place, ·)

mutual

/-- The names that a pattern binds, with their places. -/
def boundNames : Script → List (Range × Text)
  | piece _ => []
  | node kind role place children =>
      match kind with
      | .identifier | .shorthandPropertyIdentifierPattern => (node kind role place children).named source
      | .objectPattern | .arrayPattern | .restPattern => boundInAll children
      | .pairPattern => boundInRole .value children
      | .assignmentPattern | .objectAssignmentPattern => boundInRole .left children
      | _ => []

def boundInAll : List Script → List (Range × Text)
  | [] => []
  | s :: rest => s.boundNames ++ boundInAll rest

/-- The names bound by the first of these nodes that plays a role. -/
def boundInRole (role : Role) : List Script → List (Range × Text)
  | [] => []
  | s :: rest => if s.role? == some role then s.boundNames else boundInRole role rest

end

/-- The names that a declarator binds. -/
def declaratorNames (s : Script) : List (Range × Text) :=
  if s.hasKind (· == .variableDeclarator) then ((inRole? .name s.children).map (boundNames source)).getD [] else []

/-- The names that a declaration of variables, of a function or of a class declares. -/
def declaredNames (s : Script) : List (Range × Text) :=
  if s.hasKind Kind.isVariableDeclaration then s.children.flatMap (declaratorNames source)
  else if s.hasKind fun kind =>
      kind.isFunctionDeclaration || kind == .classDeclaration || kind == .abstractClassDeclaration then
    (((inRole? .name s.children).filter (hasKind fun kind => kind == .identifier || kind == .typeIdentifier)).map
      (named source)).getD []
  else []

/-- The names that the declaration in an export statement with these children declares; what is exported by default
is not given away under them. -/
def ownDeclared (kind : Kind) (children : List Script) : List (Range × Text) :=
  if kind == .exportStatement && !children.any (hasKind (· == .token "default")) then
    children.flatMap (declaredNames source)
  else []

/-- The names that exported declarations declare, with their places. -/
def declared : Script → List (Range × Text) := collect (ownDeclared source)

/-- The names that a program gives away. -/
def exports (s : Script) : List Text := s.specifiers source ++ (s.declared source).map (·.2)

end

/-! The scripts of trees. -/

/-- A range of the source as it is. -/
def copied (start stop : Nat) : Script := piece (.span ⟨start, stop, []⟩)

/-- A leaf with a text of its own. -/
def leaf (kind : Kind) (role : Option Role) (place : Range) (t : Text) : Script :=
  node kind role place [piece (.text t)]

section

variable (source : Bytes) (new? : Range → Option Text)

/-- The new name of a node, if it is a name that gets one. -/
def newName? (t : Tree) : Option Text := if t.kind.isName then new? t.range else none

/-- A property with its key, for what stands behind the key. -/
def keyed (place : Range) (behind : List Script) : List Script :=
  leaf .propertyIdentifier none place (place.text source) :: piece (.text ": ") :: behind

/-- A name, with its new name if it gets one. A shorthand property becomes a pair with its key. -/
def ofName (label : Label) : Option Text → Script
  | none => node label.kind label.role label.range [copied label.range.start label.range.stop]
  | some new =>
      match label.kind with
      | .shorthandPropertyIdentifier =>
          node .pair label.role label.range (keyed source label.range [leaf .identifier (some .value) label.range new])
      | .shorthandPropertyIdentifierPattern =>
          node .pairPattern label.role label.range
            (keyed source label.range [leaf .identifier (some .value) label.range new])
      | kind => leaf kind label.role label.range new

/-- The new name of a shorthand property that is taken apart with a default. -/
def defaultedName? (t : Tree) : Option Text :=
  if t.kind = .shorthandPropertyIdentifierPattern ∧ t.label.role = some .left then new? t.range else none

/-- A property that is taken apart with a default, from what stands for its first child and behind it. When the child
gets a new name, the default belongs to the name behind the key. -/
def ofDefaulted (label : Label) (t : Tree) (first : Script) (behind : List Script) : Option Text → Script
  | none => node label.kind label.role label.range (copied label.range.start t.start :: first :: behind)
  | some new =>
      node .pairPattern label.role label.range (copied label.range.start t.start :: keyed source t.range
        [node .assignmentPattern (some .value) ⟨t.start, label.range.stop⟩
          (leaf .identifier (some .left) t.range new :: behind)])

/-- A child of an export specifier without an alias: a name that gets a new one becomes the alias. -/
def ofSpecified (t : Tree) (own : Script) : Option Text → List Script
  | none => [own]
  | some new =>
      [leaf t.kind t.label.role t.range new, piece (.text " as "),
        leaf t.kind (some .alias) t.range (t.range.text source)]

mutual

/-- The script of a tree in which the places get new names. -/
def ofTree : Tree → Script
  | .node label children =>
      if label.kind.isName then ofName source label (new? label.range)
      else if label.kind = .exportSpecifier ∧ ∀ t ∈ children, t.label.role ≠ some .alias then
        node label.kind label.role label.range (specifierRow label.range.start label.range.stop children)
      else if label.kind = .objectAssignmentPattern then defaultedRow label children
      else node label.kind label.role label.range (row label.range.start label.range.stop children)

/-- The scripts of a row of nodes, with what stands around them. -/
def row (start stop : Nat) : List Tree → List Script
  | [] => [copied start stop]
  | t :: rest => copied start t.start :: ofTree t :: row t.stop stop rest

def defaultedRow (label : Label) : List Tree → Script
  | [] => node label.kind label.role label.range [copied label.range.start label.range.stop]
  | t :: rest =>
      ofDefaulted source label t (ofTree t) (row t.stop label.range.stop rest) (defaultedName? new? t)

def specifierRow (start stop : Nat) : List Tree → List Script
  | [] => [copied start stop]
  | t :: rest =>
      copied start t.start :: (ofSpecified source t (ofTree t) (newName? new? t) ++ specifierRow t.stop stop rest)

end

/-- The script of a whole program. -/
def ofProgram (root : Tree) : Script :=
  node root.kind root.label.role ⟨0, source.length⟩ (row source new? 0 source.length root.children)

end

end Script

end Rebundle
