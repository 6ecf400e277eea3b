import Rebundle.Rewrite.Context

/-!
# Renaming

Every binding of a configured name is renamed at all of its places; free references keep their
names. A shorthand property keeps its key, and an exported name its public name.
-/

namespace Rebundle.Renaming

/-- Gives all places of a binding a new name. A name that the scope has already is reported. -/
def renameBinding (old new : Text) (ref : BindingRef) (binding : Binding) (rewrite : Rewrite) :
    Rewrite :=
  let taken := (rewrite.scopes.scopes[ref.scope]?).any fun scope => scope.bindings.contains new
  let rewrite :=
    if taken then
      rewrite.warn ("renaming " ++ old ++ " to " ++ new ++ " collides with an existing " ++ new
        ++ " in the same scope")
    else rewrite
  let renames := binding.places.foldl (fun table place => table.put place new) rewrite.renames
  let rewrite := { rewrite with renames }
  let rewrite := rewrite.write <| Log.info <|
    "renaming " ++ binding.kind.name ++ " binding " ++ old ++ " -> " ++ new ++ " ("
      ++ Text.ofNat binding.declarations.length ++ " declaration(s), "
      ++ Text.ofNat binding.references.length ++ " reference(s))"
  rewrite.count "bindings_renamed" 1

/-- Gives the bindings of one configured name their new name. -/
def renameAll (rewrite : Rewrite) (entry : Text × Text) : Rewrite :=
  match rewrite.scopes.bindingsNamed entry.1 with
  | [] => rewrite.write (Log.info ("no binding named " ++ entry.1 ++ " to rename"))
  | bindings =>
      bindings.foldl
        (fun rewrite (ref, binding) => renameBinding entry.1 entry.2 ref binding rewrite) rewrite

def prepare (rewrite : Rewrite) : Rewrite :=
  rewrite.config.renameIdentifiers.foldl renameAll rewrite

/-- Whether a node below these ancestors is part of an import statement. -/
def insideImport : List Label → Bool
  | [] => false
  | label :: rest =>
      if label.kind == .importStatement then true
      else if label.kind == .program || label.kind == .statementBlock then false
      else insideImport rest

/-- Whether the node is a name that is exported as it is. -/
def isBareExport (cursor : Cursor) : Bool :=
  cursor.parentKind? == some .exportSpecifier
    && ((cursor.parent?.bind (·.child? .alias)).isNone)

/-- What is written for a name. -/
def written (cursor : Cursor) (old new : Text) : Text :=
  match cursor.kind with
  | .shorthandPropertyIdentifier | .shorthandPropertyIdentifierPattern => old ++ ": " ++ new
  | _ => if isBareExport cursor then new ++ " as " ++ old else new

def visit (cursor : Cursor) (rewrite : Rewrite) : Bool × Rewrite :=
  match rewrite.renames.get? cursor.range with
  | none => (true, rewrite)
  | some new =>
      if insideImport cursor.ancestors then (true, rewrite)
      else
        let text := written cursor (rewrite.text cursor.focus) new
        (true, (rewrite.replace cursor.range [.text text] "rename").count "identifiers_renamed" 1)

def pass : RewritePass where
  name := "rename"
  applies config := !config.renameIdentifiers.isEmpty
  concerns := Kind.isName
  prepare := prepare
  visit := visit
  finish _ rewrite := rewrite

end Rebundle.Renaming
