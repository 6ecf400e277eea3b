import Rebundle.Rewrite.Context

/-!
# Imports

Import statements become calls of `require`, type-only imports go away, and the properties of
`import.meta` that have a counterpart become that. Names are written as they will be called.
-/

namespace Rebundle.Modules

/-- The address of the file, without `import.meta`. -/
def fileUrl : Text := "require(\"url\").pathToFileURL(__filename).href"

/-- What an import statement binds: the whole module as default, as namespace, and members of it. -/
structure Imported where
  whole : Option Tree
  namespaceName : Option Tree
  named : Option (List Tree)

/-- Adds one part of an import clause. -/
def Imported.add (imported : Imported) (part : Tree) : Imported :=
  match part.kind with
  | .identifier => { imported with whole := some part }
  | .namespaceImport =>
      { imported with namespaceName := part.parts.find? fun t => t.kind == .identifier }
  | .namedImports =>
      { imported with named := some (part.parts.filter fun t => t.kind == .importSpecifier) }
  | _ => imported

def Imported.ofStatement (statement : Tree) : Imported :=
  ((statement.parts.filter fun t => t.kind == .importClause).flatMap Tree.parts).foldl
    Imported.add ⟨none, none, none⟩

/-- A member of a module and the name that it is bound to. -/
def property (rewrite : Rewrite) (specifier : Tree) : Option Text :=
  (specifier.child? .name).map fun name =>
    let imported := rewrite.text name
    let local' := rewrite.localName ((specifier.child? .alias).getD name)
    if local' = imported then local' else imported ++ ": " ++ local'

/-- The pattern that binds the members. -/
def pattern (rewrite : Rewrite) (specifiers : List Tree) : Text :=
  match specifiers.filterMap (property rewrite) with
  | [] => "\x7b\x7d"
  | properties => "\x7b " ++ Text.join ", " properties ++ " \x7d"

def declaration (declarations : List Text) : Text :=
  "var " ++ Text.join ", " declarations ++ ";"

/-- The statement that stands for an import of a module. A default next to other names asks for the
module once, under a fresh name. -/
def statementFor (request : Text) (imported : Imported) (rewrite : Rewrite) : Text × Rewrite :=
  let bind (target value : Text) : Text := target ++ " = " ++ value
  match imported with
  | ⟨none, none, none⟩ => (request ++ ";", rewrite)
  | ⟨none, some name, none⟩ => (declaration [bind (rewrite.localName name) request], rewrite)
  | ⟨some name, none, none⟩ => (declaration [bind (rewrite.localName name) request], rewrite)
  | ⟨none, none, some named⟩ => (declaration [bind (pattern rewrite named) request], rewrite)
  | ⟨whole, namespaceName, named⟩ =>
      let (shared, rewrite) := rewrite.freshName "temp"
      let names := (whole.toList ++ namespaceName.toList).map rewrite.localName
      let targets := names ++ (named.map (pattern rewrite)).toList
      (declaration (bind shared request :: targets.map fun target => bind target shared), rewrite)

def rewriteImport (cursor : Cursor) (rewrite : Rewrite) : Bool × Rewrite :=
  let statement := cursor.focus
  match statement.child? .source with
  | none => (true, rewrite)
  | some source =>
      if statement.hasToken "type" then
        let rewrite := rewrite.removeStatement statement.range cursor.ancestors "type-only import"
        (false, rewrite.count "type_imports_removed" 1)
      else
        let module := rewrite.text source
        let request : Text := "require(" ++ module ++ ")"
        let (text, rewrite) := statementFor request (Imported.ofStatement statement) rewrite
        let rewrite := rewrite.write (Log.debug ("import " ++ module ++ " -> " ++ text))
        (false, (rewrite.replace statement.range [.text text] "import").count "imports" 1)

/-- The counterpart of a property of `import.meta`, with the record of the replacement. -/
def metaProperty? (name : Text) : Option (Text × Log.Record × Text) :=
  if name = "require" then
    some ("require", Log.info "replacing import.meta.require with require", "import.meta.require")
  else if name = "url" then
    some (fileUrl, Log.info "replacing import.meta.url with its CommonJS equivalent",
      "import.meta.url")
  else none

def rewriteMember (cursor : Cursor) (rewrite : Rewrite) : Bool × Rewrite :=
  let member := cursor.focus
  match member.child? .object, member.child? .property with
  | some owner, some name =>
      if owner.isImportMeta rewrite.source then
        match metaProperty? (rewrite.text name) with
        | some (text, record, reason) =>
            let rewrite := (rewrite.write record).replace member.range [.text text] reason
            (false, rewrite.count "import_meta" 1)
        | none => (true, rewrite)
      else (true, rewrite)
  | _, _ => (true, rewrite)

def pass : RewritePass where
  name := "modules"
  applies _ := true
  concerns kind := kind == .importStatement || kind == .memberExpression
  prepare rewrite := rewrite
  visit cursor rewrite :=
    if cursor.kind == .importStatement then rewriteImport cursor rewrite
    else rewriteMember cursor rewrite
  finish _ rewrite := rewrite

end Rebundle.Modules
