import Rebundle.Rewrite.Context

/-!
# Removals

Configured functions, variables and calls are deleted. A call that is a statement of its own goes
with the statement. Anywhere else a value without effect takes its place, behind a semicolon where it
opens a statement, so that it cannot go on with the line before.
-/

namespace Rebundle.Removal

/-- What stands for a removed call. -/
def placeholder : Text := "(void 0)"

def removeFunction (cursor : Cursor) (rewrite : Rewrite) : Bool × Rewrite :=
  match cursor.child? .name with
  | none => (true, rewrite)
  | some node =>
      let name := rewrite.text node
      if rewrite.config.removeIdentifiers.contains name then
        let rewrite := rewrite.write (Log.info ("removing function declaration " ++ name))
        let rewrite := rewrite.removeStatement cursor.range cursor.ancestors "remove function"
        (false, rewrite.count "functions_removed" 1)
      else (true, rewrite)

/-- The name of a declarator that is to be removed. -/
def doomedName? (rewrite : Rewrite) (declarator : Tree) : Option Text :=
  match declarator.child? .name with
  | some target =>
      let name := rewrite.text target
      if target.kind == .identifier && rewrite.config.removeIdentifiers.contains name then some name
      else none
  | none => none

/-- The kept declarators with commas between. -/
def keptParts : List Tree → List Part
  | [] => []
  | [t] => [.span (Span.ofRange t.range [])]
  | t :: rest => .span (Span.ofRange t.range []) :: .text ", " :: keptParts rest

def removeDeclarators (cursor : Cursor) (rewrite : Rewrite) : Bool × Rewrite :=
  let declarators := cursor.focus.parts.filter fun t => t.kind == .variableDeclarator
  let names := declarators.filterMap (doomedName? rewrite)
  let kept := declarators.filter fun t => (doomedName? rewrite t).isNone
  if names.isEmpty then (true, rewrite)
  else
    let rewrite := names.foldl
      (fun rewrite name => rewrite.write (Log.info ("removing variable declaration " ++ name))) rewrite
    let rewrite := rewrite.count "variables_removed" names.length
    match kept, declarators.head?, declarators.getLast? with
    | _ :: _, some first, some last =>
        let range : Range := ⟨first.start, last.stop⟩
        (true, rewrite.replace range (keptParts kept) "remove declarator")
    | _, _, _ =>
        (false, rewrite.removeStatement cursor.range cursor.ancestors "remove declaration")

/-- Whether the node is all that its parent, an expression statement, holds. -/
def isWholeStatement (cursor : Cursor) : Bool :=
  match cursor.parent? with
  | some parent =>
      parent.kind == .expressionStatement
        && ((parent.focus.firstPart?).map (·.range) == some cursor.range)
  | none => false

/-- Whether a node that begins at `start` below these ancestors opens an expression statement in a
list of statements. -/
def opensStatement (start : Nat) : List Label → Bool
  | [] => false
  | label :: above =>
      if label.range.start != start then false
      else if label.kind == .expressionStatement then
        match above with
        | owner :: _ => owner.kind.listsStatements
        | [] => true
      else opensStatement start above

def removeCall (cursor : Cursor) (rewrite : Rewrite) : Bool × Rewrite :=
  let names := cursor.focus.calleeNames rewrite.source
  match names.find? fun name => rewrite.config.removeFunctionCalls.contains name with
  | none => (true, rewrite)
  | some name =>
      let rewrite := rewrite.write (Log.info ("removing call to " ++ name))
      match cursor.parent? with
      | some parent =>
          if isWholeStatement cursor then
            let rewrite :=
              rewrite.removeStatement parent.range parent.ancestors "remove call statement"
            (false, rewrite.count "call_statements_removed" 1)
          else replaceCall rewrite
      | none => replaceCall rewrite
where
  /-- Writes the placeholder. -/
  replaceCall (rewrite : Rewrite) : Bool × Rewrite :=
    let text := if opensStatement cursor.range.start cursor.ancestors then ";" ++ placeholder
      else placeholder
    (false, (rewrite.replace cursor.range [.text text] "remove call").count
      "call_expressions_replaced" 1)

def visit (cursor : Cursor) (rewrite : Rewrite) : Bool × Rewrite :=
  if cursor.kind == .callExpression then removeCall cursor rewrite
  else if cursor.kind.isVariableDeclaration then removeDeclarators cursor rewrite
  else removeFunction cursor rewrite

def pass : RewritePass where
  name := "removal"
  applies config := !config.removeIdentifiers.isEmpty || !config.removeFunctionCalls.isEmpty
  concerns kind :=
    kind.isFunctionDeclaration || kind.isVariableDeclaration || kind == .callExpression
  prepare rewrite := rewrite
  visit := visit
  finish _ rewrite := rewrite

end Rebundle.Removal
