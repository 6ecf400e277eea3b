import Rebundle.Json.Writer
import Rebundle.Rewrite.Context

/-!
# Function bodies

The body of a configured function becomes a block that returns a string. The function may be
declared, be the value of a variable, or be a method.
-/

namespace Rebundle.Body

/-- A block that returns a string literal; its lines are indented like the line of the function. -/
def returnBlock (value indent : Text) : Text :=
  "\x7b\n" ++ indent ++ "  return " ++ Json.literal value ++ ";\n" ++ indent ++ "\x7d"

/-- Kinds of functions that are values. -/
def isFunctionValue (kind : Kind) : Bool :=
  match kind with
  | .functionExpression | .generatorFunction | .arrowFunction => true
  | k => k == .token "function"

/-- The name and the function of a node whose body may be replaced, and what a report calls it. -/
def target? (cursor : Cursor) : Option (Tree × Tree × Text) :=
  let t := cursor.focus
  match t.kind, t.child? .name with
  | _, none => none
  | .variableDeclarator, some name =>
      match t.child? .value with
      | some value =>
          if name.kind == .identifier && isFunctionValue value.kind then
            some (name, value, "function expression")
          else none
      | none => none
  | .methodDefinition, some name =>
      if name.kind == .propertyIdentifier then
        let owner : Text :=
          if cursor.parentKind? == some .classBody then "class method" else "object method"
        some (name, t, owner)
      else none
  | _, some name => some (name, t, "function")

def visit (cursor : Cursor) (rewrite : Rewrite) : Bool × Rewrite :=
  match target? cursor with
  | none => (true, rewrite)
  | some (name, function, label) =>
      let key := rewrite.text name
      match rewrite.config.replaceFunctionBody.get? key, function.child? .body with
      | some value, some body =>
          let rewrite := rewrite.write <| Log.info <|
            "replacing body of " ++ label ++ " " ++ key ++ ", returning " ++ value.quoted
          let block := returnBlock value (lineIndent rewrite.source cursor.range.start)
          (true, (rewrite.replace body.range [.text block] "replace body").count "bodies_replaced" 1)
      | _, _ => (true, rewrite)

def pass : RewritePass where
  name := "replace_body"
  applies config := !config.replaceFunctionBody.isEmpty
  concerns kind :=
    kind.isFunctionDeclaration || kind == .variableDeclarator || kind == .methodDefinition
  prepare rewrite := rewrite
  visit := visit
  finish _ rewrite := rewrite

end Rebundle.Body
