import Rebundle.Syntax.Grammar.Function

/-!
# Classes

Class bodies with their methods, fields and static blocks, and the forms of classes.
-/

namespace Rebundle.Grammar

open Rule

/-- Words in front of a member of a class. -/
def memberModifiers (g : Grammar) : List String :=
  if g.dialect.hasTypes then
    ["public", "private", "protected", "static", "override", "readonly", "abstract", "declare",
      "accessor", "async", "get", "set"]
  else ["static", "async", "get", "set", "accessor"]

def staticBlock (g : Grammar) : Rule :=
  node .classStaticBlock (all ["static", field .body g.block])

/-- A field; `valued` tells whether it has a value. -/
def fieldDefinition (g : Grammar) (valued : Bool) : Rule :=
  let value : Rule := if valued then initializer g else skip
  if g.dialect.hasTypes then
    node .publicFieldDefinition (all [
      many (first ((memberModifiers g).map modifier)),
      field .name g.propertyName,
      optional (operator ["?", "!"]),
      optional (typeAscription g),
      value])
  else
    node .fieldDefinition (all [
      memberDecorators g,
      many (first ((memberModifiers g).map modifier)),
      field .property g.propertyName,
      value])

/-- A method without its body. -/
def methodSignature (g : Grammar) : Rule :=
  node .methodSignature (all [
    many (first ((memberModifiers g).map modifier)),
    optional "*",
    field .name g.propertyName,
    optional (operator ["?"]),
    signature g])

def classMember (g : Grammar) : Rule :=
  first [
    ";",
    g.typed (decorator g),
    staticBlock g,
    method g (memberModifiers g),
    g.typed (all [methodSignature g, first [signatureEnd g.dialect, ","]]),
    g.typed (all [indexSignature g, first [semicolon g.dialect false, ","]]),
    all [fieldDefinition g true, first [semicolon g.dialect true, g.typed ","]],
    all [fieldDefinition g false, first [semicolon g.dialect false, g.typed ","]]]

def classBody (g : Grammar) : Rule :=
  node .classBody (all ["\x7b", within false (many (classMember g)), "\x7d"])

/-- What a class extends and implements. -/
def classHeritage (g : Grammar) : Rule :=
  if g.dialect.hasTypes then
    let extending : Rule := all [
      "extends",
      separated (all [g.chain, optional (typeArguments g)])]
    let implementing : Rule := all ["implements", separated g.type]
    node .classHeritage (first [all [extending, optional implementing], implementing])
  else node .classHeritage (all ["extends", g.expression])

def className (g : Grammar) : Rule :=
  field .name (
    if g.dialect.hasTypes then all [unlessAhead "implements", name .typeIdentifier]
    else identifier)

/-- What follows the keyword of a class. -/
def classRest (g : Grammar) : Rule :=
  all [
    optional (g.typed (typeParameters g)),
    optional (classHeritage g),
    field .body (classBody g)]

def classValue (g : Grammar) : Rule :=
  node .classExpression (all [decorators g, "class", optional (className g), classRest g])

end Rebundle.Grammar
