import Rebundle.Syntax.Grammar.Pattern
import Rebundle.Syntax.Grammar.Type

/-!
# Functions

Parameters, signatures and the forms of functions that are values.
-/

namespace Rebundle.Grammar

open Rule

/-- Arguments of a call. -/
def arguments (g : Grammar) : Rule :=
  node .arguments (between "(" (sparse (first [
    node .spreadElement (all ["...", g.expression]), g.expression])) ")")

/-- A decorator: a path of names, perhaps called. -/
def decorator (g : Grammar) : Rule :=
  node .decorator (all ["@", first [
    parenthesized g,
    all [
      identifier,
      many memberAccess,
      optional (wrapAs .callee .callExpression
        (all [optional (g.typed (typeArguments g)), arguments g]))]]])

def decorators (g : Grammar) : Rule := many (decorator g)

/-- A word in front of a name, unless it is the name itself. -/
def modifier (text : String) : Rule :=
  all [text, unlessAhead (first ["(", ")", "\x7d", ";", ",", ":", "?", "!", "<", operator ["="]])]

/-- A parameter of a dialect without types. -/
def plainParameter (g : Grammar) : Rule := all [decorators g, defaulted g g.pattern]

/-- A parameter that may carry a type. -/
def typedParameter (g : Grammar) : Rule :=
  let front : Rule := all [
    decorators g,
    many (first
      (["public", "private", "protected", "override", "readonly"].map modifier)),
    field .pattern (first [named .this "this", g.pattern])]
  let behind : Rule := all [optional (typeAscription g), optional (initializer g)]
  first [
    node .optionalParameter (all [front, operator ["?"], behind]),
    node .requiredParameter (all [front, behind])]

def parametersRule (g : Grammar) : Rule :=
  node .formalParameters (between "("
    (listed (if g.dialect.hasTypes then typedParameter g else plainParameter g)) ")")

/-- The parameters of a function, with types around them where they are allowed. -/
def signature (g : Grammar) : Rule :=
  all [
    optional (g.typed (typeParameters g)),
    field .parameters (parametersRule g),
    optional (g.typed (returnType g))]

/-- `async` in front of something else on its line. -/
def asynchronous : Rule := all ["async", sameLine]

def functionValue (g : Grammar) : Rule :=
  first [
    node .functionExpression (all [
      optional asynchronous, "function", optional (field .name identifier), signature g,
      field .body g.block]),
    node .generatorFunction (all [
      optional asynchronous, "function", "*", optional (field .name identifier), signature g,
      field .body g.block])]

/-- An arrow function; its body is a block where a block can be read. -/
def arrowFunction (g : Grammar) : Rule :=
  let head : Rule := first [
    all [field .parameter identifier, "=>"],
    all [signature g, "=>"]]
  node .arrowFunction (all [
    first [all [asynchronous, head], head],
    field .body (first [g.block, g.expression])])

/-- Decorators of a member, which belong to the member unless there are types. -/
def memberDecorators (g : Grammar) : Rule := if g.dialect.hasTypes then skip else decorators g

/-- A method with its body. -/
def method (g : Grammar) (modifiers : List String) : Rule :=
  node .methodDefinition (all [
    memberDecorators g,
    many (first (modifiers.map modifier)),
    optional "*",
    field .name g.propertyName,
    optional (g.typed (operator ["?"])),
    signature g,
    field .body g.block])

end Rebundle.Grammar
