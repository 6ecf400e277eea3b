import Rebundle.Syntax.Grammar.Function

/-!
# Literals

Templates, arrays, objects and markup elements.
-/

namespace Rebundle.Grammar

open Rule

/-- The end of a template, at this very place. -/
def templateEnd : Rule :=
  lexemeHere (.token "\x60") fun runes => if Semicolon.startsWith "\x60" runes then 1 else 0

def template (g : Grammar) : Rule :=
  node .templateString (all [
    "\x60",
    many (first [
      lexemeHere .templateFragment Lexeme.templateText,
      node .templateSubstitution (between "$\x7b" g.expressions "\x7d")]),
    templateEnd])

def spread (g : Grammar) : Rule := node .spreadElement (all ["...", g.expression])

def array (g : Grammar) : Rule :=
  node .array (between "[" (sparse (first [spread g, g.expression])) "]")

def object (g : Grammar) : Rule :=
  node .object (between "\x7b" (sparse (first [
    spread g,
    method g ["async", "get", "set"],
    node .pair (all [g.propertyName, ":", field .value g.expression]),
    name .shorthandPropertyIdentifier])) "\x7d")

/-- A name of a markup element or attribute, which may hold dashes. -/
def dashedName (kind : Kind) : Rule :=
  lexeme kind fun runes =>
    let length := Rune.nameLength runes
    if length == 0 then 0
    else length + ((runes.drop length).takeWhile fun r => r.char == '-' || r.continuesName).length

def namespacedName : Rule :=
  node .markupNamespaceName (all [dashedName .identifier, ":", dashedName .identifier])

/-- The name of a markup element: a name, a path of names, or a name in a namespace. -/
def elementName : Rule :=
  first [
    namespacedName,
    all [
      dashedName .identifier,
      many (wrapAs .object .memberExpression
        (all [operator ["."], field .property (anyName .propertyIdentifier)]))]]

def markupExpression (g : Grammar) : Rule :=
  node .markupExpression (between "\x7b" (optional (first [spread g, g.expressions])) "\x7d")

def markupAttribute (g : Grammar) : Rule :=
  first [
    node .markupAttribute (all [
      first [namespacedName, dashedName .propertyIdentifier],
      optional (all [operator ["="], first [
        lexeme .string Lexeme.markupString, markupExpression g, g.markup]])]),
    markupExpression g]

/-- What stands in an opening tag behind the bracket. -/
def tagRest (g : Grammar) : Rule :=
  all [
    elementName,
    optional (g.typed (typeArguments g)),
    many (markupAttribute g)]

def markupRule (g : Grammar) : Rule :=
  first [
    node .markupSelfClosing (all ["<", tagRest g, "/", ">"]),
    node .markupElement (all [
      node .markupOpening (all ["<", optional (tagRest g), ">"]),
      many (first [
        lexemeHere .markupText Lexeme.markupText, markupExpression g, g.markup]),
      node .markupClosing (all ["<", "/", optional elementName, ">"])])]

end Rebundle.Grammar
