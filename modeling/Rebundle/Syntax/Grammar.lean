import Rebundle.Syntax.Semicolon

/-!
# Grammars

The constructs of the language refer to each other in circles. A grammar holds the rules at which
the circles are cut: each rule of a construct takes the grammar for the constructs inside it, and
the grammar of a depth is made from the grammar of the depth below.
-/

namespace Rebundle

structure Grammar where
  dialect : Dialect
  /-- Whether statements that cannot be read are passed over. -/
  lenient : Bool
  statement : Rule
  block : Rule
  /-- An expression without commas. -/
  expression : Rule
  /-- An expression that an operator in front may take. -/
  unary : Rule
  /-- An operand of a power. -/
  power : Rule
  /-- An operand with the members and calls behind it. -/
  chain : Rule
  /-- A `new` with its constructor. -/
  construction : Rule
  /-- What an assignment may bind. -/
  pattern : Rule
  parameters : Rule
  type : Rule
  /-- A markup element. -/
  markup : Rule

namespace Grammar

open Rule

/-- The rule where declarations may carry types, nothing elsewhere. -/
def typed (g : Grammar) (rule : Rule) : Rule := if g.dialect.hasTypes then rule else refuse

/-- Words that are not names. -/
def reserved : List (List Char) :=
  ["break", "case", "catch", "class", "const", "continue", "debugger", "default", "delete", "do",
   "else", "extends", "false", "finally", "for", "function", "if", "import", "in", "instanceof",
   "new", "null", "return", "super", "switch", "this", "throw", "true", "try", "typeof", "var",
   "void", "while", "with"].map String.toList

/-- A name that is not reserved, as a leaf of this kind. -/
def name (kind : Kind) : Rule :=
  lexeme kind fun runes =>
    let length := Rune.nameLength runes
    if reserved.contains ((runes.take length).map (·.char)) then 0 else length

/-- Any name, reserved or not. -/
def anyName (kind : Kind) : Rule := lexeme kind Rune.nameLength

def identifier : Rule := name .identifier

/-- A leaf of this kind that is written as this word. -/
def named (kind : Kind) (text : String) : Rule := fun s =>
  (word text s).map fun t =>
    match t.built with
    | last :: before => { t with built := last.ofKind kind :: before }
    | [] => t

def string : Rule := lexeme .string Lexeme.string

def privateName : Rule := lexeme .privatePropertyIdentifier Lexeme.privateName

/-- One expression, or several with commas between. -/
def expressions (g : Grammar) : Rule :=
  all [g.expression, optional (wrap .sequenceExpression (many1 (all [",", g.expression])))]

/-- The name of a member of an object or a class. -/
def propertyName (g : Grammar) : Rule :=
  first [
    anyName .propertyIdentifier,
    privateName,
    string,
    lexeme .number Lexeme.number,
    node .computedPropertyName (between "[" g.expression "]")]

def typeAscription (g : Grammar) : Rule := node .typeAscription (all [":", g.type])

def parenthesized (g : Grammar) : Rule :=
  node .parenthesizedExpression
    (between "(" (all [g.expressions, optional (g.typed g.typeAscription)]) ")")

/-- An equals sign and the value behind it. -/
def initializer (g : Grammar) : Rule := all [operator ["="], field .value g.expression]

/-- Refuses behind a word that ends the statement by itself, where the word is a name. -/
def goesOn (g : Grammar) : Rule := unlessAhead (automatic g.dialect true)

/-- A path of names that leads to a member, up to its last part. -/
def memberAccess : Rule :=
  wrapAs .object .memberExpression
    (all [first [operator ["."], node .optionalChain (operator ["?."])],
      field .property (first [privateName, anyName .propertyIdentifier])])

def subscriptAccess (g : Grammar) : Rule :=
  wrapAs .object .subscriptExpression
    (all [optional (node .optionalChain (operator ["?."])), between "[" g.expressions "]"])

end Grammar

end Rebundle
