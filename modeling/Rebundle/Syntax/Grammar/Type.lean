import Rebundle.Syntax.Grammar.Pattern

/-!
# Types

Types, type parameters and type arguments. Names of types are type identifiers; names of values that
occur in types (`typeof`, predicates, parameters of function types, keys of index signatures) are
identifiers.
-/

namespace Rebundle.Grammar

open Rule

def typeArguments (g : Grammar) : Rule :=
  node .typeArguments (between "<" (all [separated g.type, optional ","]) ">")

def typeParameter (g : Grammar) : Rule :=
  node .typeExpression (all [
    optional (all ["const", ahead (anyName .typeIdentifier)]),
    many (first [
      all [first ["in", "out"], ahead (anyName .typeIdentifier)]]),
    field .name (name .typeIdentifier),
    optional (all ["extends", g.type]),
    optional (all [operator ["="], g.type])])

def typeParameters (g : Grammar) : Rule :=
  node .typeParameters (between "<" (all [separated (typeParameter g), optional ","]) ">")

/-- A statement about a parameter, as the type of a result. -/
def predicate (g : Grammar) : Rule :=
  let subject : Rule := first [named .this "this", identifier]
  first [
    node .typeExpression (all ["asserts", sameLine, subject, optional (all ["is", g.type])]),
    node .typeExpression (all [subject, sameLine, "is", g.type])]

/-- The type behind a signature. -/
def returnType (g : Grammar) : Rule :=
  node .typeAscription (all [":", first [predicate g, g.type]])

def functionType (g : Grammar) : Rule :=
  node .typeExpression (all [
    optional "abstract",
    optional "new",
    optional (typeParameters g),
    field .parameters g.parameters,
    "=>",
    first [predicate g, g.type]])

/-- A module taken as a value. -/
def importCall : Rule :=
  all [
    named .importCallee "import",
    wrapAs .callee .callExpression (node .arguments (between "(" (listed string) ")"))]

/-- The name of a type, perhaps behind a path of names, with its arguments. -/
def typeName (g : Grammar) : Rule :=
  all [
    first [
      node .nestedTypeIdentifier (all [
        identifier,
        many (all [".", anyName .propertyIdentifier, ahead "."]),
        ".",
        anyName .typeIdentifier]),
      name .typeIdentifier],
    optional (wrap .typeExpression (all [sameLine, typeArguments g]))]

def typeQuery (g : Grammar) : Rule :=
  node .typeQuery (all [
    "typeof",
    first [importCall, named .this "this", identifier],
    many (first [memberAccess, g.subscriptAccess]),
    optional (all [sameLine, typeArguments g])])

/-- The end of a member of an object type. -/
def memberEnd (g : Grammar) : Rule := first [",", semicolon g.dialect false, ahead "\x7d"]

def indexSignature (g : Grammar) : Rule :=
  let sign : Rule := optional (operator ["+", "-"])
  node .indexSignature (all [
    optional (all [sign, "readonly", ahead "["]),
    between "[" (first [
      all [identifier, ":", g.type],
      all [name .typeIdentifier, "in", g.type, optional (all ["as", g.type])]]) "]",
    optional (all [sign, operator ["?"]]),
    optional (typeAscription g)])

def typeSignature (g : Grammar) : Rule :=
  all [
    optional (typeParameters g),
    field .parameters g.parameters,
    optional (returnType g)]

def objectTypeMember (g : Grammar) : Rule :=
  let accessor (text : String) : Rule := all [text, ahead g.propertyName]
  first [
    indexSignature g,
    node .typeExpression (all [optional "new", typeSignature g]),
    node .methodSignature (all [
      optional (first [accessor "get", accessor "set"]),
      field .name g.propertyName,
      optional (operator ["?"]),
      typeSignature g]),
    node .propertySignature (all [
      many (accessor "readonly"),
      field .name g.propertyName,
      optional (operator ["?"]),
      optional (typeAscription g)])]

def objectType (g : Grammar) : Rule :=
  node .objectType (all [
    "\x7b",
    within false (many (first [";", all [objectTypeMember g, memberEnd g]])),
    "\x7d"])

def tupleMember (g : Grammar) : Rule :=
  first [
    node .typeExpression (all [
      first [node .restPattern (all ["...", identifier]), identifier],
      optional (operator ["?"]), typeAscription g]),
    node .typeExpression (all ["...", g.type]),
    all [g.type, optional (operator ["?"])]]

/-- Words that name types of the language itself. -/
def predefined : Rule :=
  first (["any", "number", "boolean", "string", "symbol", "object", "unknown", "never", "void",
    "this"].map (named .typeExpression))

/-- A literal as a type. -/
def literalType : Rule :=
  first [
    string,
    node .typeExpression (all [optional (operator ["-", "+"]), lexeme .number Lexeme.number]),
    named .trueLiteral "true", named .falseLiteral "false", named .nullLiteral "null",
    named .undefined "undefined"]

def templateType (g : Grammar) : Rule :=
  node .templateString (all [
    "\x60",
    many (first [
      lexemeHere .templateFragment Lexeme.templateText,
      node .templateSubstitution (all ["$\x7b", within true g.type, "\x7d"])]),
    lexemeHere (.token "\x60") fun runes => if Semicolon.startsWith "\x60" runes then 1 else 0])

def simpleType (g : Grammar) : Rule :=
  first [
    typeQuery g,
    literalType,
    templateType g,
    all [importCall, many memberAccess, optional (all [sameLine, typeArguments g])],
    all [predefined, unlessAhead (operator ["."])],
    typeName g,
    node .typeExpression (between "(" g.type ")"),
    node .typeExpression (between "[" (listed (tupleMember g)) "]"),
    objectType g]

/-- A type with the brackets of arrays and look-ups behind it. -/
def indexedType (g : Grammar) : Rule :=
  all [
    simpleType g,
    many (wrap .typeExpression (all [sameLine, between "[" (optional g.type) "]"]))]

/-- A type with the words in front of it that make another type of it. -/
def operatedType (g : Grammar) : Rule :=
  first [
    node .typeExpression (all [
      first ["keyof", "unique", "readonly", "infer"],
      unlessAhead (first [",", ")", ">", ";", "\x7d", "]", operator ["=", "|", "&", "."]]),
      g.type]),
    indexedType g]

def intersectionType (g : Grammar) : Rule :=
  all [
    optional (operator ["&"]),
    operatedType g,
    many (wrap .typeExpression (all [operator ["&"], operatedType g]))]

def unionType (g : Grammar) : Rule :=
  all [
    optional (operator ["|"]),
    intersectionType g,
    many (wrap .typeExpression (all [operator ["|"], intersectionType g]))]

def typeRule (g : Grammar) : Rule :=
  first [
    functionType g,
    all [
      unionType g,
      optional (wrap .typeExpression
        (all [sameLine, "extends", g.type, operator ["?"], g.type, ":", g.type]))]]

end Rebundle.Grammar
