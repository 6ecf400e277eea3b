import Rebundle.Syntax.Grammar.Expression

/-!
# Declarations

Declarations of variables, functions, classes and types.
-/

namespace Rebundle.Grammar

open Rule

/-- Whether the construct read last ends with a value. -/
def endsWithValue (s : Rule.State) : Bool :=
  match s.built with
  | .branch _ _ children :: _ =>
      match children.getLast? with
      | some (.leaf _ role _ _) => role == some .value
      | some (.branch _ role _) => role == some .value
      | none => false
  | _ => false

/-- An equals sign without a value, which is passed over. -/
def brokenInitializer (g : Grammar) : Rule :=
  if g.lenient then node .error (operator ["="]) else refuse

def declarator (g : Grammar) : Rule :=
  node .variableDeclarator (all [
    field .name (bound g),
    optional (g.typed (all [optional (operator ["!"]), typeAscription g])),
    optional (first [initializer g, brokenInitializer g])])

/-- Declarators up to the end of their statement. -/
def declarators (g : Grammar) : Rule :=
  all [
    separated (declarator g),
    first [all [Rule.guard endsWithValue, semicolon g.dialect true], semicolon g.dialect false]]

def variableDeclaration (g : Grammar) : Rule :=
  first [
    node .variableDeclaration (all ["var", declarators g]),
    node .lexicalDeclaration (all [
      field .kind (first [all ["let", g.goesOn], "const"]), declarators g]),
    node .usingDeclaration (all [
      field .kind (first ["using", all ["await", sameLine, "using"]]), sameLine,
      ahead identifier, declarators g])]

def functionDeclaration (g : Grammar) : Rule :=
  first [
    node .functionDeclaration (all [
      optional asynchronous, "function", field .name identifier, signature g,
      field .body g.block]),
    node .generatorFunctionDeclaration (all [
      optional asynchronous, "function", "*", field .name identifier, signature g,
      field .body g.block]),
    g.typed (node .functionSignature (all [
      optional asynchronous, "function", optional "*", field .name identifier, signature g,
      signatureEnd g.dialect]))]

def classDeclaration (g : Grammar) : Rule :=
  first [
    node .classDeclaration (all [decorators g, "class", className g, classRest g]),
    g.typed (node .abstractClassDeclaration (all [
      decorators g, "abstract", sameLine, "class", className g, classRest g]))]

def enumDeclaration (g : Grammar) : Rule :=
  node .enumDeclaration (all [
    optional "const", "enum", field .name identifier,
    field .body (node .enumBody (between "\x7b" (listed (first [
      node .enumAssignment (all [field .name g.propertyName, initializer g]),
      field .name g.propertyName])) "\x7d"))])

/-- A path of names of values. -/
def namePath : Rule := all [identifier, many memberAccess]

def namespaceDeclaration (g : Grammar) : Rule :=
  node .namespaceDeclaration (all [
    first ["namespace", "module"], sameLine, field .name (first [string, namePath]),
    first [field .body g.block, semicolon g.dialect false]])

/-- Declarations that only dialects with types have. -/
def typeDeclaration (g : Grammar) : Rule :=
  first [
    node .typeAliasDeclaration (all [
      "type", sameLine, field .name (name .typeIdentifier), optional (typeParameters g),
      operator ["="], field .value g.type, semicolon g.dialect false]),
    node .interfaceDeclaration (all [
      "interface", sameLine, field .name (name .typeIdentifier), optional (typeParameters g),
      optional (all ["extends", separated g.type]),
      field .body (objectType g)]),
    enumDeclaration g,
    namespaceDeclaration g,
    node .importAlias (all [
      "import", identifier, operator ["="],
      unlessAhead (all ["require", "("]),
      namePath, semicolon g.dialect false])]

def declaration (g : Grammar) : Rule :=
  first [
    functionDeclaration g,
    classDeclaration g,
    g.typed (typeDeclaration g),
    variableDeclaration g]

/-- A declaration of something that exists elsewhere. -/
def ambientDeclaration (g : Grammar) : Rule :=
  node .ambientDeclaration (all ["declare", sameLine, first [
    declaration g,
    all ["global", g.block]]])

end Rebundle.Grammar
