import Rebundle.Syntax.Grammar.Module

/-!
# Statements
-/

namespace Rebundle.Grammar

open Rule

/-- A token that no statement can begin with at this place: a lexeme, or what is opened and not
closed up to the end of its line. -/
def strayToken : Rule :=
  let restOfLine (runes : List Rune) : Nat := (runes.takeWhile Lexeme.staysInLine).length
  first [
    string,
    lexeme (.token "") fun runes =>
      if Semicolon.startsWith "\"'/" runes then restOfLine runes else 0,
    anyName .identifier,
    privateName,
    lexeme .number Lexeme.number,
    lexeme (.token "") fun runes => (Lexeme.operator runes).length,
    lexeme (.token "") fun runes =>
      match runes with
      | r :: rest => if Rune.isStop r.char then restOfLine rest + 1 else 1
      | [] => 0]

/-- Tokens that are passed over, up to the next statement or closing brace. -/
def stray (g : Grammar) (closing : Rule) : Rule :=
  node .error (many1 (all [unlessAhead (first [closing, g.statement]), strayToken]))

/-- A row of statements up to a closing token; what cannot be read is passed over if the grammar is
lenient. -/
def statements (g : Grammar) (closing : Rule) : Rule :=
  many (if g.lenient then first [g.statement, stray g closing] else g.statement)

def blockRule (g : Grammar) : Rule :=
  node .statementBlock (all [
    "\x7b", within false (statements g "\x7d"), "\x7d", closingComments g.dialect])

def switchCase (g : Grammar) : Rule :=
  let closing : Rule := first ["case", "default", "\x7d"]
  first [
    node .switchCase (all ["case", field .value g.expressions, ":", statements g closing]),
    node .switchDefault (all ["default", ":", statements g closing])]

def switchStatement (g : Grammar) : Rule :=
  node .switchStatement (all [
    "switch", field .value (parenthesized g),
    field .body (node .switchBody (all ["\x7b", within false (many (switchCase g)), "\x7d"]))])

def emptyStatement : Rule := node .emptyStatement ";"

def forStatement (g : Grammar) : Rule :=
  let condition : Rule := first [all [g.expressions, ";"], emptyStatement]
  node .forStatement (all [
    "for",
    between "(" (all [first [variableDeclaration g, condition], condition, optional g.expressions])
      ")",
    field .body g.statement])

def forInStatement (g : Grammar) : Rule :=
  let left : Rule := first [
    all [
      field .kind (first ["let", "const", "var", "using"]), field .left (bound g),
      optional (g.typed (typeAscription g)), optional (initializer g)],
    field .left (first [
      destructuring g,
      all [chainRule g true, lastIs [.identifier, .undefined, .memberExpression, .subscriptExpression,
        .parenthesizedExpression, .nonNullExpression]]])]
  node .forInStatement (all [
    "for", optional "await",
    between "(" (all [left, first ["in", "of"], g.expressions]) ")",
    field .body g.statement])

def tryStatement (g : Grammar) : Rule :=
  node .tryStatement (all [
    "try", field .body g.block,
    optional (node .catchClause (all [
      "catch",
      optional (between "(" (all [
        field .parameter (bound g), optional (g.typed (typeAscription g))]) ")"),
      field .body g.block])),
    optional (node .finallyClause (all ["finally", field .body g.block]))])

/-- A jump with its label or its value. -/
def jump (g : Grammar) : Rule :=
  let label : Rule := name .statementIdentifier
  let plain (text : String) : Rule := all [text, semicolon g.dialect false]
  first [
    node .breakStatement (first [plain "break", all ["break", label, semicolon g.dialect false]]),
    node .continueStatement
      (first [plain "continue", all ["continue", label, semicolon g.dialect false]]),
    node .returnStatement
      (first [plain "return", all ["return", g.expressions, semicolon g.dialect true]]),
    node .throwStatement (all ["throw", g.expressions, semicolon g.dialect true]),
    node .debuggerStatement (plain "debugger")]

/-- Statements with other statements inside. -/
def compound (g : Grammar) : Rule :=
  first [
    node .ifStatement (all [
      "if", parenthesized g, g.statement,
      optional (node .elseClause (all ["else", g.statement]))]),
    switchStatement g,
    forInStatement g,
    forStatement g,
    node .whileStatement (all ["while", parenthesized g, field .body g.statement]),
    node .doStatement (all [
      "do", field .body g.statement, "while", parenthesized g,
      optional (semicolon g.dialect false)]),
    tryStatement g,
    node .withStatement (all ["with", parenthesized g, field .body g.statement]),
    node .labeledStatement (all [name .statementIdentifier, ":", g.statement])]

def expressionStatement (g : Grammar) : Rule :=
  node .expressionStatement (all [g.expressions, semicolon g.dialect true])

def statementRule (g : Grammar) : Rule :=
  first [
    all [blockRule g, unlessAhead (operator ["="])],
    importStatement g,
    exportStatement g,
    g.typed (ambientDeclaration g),
    declaration g,
    compound g,
    jump g,
    emptyStatement,
    expressionStatement g]

end Rebundle.Grammar
