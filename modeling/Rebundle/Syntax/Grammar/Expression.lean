import Rebundle.Syntax.Grammar.Class
import Rebundle.Syntax.Grammar.Literal

/-!
# Expressions

Operands, the chains of members and calls behind them, and the operators in order of how tightly they
bind. An assignment is an operand: whatever stands in front of its left side, its right side reaches
as far as an expression can.
-/

namespace Rebundle.Grammar

open Rule

/-- The operand `import`, called or asked for its own properties. -/
def moduleAccess : Rule :=
  first [
    node .metaProperty (all ["import", operator ["."], word "meta"]),
    all [named .importCallee "import", ahead (first ["(", operator ["."]])]]

/-- An arrow function, tried where one can begin. -/
def arrowValue (g : Grammar) : Rule := arrowFunction g

/-- A pattern that is assigned to. -/
def patternAssignment (g : Grammar) : Rule :=
  all [
    ahead (first ["[", "\x7b"]),
    destructuring g,
    wrapAs .left .assignmentExpression (all [operator ["="], g.expression])]

/-- Operands without what may follow them. -/
def primary (g : Grammar) : Rule :=
  first [
    arrowValue g,
    named .this "this", named .super "super", named .undefined "undefined",
    named .trueLiteral "true", named .falseLiteral "false", named .nullLiteral "null",
    functionValue g,
    classValue g,
    g.construction,
    moduleAccess,
    identifier,
    lexeme .number Lexeme.number,
    string,
    template g,
    parenthesized g,
    patternAssignment g,
    array g,
    object g,
    lexeme .regex Lexeme.regex,
    all [privateName, ahead "in"],
    if g.dialect.hasMarkup then g.markup else refuse]

/-- A `new` with its constructor, which may be a member but not a call. -/
def constructionRule (g : Grammar) : Rule :=
  first [
    node .metaProperty (all ["new", operator ["."], word "target"]),
    node .newExpression (all [
      "new",
      primary g,
      many (first [memberAccess, subscriptAccess g]),
      optional (g.typed (typeArguments g)),
      optional (arguments g)])]

/-- A call of what was read last. -/
def call (g : Grammar) : Rule :=
  wrapAs .callee .callExpression (all [
    optional (all [node .optionalChain (operator ["?."]), optional (g.typed (typeArguments g))]),
    arguments g])

/-- A call of what was read last, with type arguments. -/
def typedCall (g : Grammar) : Rule :=
  g.typed (wrapAs .callee .callExpression (all [typeArguments g, arguments g]))

/-- A template that is handed to what was read last. -/
def taggedTemplate (g : Grammar) : Rule :=
  wrapAs .callee .callExpression (all [optional (g.typed (typeArguments g)), template g])

/-- A member or a call of what was read last. Behind an operator a call with type arguments is left
for what the operator makes. -/
def link (g : Grammar) (leading : Bool) : Rule :=
  first [
    memberAccess,
    subscriptAccess g,
    call g,
    if leading then typedCall g else refuse,
    taggedTemplate g,
    g.typed (wrap .nonNullExpression (all [sameLine, operator ["!"]]))]

/-- Members and calls behind an operand. -/
def links (g : Grammar) (leading : Bool) : Rule := many (link g leading)

def chainRule (g : Grammar) (leading : Bool) : Rule := all [primary g, links g leading]

/-- A step up or down of what was read last. -/
def stepBehind : Rule := wrap .updateExpression (all [sameLine, operator ["++", "--"]])

def assignments : List String :=
  ["+=", "-=", "*=", "/=", "%=", "^=", "&=", "|=", ">>=", ">>>=", "<<=", "**=", "&&=", "||=", "??="]

/-- What may follow an operand: a step up or down, or an assignment. -/
def change (g : Grammar) : Rule :=
  optional (first [
    stepBehind,
    all [
      lastIs [.identifier, .undefined, .memberExpression, .subscriptExpression,
        .parenthesizedExpression, .nonNullExpression],
      first [
        wrapAs .left .assignmentExpression (all [operator ["="], g.expression]),
        wrapAs .left .augmentedAssignmentExpression (all [operator assignments, g.expression])]]])

def operand (g : Grammar) (leading : Bool) : Rule := all [chainRule g leading, change g]

/-- The word `await` as a name: brackets follow it, and a member or a call of what they hold. -/
def awaitName (g : Grammar) (leading : Bool) : Rule :=
  all [
    named .identifier "await",
    first [call g, subscriptAccess g, taggedTemplate g],
    first [all [link g leading, links g leading], ahead stepBehind],
    change g]

/-- An operand with the operators in front of it. -/
def unaryRule (g : Grammar) (leading : Bool) : Rule :=
  first [
    node .unaryExpression (all [
      first [operator ["!", "~", "-", "+"], "typeof", "void", "delete"], g.unary]),
    node .updateExpression (all [operator ["++", "--"], g.unary]),
    awaitName g leading,
    node .awaitExpression (all ["await", g.goesOn, g.unary]),
    node .yieldExpression (all ["yield", first [
      all [operator ["*"], g.expression],
      all [g.goesOn, g.expression],
      skip]]),
    if g.dialect = .typescript then
      all [
        ahead "<",
        first [
          arrowFunction g,
          node .castExpression (all [typeArguments g, g.unary])]]
    else refuse,
    operand g leading]

/-- A unary operand, perhaps raised to a power. -/
def powerRule (g : Grammar) (leading : Bool) : Rule :=
  all [unaryRule g leading, optional (wrap .binaryExpression (all [operator ["**"], g.power]))]

/-- Operators that bind equally: punctuation and words. -/
structure Level where
  signs : List String
  words : List String

/-- The levels of binary operators, the loosest first. -/
def levels : List Level :=
  [⟨["??"], []⟩, ⟨["||"], []⟩, ⟨["&&"], []⟩, ⟨["|"], []⟩, ⟨["^"], []⟩, ⟨["&"], []⟩,
   ⟨["==", "===", "!=", "!=="], []⟩, ⟨["<", "<=", ">", ">="], ["instanceof", "in"]⟩,
   ⟨["<<", ">>", ">>>"], []⟩, ⟨["+", "-"], []⟩, ⟨["*", "/", "%"], []⟩]

/-- Type annotations that stand behind an operand like an operator. -/
def typeOperation (g : Grammar) : Rule :=
  wrap .castExpression (all [sameLine, first [
    all ["as", first ["const", g.type]],
    all ["satisfies", g.type]]])

/-- Operands joined by the operators of these levels, behind the first operand or behind the
beginning of one. -/
def joined (g : Grammar) (first? : Option Bool) : List Level → Rule
  | [] =>
      match first? with
      | some leading => powerRule g leading
      | none => skip
  | level :: tighter =>
      let operator : Rule := first [operator level.signs, first (level.words.map word)]
      all [
        joined g first? tighter,
        many (first [
          all [
            if level.signs.contains "<" then unlessAhead (typedCall g) else skip,
            wrap .binaryExpression (all [operator, joined g (some false) tighter])],
          if level.words.isEmpty then refuse else g.typed (typeOperation g)])]

/-- A call with type arguments calls all that stands in front of it, operators included, and the
expression goes on behind it. -/
def expressionRule (g : Grammar) : Rule :=
  all [
    joined g (some true) levels,
    many (all [typedCall g, links g true, joined g none levels]),
    optional (wrap .ternaryExpression
      (all [operator ["?"], g.expression, ":", g.expression]))]

end Rebundle.Grammar
