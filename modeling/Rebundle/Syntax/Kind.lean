/-!
# Node kinds

The kinds of the nodes of a syntax tree. Keywords and punctuation are nodes too; their kind is their
text, so a keyword may share its name with a construct and still be told apart from it here.
-/

namespace Rebundle

inductive Kind where
  | token (text : String)
  | error
  -- Program and trivia
  | program | comment | hashBangLine
  -- Statements
  | expressionStatement | emptyStatement | statementBlock | ifStatement | elseClause
  | switchStatement | switchBody | switchCase | switchDefault
  | forStatement | forInStatement | whileStatement | doStatement
  | tryStatement | catchClause | finallyClause | withStatement | labeledStatement
  | breakStatement | continueStatement | returnStatement | throwStatement | debuggerStatement
  -- Declarations
  | variableDeclaration | lexicalDeclaration | usingDeclaration | variableDeclarator
  | functionDeclaration | generatorFunctionDeclaration | classDeclaration | abstractClassDeclaration
  | functionSignature
  -- Modules
  | importStatement | importClause | namespaceImport | namedImports | importSpecifier
  | importAttribute | importRequireClause | importAlias
  | exportStatement | exportClause | exportSpecifier | namespaceExport
  -- Names
  | identifier | propertyIdentifier | privatePropertyIdentifier | shorthandPropertyIdentifier
  | shorthandPropertyIdentifierPattern | statementIdentifier | typeIdentifier
  | this | super | undefined
  -- Literals
  | number | string | regex | trueLiteral | falseLiteral | nullLiteral
  | templateString | templateFragment | templateSubstitution
  | array | object | pair | spreadElement | computedPropertyName
  -- Functions and classes
  | functionExpression | generatorFunction | arrowFunction | methodDefinition | formalParameters
  | classExpression | classBody | classHeritage | fieldDefinition | classStaticBlock | decorator
  -- Patterns
  | objectPattern | arrayPattern | pairPattern | objectAssignmentPattern | assignmentPattern
  | restPattern
  -- Expressions
  | parenthesizedExpression | sequenceExpression | assignmentExpression
  | augmentedAssignmentExpression | ternaryExpression | binaryExpression | unaryExpression
  | updateExpression | awaitExpression | yieldExpression | newExpression | callExpression
  | memberExpression | subscriptExpression | optionalChain | arguments | metaProperty | importCallee
  -- Markup
  | markupElement | markupOpening | markupClosing | markupSelfClosing | markupAttribute
  | markupExpression | markupText | markupNamespaceName
  -- Types
  | requiredParameter | optionalParameter | typeAscription | typeParameters | typeArguments
  | typeExpression | typeQuery | nestedTypeIdentifier | objectType | propertySignature
  | methodSignature | indexSignature | publicFieldDefinition
  | castExpression | nonNullExpression | instantiationExpression
  | typeAliasDeclaration | interfaceDeclaration | enumDeclaration | enumBody | enumAssignment
  | namespaceDeclaration | ambientDeclaration
deriving DecidableEq

namespace Kind

/-- Whether a node of this kind is a construct, rather than a keyword or punctuation. -/
def isNamed : Kind → Bool
  | .token _ => false
  | _ => true

end Kind

end Rebundle
