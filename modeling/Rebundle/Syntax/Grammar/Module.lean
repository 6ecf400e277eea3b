import Rebundle.Syntax.Grammar.Declaration

/-!
# Imports and exports
-/

namespace Rebundle.Grammar

open Rule

/-- A name under which a module gives something away. -/
def moduleName : Rule := first [string, named (.token "default") "default", identifier]

/-- Attributes of the module asked for. -/
def importAttribute (g : Grammar) : Rule :=
  node .importAttribute (all [first ["with", "assert"], object g])

def source : Rule := all ["from", field .source string]

/-- The end of a statement behind the name of a module. -/
def moduleEnd (g : Grammar) : Rule :=
  all [optional (importAttribute g), semicolon g.dialect false]

def importSpecifier (g : Grammar) : Rule :=
  let pair : Rule := all [field .name moduleName, "as", field .alias identifier]
  first [
    node .importSpecifier pair,
    g.typed (node .importSpecifier (all [first ["type", "typeof"], pair])),
    g.typed (node .importSpecifier (all [first ["type", "typeof"], field .name identifier])),
    node .importSpecifier (field .name identifier)]

def importClause (g : Grammar) : Rule :=
  let several : Rule := first [
    node .namespaceImport (all ["*", "as", identifier]),
    node .namedImports (between "\x7b" (listed (importSpecifier g)) "\x7d")]
  node .importClause (first [several, all [identifier, optional (all [",", several])]])

def importRequireClause : Rule :=
  node .importRequireClause (all [
    identifier, operator ["="], "require", "(", field .source string, ")"])

def importStatement (g : Grammar) : Rule :=
  let body : Rule := all [
    first [all [importClause g, source], g.typed importRequireClause, field .source string],
    moduleEnd g]
  first [
    node .importStatement (all ["import", body]),
    g.typed (node .importStatement (all ["import", first ["type", "typeof"], body]))]

def exportClause (g : Grammar) : Rule :=
  let pair : Rule := all [
    field .name moduleName, optional (all ["as", field .alias (first [moduleName, anyName .identifier])])]
  let item : Rule := first [
    all [node .exportSpecifier pair, ahead (first [",", "\x7d"])],
    g.typed (node .exportSpecifier (all [first ["type", "typeof"], pair]))]
  node .exportClause (between "\x7b" (listed item) "\x7d")

/-- What a default export gives away. -/
def exportedDefault (g : Grammar) : Rule :=
  first [
    functionDeclaration g,
    classDeclaration g,
    g.typed (typeDeclaration g),
    all [field .value g.expression, semicolon g.dialect true]]

def exportStatement (g : Grammar) : Rule :=
  let clause : Rule := all [exportClause g, optional source]
  let keyword : Rule := all ["export", g.goesOn]
  first [
    node .exportStatement (all [keyword, first [
      all ["*", optional (node .namespaceExport (all ["as", first [moduleName, anyName .identifier]])),
        source],
      clause], moduleEnd g]),
    node .exportStatement (all [decorators g, keyword, first [
      all ["default", exportedDefault g],
      declaration g,
      g.typed (ambientDeclaration g)]]),
    g.typed (node .exportStatement (all [keyword, first [
      all ["type", clause, moduleEnd g],
      all [operator ["="], g.expression, semicolon g.dialect true],
      all ["as", "namespace", identifier, semicolon g.dialect false]]]))]

end Rebundle.Grammar
