import Rebundle.Syntax.Grammar

/-!
# Patterns

What a declaration, a parameter or an assignment binds: names, members, and patterns that take
objects and arrays apart.
-/

namespace Rebundle.Grammar

open Rule

/-- A pattern with an optional default. -/
def defaulted (g : Grammar) (pattern : Rule) : Rule :=
  all [pattern, optional (wrapAs .left .assignmentPattern (all [operator ["="], g.expression]))]

/-- A name or a chain of members. -/
def reference (g : Grammar) : Rule :=
  all [
    first [named .this "this", named .super "super", named .undefined "undefined", identifier],
    many (first [memberAccess, g.subscriptAccess])]

def objectPattern (g : Grammar) : Rule :=
  node .objectPattern (between "\x7b" (sparse (first [
    node .restPattern (all ["...", first [g.pattern, reference g]]),
    node .pairPattern (all [g.propertyName, ":", field .value (defaulted g g.pattern)]),
    node .objectAssignmentPattern
      (all [field .left (name .shorthandPropertyIdentifierPattern), operator ["="], g.expression]),
    name .shorthandPropertyIdentifierPattern])) "\x7d")

def arrayPattern (g : Grammar) : Rule :=
  node .arrayPattern (between "[" (sparse (defaulted g g.pattern)) "]")

/-- A pattern that takes a value apart. -/
def destructuring (g : Grammar) : Rule := first [objectPattern g, arrayPattern g]

def restPattern (g : Grammar) : Rule :=
  node .restPattern (all ["...", first [destructuring g, reference g]])

def patternRule (g : Grammar) : Rule := first [restPattern g, destructuring g, reference g]

/-- What a declaration binds. -/
def bound (g : Grammar) : Rule := first [destructuring g, identifier]

end Rebundle.Grammar
