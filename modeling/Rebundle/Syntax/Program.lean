import Rebundle.Syntax.Grammar.Statement

/-!
# Programs

Reading a whole source. Every source has a tree: where the strict grammar stops before the end, the
lenient one passes over what it cannot read.
-/

namespace Rebundle

namespace Grammar

/-- A grammar that refuses everything. -/
def empty (dialect : Dialect) (lenient : Bool) : Grammar :=
  ⟨dialect, lenient, Rule.refuse, Rule.refuse, Rule.refuse, Rule.refuse, Rule.refuse, Rule.refuse,
    Rule.refuse, Rule.refuse, Rule.refuse, Rule.refuse, Rule.refuse⟩

/-- The grammar whose constructs are nested at most `depth` deep. -/
def ofDepth (dialect : Dialect) (lenient : Bool) : (depth : Nat) → Grammar
  | 0 => empty dialect lenient
  | depth + 1 =>
      { dialect, lenient
        statement := fun s => statementRule (ofDepth dialect lenient depth) s
        block := fun s => blockRule (ofDepth dialect lenient depth) s
        expression := fun s => expressionRule (ofDepth dialect lenient depth) s
        unary := fun s => unaryRule (ofDepth dialect lenient depth) false s
        power := fun s => powerRule (ofDepth dialect lenient depth) false s
        chain := fun s => chainRule (ofDepth dialect lenient depth) true s
        construction := fun s => constructionRule (ofDepth dialect lenient depth) s
        pattern := fun s => patternRule (ofDepth dialect lenient depth) s
        parameters := fun s => parametersRule (ofDepth dialect lenient depth) s
        type := fun s => typeRule (ofDepth dialect lenient depth) s
        markup := fun s => markupRule (ofDepth dialect lenient depth) s }

/-- The statements of a whole source. -/
def program (g : Grammar) : Rule :=
  Rule.all [
    Rule.optional (Rule.lexemeHere .hashBangLine Lexeme.interpreterLine),
    statements g Rule.refuse]

end Grammar

namespace Rule.State

def ofRunes (runes : List Rune) : Rule.State := ⟨runes, 0, [], false⟩

/-- The row of sprouts, if the whole source has been read. -/
def finished? (s : Rule.State) : Option (List Sprout) :=
  let s := Rule.trivia s
  if s.rest.isEmpty then some s.built.reverse else none

end Rule.State

/-- The sprouts of the program that these runes spell; a rule reads at least one rune between two
constructs inside each other, so the number of runes bounds the depth. -/
def Sprout.ofRunes (dialect : Dialect) (runes : List Rune) : List Sprout :=
  let attempt (lenient : Bool) : Option (List Sprout) :=
    ((Grammar.ofDepth dialect lenient (4 * runes.length + 8)).program
      (Rule.State.ofRunes runes)).bind Rule.State.finished?
  match attempt false with
  | some sprouts => sprouts
  | none => (attempt true).getD []

namespace Tree

/-- The program of these sprouts in a source of `length` bytes. It begins with its first part and
ends with the source. -/
def ofSprouts (length : Nat) (sprouts : List Sprout) : Tree :=
  let (trees, _) := Sprout.placeAll 0 sprouts
  .node ⟨.program, none, ⟨Sprout.startOf length trees, length⟩, false⟩ trees

/-- The syntax tree of a source. -/
def ofSource (dialect : Dialect) (source : Bytes) : Tree :=
  ofSprouts source.length (Sprout.ofRunes dialect (Rune.ofBytes source))

end Tree

/-- A parser: the tree of a source in a dialect, or why there is none. -/
abbrev Parser := Dialect → Bytes → Except Text Tree

/-- The parser at hand has a tree for every source. -/
def Parser.standard : Parser := fun dialect source => .ok (Tree.ofSource dialect source)

end Rebundle
