import Rebundle.Proofs.Syntax.Keeping
import Rebundle.Proofs.Text.Decoding
import Rebundle.Syntax.Program

/-!
# The grammar builds regular trees

Every rule of the grammar keeps the rows of the constructs in which it is read, if the grammar of the constructs inside
does. By induction on the depth all grammars do, and the tree of every source is regular.
-/

set_option synthInstance.maxSize 1024

namespace Rebundle

namespace Grammar

open Rule

/-- Grammars with rules that keep the rows of all constructs in which they are read, and whose blocks are not empty. -/
class Regular (g : Grammar) : Prop where
  statement : ∀ {kind : Kind} [kind.Open], Keeps kind g.statement
  block : ∀ {kind : Kind} [kind.Open], Keeps kind g.block
  solidBlock : ∀ {kind : Kind} [kind.Open], Adds kind 1 g.block
  expression : ∀ {kind : Kind} [kind.Open], Keeps kind g.expression
  unary : ∀ {kind : Kind} [kind.Open], Keeps kind g.unary
  power : ∀ {kind : Kind} [kind.Open], Keeps kind g.power
  chain : ∀ {kind : Kind} [kind.Open], Keeps kind g.chain
  construction : ∀ {kind : Kind} [kind.Open], Keeps kind g.construction
  pattern : ∀ {kind : Kind} [kind.Open], Keeps kind g.pattern
  parameters : ∀ {kind : Kind} [kind.Open], Keeps kind g.parameters
  type : ∀ {kind : Kind} [kind.Open], Keeps kind g.type
  markup : ∀ {kind : Kind} [kind.Open], Keeps kind g.markup

attribute [instance] Regular.statement Regular.block Regular.solidBlock Regular.expression Regular.unary Regular.power
  Regular.chain Regular.construction Regular.pattern Regular.parameters Regular.type Regular.markup

/-! ## Words that constructs begin with -/

instance : Spelled "function" := ⟨by decide⟩

instance : Spelled "=>" := ⟨by decide⟩

instance : Spelled "class" := ⟨by decide⟩

instance : Spelled "static" := ⟨by decide⟩

instance : Spelled "for" := ⟨by decide⟩

instance : Spelled "catch" := ⟨by decide⟩

instance : Spelled "(" := ⟨by decide⟩

instance : Spelled "\x7b" := ⟨by decide⟩

instance : Spelled "\x7d" := ⟨by decide⟩

/-! ## Names -/

section

variable {kind leaf : Kind} {text : String}

instance : Ends .leaf (name leaf) := inferInstanceAs (Ends .leaf (lexeme leaf _))

instance : Ends .leaf (anyName leaf) := inferInstanceAs (Ends .leaf (lexeme leaf _))

instance : Ends .leaf identifier := inferInstanceAs (Ends .leaf (name .identifier))

instance : Ends .name (name .identifier) := ends_lexeme (show Demand.name.Met .identifier true from rfl)

instance : Ends .name identifier := inferInstanceAs (Ends .name (name .identifier))

instance : Ends .name (name .typeIdentifier) := ends_lexeme (show Demand.name.Met .typeIdentifier true from rfl)

instance : Ends .leaf string := inferInstanceAs (Ends .leaf (lexeme .string Lexeme.string))

/-- A word that stands for something is a lexeme of its own. -/
theorem named_eq (leaf : Kind) (text : String) : named leaf text = lexeme leaf fun runes =>
    if Rune.spells text.toList runes && Rune.nameLength runes == text.toList.length then text.toList.length
    else 0 := by
  funext s
  rw [named, word]
  rw [lexeme, lexeme, lexemeHere, lexemeHere]
  split
  · rfl
  · rfl

instance : Ends .leaf (named leaf text) := by
  rw [named_eq]
  infer_instance

variable [kind.Parent]

instance : Keeps kind (name leaf) := keeps_lexeme fun _ => rfl

instance : Keeps kind (anyName leaf) := keeps_lexeme fun _ => rfl

instance : Keeps kind identifier := inferInstanceAs (Keeps kind (name .identifier))

instance : Keeps kind (dashedName leaf) := keeps_lexeme fun _ => rfl

instance : Keeps kind (named leaf text) := by
  rw [named_eq]
  exact keeps_lexeme fun _ => measure_word text.toList

instance : Keeps kind string := inferInstanceAs (Keeps kind (lexeme .string Lexeme.string))

instance : Keeps kind privateName := inferInstanceAs (Keeps kind (lexeme .privatePropertyIdentifier Lexeme.privateName))

end

/-! ## Parts of constructs -/

section

variable {g : Grammar} {kind : Kind} {rule : Rule}

instance [Keeps kind rule] : Keeps kind (g.typed rule) := by
  unfold typed
  infer_instance

instance : Keeps kind g.goesOn := by
  unfold goesOn
  infer_instance

variable [g.Regular] [kind.Open]

instance : Keeps kind g.expressions := by
  unfold expressions
  infer_instance

instance : Keeps kind g.propertyName := by
  unfold propertyName
  infer_instance

instance : Keeps kind g.typeAscription := by
  unfold typeAscription
  infer_instance

instance : Keeps kind g.parenthesized := by
  unfold parenthesized
  infer_instance

instance : Keeps kind memberAccess := by
  unfold memberAccess
  infer_instance

instance : Keeps kind g.subscriptAccess := by
  unfold subscriptAccess
  infer_instance

instance [kind.Free] : Keeps kind g.initializer := by
  unfold initializer
  infer_instance

end

/-! ## Patterns -/

section

variable {g : Grammar} [g.Regular] {kind : Kind} [kind.Open] {pattern : Rule}

instance [Keeps kind pattern] : Keeps kind (defaulted g pattern) := by
  unfold defaulted
  infer_instance

instance : Keeps kind (reference g) := by
  unfold reference
  infer_instance

instance : Keeps kind (objectPattern g) := by
  unfold objectPattern
  infer_instance

instance : Keeps kind (arrayPattern g) := by
  unfold arrayPattern
  infer_instance

instance : Keeps kind (destructuring g) := by
  unfold destructuring
  infer_instance

instance : Keeps kind (restPattern g) := by
  unfold restPattern
  infer_instance

instance : Keeps kind (patternRule g) := by
  unfold patternRule
  infer_instance

instance : Keeps kind (bound g) := by
  unfold bound
  infer_instance

end

/-! ## Types -/

section

variable {g : Grammar} [g.Regular] {kind : Kind} [kind.Open]

instance : Keeps kind (typeArguments g) := by
  unfold typeArguments
  infer_instance

instance : Keeps kind (typeParameter g) := by
  unfold typeParameter
  infer_instance

instance : Keeps kind (typeParameters g) := by
  unfold typeParameters
  infer_instance

instance : Keeps kind (predicate g) := by
  unfold predicate
  infer_instance

instance : Keeps kind (returnType g) := by
  unfold returnType
  infer_instance

instance : Keeps kind (functionType g) := by
  unfold functionType
  infer_instance

instance : Keeps kind importCall := by
  unfold importCall
  infer_instance

instance : Keeps kind (typeName g) := by
  unfold typeName
  infer_instance

instance : Keeps kind (typeQuery g) := by
  unfold typeQuery
  infer_instance

instance : Keeps kind (memberEnd g) := by
  unfold memberEnd
  infer_instance

instance : Keeps kind (indexSignature g) := by
  unfold indexSignature
  infer_instance

instance [kind.Free] : Keeps kind (typeSignature g) := by
  unfold typeSignature
  infer_instance

instance : Keeps kind (objectTypeMember g) := by
  unfold objectTypeMember
  dsimp only
  infer_instance

instance : Keeps kind (objectType g) := by
  unfold objectType
  infer_instance

instance : Keeps kind (tupleMember g) := by
  unfold tupleMember
  infer_instance

instance : Keeps kind predefined := by
  unfold predefined
  infer_instance

instance : Keeps kind literalType := by
  unfold literalType
  infer_instance

instance : Keeps kind (templateType g) := by
  unfold templateType
  infer_instance

instance : Keeps kind (simpleType g) := by
  unfold simpleType
  infer_instance

instance : Keeps kind (indexedType g) := by
  unfold indexedType
  infer_instance

instance : Keeps kind (operatedType g) := by
  unfold operatedType
  infer_instance

instance : Keeps kind (intersectionType g) := by
  unfold intersectionType
  infer_instance

instance : Keeps kind (unionType g) := by
  unfold unionType
  infer_instance

instance : Keeps kind (typeRule g) := by
  unfold typeRule
  infer_instance

end

/-! ## Functions and classes -/

section

variable {g : Grammar} [g.Regular] {kind : Kind} [kind.Open] {text : String} {modifiers : List String} {valued : Bool}

instance : Keeps kind (arguments g) := by
  unfold arguments
  infer_instance

instance : Keeps kind (decorator g) := by
  unfold decorator
  infer_instance

instance : Keeps kind (decorators g) := by
  unfold decorators
  infer_instance

instance : Keeps kind (modifier text) := by
  unfold modifier
  infer_instance

instance : Keeps kind (plainParameter g) := by
  unfold plainParameter
  infer_instance

instance : Keeps kind (typedParameter g) := by
  unfold typedParameter
  dsimp only
  infer_instance

instance : Keeps kind (parametersRule g) := by
  unfold parametersRule
  infer_instance

instance : Keeps kind (signature g) := by
  have parameters : Ends .parameters (parametersRule g) := ends_node rfl
  have row : Keeps kind (field .parameters (parametersRule g)) := by
    refine @keeps_field kind .parameters _ _ _ parameters ?_
    rintro child _ rfl
    exact Kind.Open.parameters
  unfold signature
  infer_instance

instance : Keeps kind asynchronous := by
  unfold asynchronous
  infer_instance

instance : Keeps kind (functionValue g) := by
  unfold functionValue
  infer_instance

instance : Keeps kind (arrowFunction g) := by
  unfold arrowFunction
  infer_instance

instance : Keeps kind (memberDecorators g) := by
  unfold memberDecorators
  infer_instance

instance : Keeps kind (method g modifiers) := by
  unfold method
  infer_instance

instance : Keeps kind (staticBlock g) := by
  unfold staticBlock
  infer_instance

instance : Keeps kind (fieldDefinition g valued) := by
  unfold fieldDefinition
  infer_instance

instance : Keeps kind (methodSignature g) := by
  unfold methodSignature
  infer_instance

instance : Keeps kind (classMember g) := by
  unfold classMember
  infer_instance

instance : Keeps kind (classBody g) := by
  unfold classBody
  infer_instance

instance : Keeps kind (classHeritage g) := by
  unfold classHeritage
  infer_instance

instance : Keeps kind (className g) := by
  unfold className
  exact keeps_field fun _ _ met => Kind.Open.name met

instance : Keeps kind (classRest g) := by
  have body : Keeps kind (field .body (classBody g)) := keeps_field fun _ _ => by rw [Kind.Open.body]; exact id
  unfold classRest
  infer_instance

instance : Keeps kind (classValue g) := by
  unfold classValue
  infer_instance

end

/-! ## Literals -/

section

variable {g : Grammar} [g.Regular] {kind : Kind} [kind.Open]

instance : Keeps kind templateEnd := by
  unfold templateEnd
  infer_instance

instance : Keeps kind (template g) := by
  unfold template
  infer_instance

instance : Keeps kind (spread g) := by
  unfold spread
  infer_instance

instance : Keeps kind (array g) := by
  unfold array
  infer_instance

instance : Keeps kind (object g) := by
  unfold object
  infer_instance

instance : Keeps kind namespacedName := by
  unfold namespacedName
  infer_instance

instance : Keeps kind elementName := by
  unfold elementName
  infer_instance

instance : Keeps kind (markupExpression g) := by
  unfold markupExpression
  infer_instance

instance : Keeps kind (markupAttribute g) := by
  unfold markupAttribute
  infer_instance

instance : Keeps kind (tagRest g) := by
  unfold tagRest
  infer_instance

instance : Keeps kind (markupRule g) := by
  unfold markupRule
  infer_instance

end

/-! ## Expressions -/

section

variable {g : Grammar} [g.Regular] {kind : Kind} [kind.Open] {leading : Bool} {first? : Option Bool} {row : List Level}

instance : Keeps kind moduleAccess := by
  unfold moduleAccess
  infer_instance

instance : Keeps kind (arrowValue g) := by
  unfold arrowValue
  infer_instance

instance : Keeps kind (patternAssignment g) := by
  unfold patternAssignment
  infer_instance

instance : Keeps kind (primary g) := by
  unfold primary
  infer_instance

instance : Keeps kind (constructionRule g) := by
  unfold constructionRule
  infer_instance

instance : Keeps kind (call g) := by
  unfold call
  infer_instance

instance : Keeps kind (typedCall g) := by
  unfold typedCall
  infer_instance

instance : Keeps kind (taggedTemplate g) := by
  unfold taggedTemplate
  infer_instance

instance : Keeps kind (link g leading) := by
  unfold link
  infer_instance

instance : Keeps kind (links g leading) := by
  unfold links
  infer_instance

instance : Keeps kind (chainRule g leading) := by
  unfold chainRule
  infer_instance

instance : Keeps kind stepBehind := by
  unfold stepBehind
  infer_instance

instance : Keeps kind (change g) := by
  unfold change
  infer_instance

instance : Keeps kind (operand g leading) := by
  unfold operand
  infer_instance

instance : Keeps kind (awaitName g leading) := by
  unfold awaitName
  infer_instance

instance : Keeps kind (unaryRule g leading) := by
  unfold unaryRule
  infer_instance

instance : Keeps kind (powerRule g leading) := by
  unfold powerRule
  infer_instance

instance : Keeps kind (typeOperation g) := by
  unfold typeOperation
  infer_instance

instance : Keeps kind (joined g first? row) := by
  induction row generalizing kind first? with
  | nil =>
      cases first? with
      | none => exact inferInstanceAs (Keeps kind skip)
      | some leading => exact inferInstanceAs (Keeps kind (powerRule g leading))
  | cons level tighter ih =>
      rw [joined]
      infer_instance

instance : Keeps kind (expressionRule g) := by
  unfold expressionRule
  infer_instance

end

/-! ## Declarations -/

section

variable {g : Grammar} [g.Regular] {kind : Kind} [kind.Open]

instance : Keeps kind (brokenInitializer g) := by
  unfold brokenInitializer
  infer_instance

instance : Keeps kind (declarator g) := by
  unfold declarator
  infer_instance

instance : Keeps kind (declarators g) := by
  unfold declarators
  infer_instance

instance : Keeps kind (variableDeclaration g) := by
  unfold variableDeclaration
  infer_instance

instance : Keeps kind (functionDeclaration g) := by
  unfold functionDeclaration
  infer_instance

instance : Keeps kind (classDeclaration g) := by
  unfold classDeclaration
  infer_instance

instance : Keeps kind (enumDeclaration g) := by
  unfold enumDeclaration
  infer_instance

instance : Keeps kind namePath := by
  unfold namePath
  infer_instance

instance : Keeps kind (namespaceDeclaration g) := by
  unfold namespaceDeclaration
  infer_instance

instance : Keeps kind (typeDeclaration g) := by
  unfold typeDeclaration
  infer_instance

instance : Keeps kind (declaration g) := by
  unfold declaration
  infer_instance

instance : Keeps kind (ambientDeclaration g) := by
  unfold ambientDeclaration
  infer_instance

end

/-! ## Modules -/

section

variable {g : Grammar} [g.Regular] {kind : Kind} [kind.Open]

instance : Keeps kind (importAttribute g) := by
  unfold importAttribute
  infer_instance

instance : Ends .leaf moduleName := by
  unfold moduleName
  infer_instance

instance [kind.Parent] : Keeps kind moduleName := by
  unfold moduleName
  infer_instance

instance [kind.Free] : Keeps kind source := by
  unfold source
  infer_instance

instance : Keeps kind (moduleEnd g) := by
  unfold moduleEnd
  infer_instance

instance : Keeps kind (importSpecifier g) := by
  unfold importSpecifier
  infer_instance

instance : Keeps kind (importClause g) := by
  unfold importClause
  infer_instance

instance : Keeps kind importRequireClause := by
  unfold importRequireClause
  infer_instance

instance : Keeps kind (importStatement g) := by
  unfold importStatement
  infer_instance

instance : Keeps kind (exportClause g) := by
  unfold exportClause
  infer_instance

instance [kind.Free] : Keeps kind (exportedDefault g) := by
  unfold exportedDefault
  infer_instance

instance : Keeps kind (exportStatement g) := by
  unfold exportStatement
  infer_instance

end

/-! ## Statements -/

section

variable {g : Grammar} [g.Regular] {kind : Kind} [kind.Open] {closing : Rule}

instance : Keeps kind strayToken := by
  unfold strayToken
  infer_instance

instance : Keeps kind (stray g closing) := by
  unfold stray
  infer_instance

instance : Keeps kind (statements g closing) := by
  unfold statements
  infer_instance

instance : Keeps kind (blockRule g) := by
  unfold blockRule
  infer_instance

instance : Adds kind 1 (blockRule g) := by
  unfold blockRule
  infer_instance

instance : Keeps kind (switchCase g) := by
  unfold switchCase
  infer_instance

instance : Keeps kind (switchStatement g) := by
  unfold switchStatement
  infer_instance

instance : Keeps kind emptyStatement := by
  unfold emptyStatement
  infer_instance

instance : Keeps kind (forStatement g) := by
  unfold forStatement
  infer_instance

instance : Keeps kind (forInStatement g) := by
  unfold forInStatement
  infer_instance

instance : Keeps kind (tryStatement g) := by
  unfold tryStatement
  infer_instance

instance : Keeps kind (jump g) := by
  unfold jump
  infer_instance

instance : Keeps kind (compound g) := by
  unfold compound
  infer_instance

instance : Keeps kind (expressionStatement g) := by
  unfold expressionStatement
  infer_instance

instance : Keeps kind (statementRule g) := by
  unfold statementRule
  infer_instance

instance : Keeps kind (program g) := by
  unfold program
  infer_instance

end

/-! ## Programs -/

instance {dialect : Dialect} {lenient : Bool} : (empty dialect lenient).Regular := by
  constructor
  case solidBlock =>
    intro kind _
    exact ⟨nofun⟩
  all_goals
    intro kind _
    exact inferInstanceAs (Keeps kind refuse)

instance {dialect : Dialect} {lenient : Bool} {depth : Nat} : (ofDepth dialect lenient depth).Regular := by
  induction depth with
  | zero => exact inferInstanceAs (empty dialect lenient).Regular
  | succ depth ih =>
      constructor
      all_goals
        intro kind _
      · exact inferInstanceAs (Keeps kind (statementRule (ofDepth dialect lenient depth)))
      · exact inferInstanceAs (Keeps kind (blockRule (ofDepth dialect lenient depth)))
      · exact inferInstanceAs (Adds kind 1 (blockRule (ofDepth dialect lenient depth)))
      · exact inferInstanceAs (Keeps kind (expressionRule (ofDepth dialect lenient depth)))
      · exact inferInstanceAs (Keeps kind (unaryRule (ofDepth dialect lenient depth) false))
      · exact inferInstanceAs (Keeps kind (powerRule (ofDepth dialect lenient depth) false))
      · exact inferInstanceAs (Keeps kind (chainRule (ofDepth dialect lenient depth) true))
      · exact inferInstanceAs (Keeps kind (constructionRule (ofDepth dialect lenient depth)))
      · exact inferInstanceAs (Keeps kind (patternRule (ofDepth dialect lenient depth)))
      · exact inferInstanceAs (Keeps kind (parametersRule (ofDepth dialect lenient depth)))
      · exact inferInstanceAs (Keeps kind (typeRule (ofDepth dialect lenient depth)))
      · exact inferInstanceAs (Keeps kind (markupRule (ofDepth dialect lenient depth)))

end Grammar

theorem Rune.wide_of_mem_ofBytes {source : Bytes} {rune : Rune} (mem : rune ∈ ofBytes source) : 0 < rune.width := by
  obtain ⟨c, _, rfl⟩ := List.mem_map.mp mem
  rw [ofPoint]
  split
  · exact List.length_pos_iff.mpr (Utf8.encodePoint_ne_nil c)
  · exact Nat.zero_lt_one

theorem Sprout.regular_ofRunes (dialect : Dialect) {runes : List Rune} (wide : ∀ rune ∈ runes, 0 < rune.width) :
    ∀ sprout ∈ ofRunes dialect runes, sprout.Regular := by
  have read (lenient : Bool) (sprouts : List Sprout)
      (finished : ((Grammar.ofDepth dialect lenient (4 * runes.length + 8)).program
        (Rule.State.ofRunes runes)).bind Rule.State.finished? = some sprouts) :
      ∀ sprout ∈ sprouts, sprout.Regular := by
    obtain ⟨s, read, finished⟩ := Option.bind_eq_some_iff.mp finished
    have fits : s.Fits .program 0 := Rule.Keeps.fits read ⟨wide, Nat.zero_le _, nofun, nofun⟩
    rw [Rule.State.finished?] at finished
    split at finished
    · cases finished
      exact fun sprout mem => (Rule.fits_trivia fits).regular sprout (List.mem_reverse.mp mem)
    · cases finished
  rw [ofRunes]
  dsimp only
  split
  · rename_i sprouts strict
    exact read false sprouts strict
  · cases lenient : ((Grammar.ofDepth dialect true (4 * runes.length + 8)).program
      (Rule.State.ofRunes runes)).bind Rule.State.finished? with
    | none => exact nofun
    | some sprouts => exact read true sprouts lenient

/-- The tree of every source is regular. -/
theorem Tree.regular_ofSource (dialect : Dialect) (source : Bytes) : (ofSource dialect source).Regular :=
  regular_ofSprouts _ (Sprout.regular_ofRunes dialect fun _ => Rune.wide_of_mem_ofBytes)

end Rebundle
