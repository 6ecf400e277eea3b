import Rebundle.Syntax.Tree
import Rebundle.Table
import Rebundle.Text.Basic

/-!
# Scopes and bindings

A scope is a part of a program with the names declared in it; all but the first lie inside a scope
that was opened before. A binding is a declared name with the places that declare it and the places
that refer to it. Scopes are known by their number in the order in which they were opened.
-/

namespace Rebundle

/-- How a name was declared. -/
inductive BindingKind where
  | var | letName | constName | using | param | catchName | function | className | import
deriving DecidableEq

namespace BindingKind

def name : BindingKind → String
  | .var => "var"
  | .letName => "let"
  | .constName => "const"
  | .using => "using"
  | .param => "param"
  | .catchName => "catch"
  | .function => "function"
  | .className => "class"
  | .import => "import"

/-- The kind of the names that a keyword declares. -/
def ofKeyword (keyword : Kind) : BindingKind :=
  if keyword = .token "var" then .var
  else if keyword = .token "const" then .constName
  else if keyword = .token "using" then .using
  else .letName

end BindingKind

structure Binding where
  kind : BindingKind
  declarations : List Range
  references : List Range

namespace Binding

/-- Every place of the binding, the declarations first. -/
def places (binding : Binding) : List Range := binding.declarations ++ binding.references

end Binding

inductive ScopeKind where
  | program | function | block | classBody
deriving DecidableEq

namespace ScopeKind

def name : ScopeKind → String
  | .program => "program"
  | .function => "function"
  | .block => "block"
  | .classBody => "class"

/-- Whether `var` declarations stop at a scope of this kind. -/
def holdsVars : ScopeKind → Bool
  | .program | .function => true
  | .block | .classBody => false

end ScopeKind

structure Scope where
  kind : ScopeKind
  range : Range
  parent : Option Nat
  bindings : Table Text Binding

/-- A binding by the number of its scope and its name. -/
structure BindingRef where
  scope : Nat
  name : Text
deriving DecidableEq

namespace Scope

/-- The scope with one more declaration of a name. The kind of the first declaration stays. -/
def declare (name : Text) (kind : BindingKind) (place : Range) (scope : Scope) : Scope :=
  let binding :=
    match scope.bindings.get? name with
    | some binding => { binding with declarations := binding.declarations ++ [place] }
    | none => ⟨kind, [place], []⟩
  { scope with bindings := scope.bindings.put name binding }

/-- The scope with one more reference to a name that is declared in it. -/
def refer (name : Text) (place : Range) (scope : Scope) : Scope :=
  match scope.bindings.get? name with
  | some binding =>
      let binding := { binding with references := binding.references ++ [place] }
      { scope with bindings := scope.bindings.put name binding }
  | none => scope

/-- The binding of a name that scope number `i` sees: its own, or the one that its parent sees. -/
def lookup (scopes : List Scope) (name : Text) (i : Nat) : Option BindingRef :=
  match scopes[i]? with
  | none => none
  | some scope =>
      if scope.bindings.contains name then some ⟨i, name⟩
      else
        match scope.parent with
        | none => none
        | some parent => if parent < i then lookup scopes name parent else none
termination_by i

/-- The number of the scope that holds the `var` declarations made in scope number `i`. -/
def varHolder (scopes : List Scope) (i : Nat) : Nat :=
  match scopes[i]? with
  | none => i
  | some scope =>
      if scope.kind.holdsVars then i
      else
        match scope.parent with
        | none => i
        | some parent => if parent < i then varHolder scopes parent else i
termination_by i

end Scope

/-- The scopes of a program, the references that no scope binds, and the binding of every place. -/
structure ScopeTable where
  scopes : List Scope
  unresolved : List (Text × Range)
  byPlace : Table Range BindingRef

namespace ScopeTable

/-- All bindings, scope by scope. -/
def bindings (table : ScopeTable) : List (BindingRef × Binding) :=
  table.scopes.zipIdx.flatMap fun (scope, i) =>
    scope.bindings.map fun (name, binding) => (⟨i, name⟩, binding)

def bindingsNamed (name : Text) (table : ScopeTable) : List (BindingRef × Binding) :=
  table.bindings.filter fun (ref, _) => ref.name = name

/-- The binding that a place declares or refers to. -/
def bindingFor (place : Range) (table : ScopeTable) : Option BindingRef :=
  table.byPlace.get? place

def binding? (ref : BindingRef) (table : ScopeTable) : Option Binding :=
  (table.scopes[ref.scope]?).bind fun scope => scope.bindings.get? ref.name

def isDeclaration (place : Range) (table : ScopeTable) : Bool :=
  match (table.bindingFor place).bind table.binding? with
  | some binding => binding.declarations.contains place
  | none => false

end ScopeTable

end Rebundle
