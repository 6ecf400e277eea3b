import Rebundle.Text.Basic

/-!
# Dialects

The dialects of the language that sources may be written in.
-/

namespace Rebundle

inductive Dialect where
  | javascript | typescript | tsx
deriving DecidableEq

namespace Dialect

def all : List Dialect := [.javascript, .typescript, .tsx]

def name : Dialect → String
  | .javascript => "javascript"
  | .typescript => "typescript"
  | .tsx => "tsx"

def ofName? (t : Text) : Option Dialect := all.find? fun dialect => Text.ofString dialect.name == t

/-- Whether declarations may carry types. -/
def hasTypes : Dialect → Bool
  | .javascript => false
  | .typescript | .tsx => true

/-- Whether a tag opens a markup element. -/
def hasMarkup : Dialect → Bool
  | .typescript => false
  | .javascript | .tsx => true

theorem ofName?_name (dialect : Dialect) : ofName? dialect.name = some dialect := by
  cases dialect <;> rfl

end Dialect

end Rebundle
