import Rebundle.Number.Binary64
import Rebundle.Number.Shortest
import Rebundle.Table
import Rebundle.Text.Basic
import Rebundle.Text.Printable

/-!
# JSON values

Whole numbers and binary64 numbers are kept apart, and members keep the order of their keys.
-/

namespace Rebundle

inductive Json where
  | null
  | bool (value : Bool)
  | number (value : Number)
  | string (value : Text)
  | array (items : List Json)
  | object (members : List (Text × Json))

namespace Json

def ofNat (n : Nat) : Json := .number (.whole n)

/-- Whether a value counts as given: not null, not false, not zero and not empty. -/
def isGiven : Json → Bool
  | .null => false
  | .bool b => b
  | .number (.whole n) => n != 0
  | .number (.real (.finite _ mantissa _)) => mantissa != 0
  | .number (.real _) => true
  | .string t => !t.isEmpty
  | .array items => !items.isEmpty
  | .object members => !members.isEmpty

/-- The member of an object with this key. -/
def member? (key : Text) : Json → Option Json
  | .object members => Table.get? key members
  | _ => none

/-!
How messages show a value: texts in quotes, lists and objects with blanks behind their commas, and
the constants as `None`, `True` and `False`. The name of a value's type is shown where a value of
another type was asked for.
-/

def boolText (b : Bool) : Text := if b then "True" else "False"

/-- The name of the type of a value. -/
def typeName : Json → String
  | .null => "NoneType"
  | .bool _ => "bool"
  | .number (.whole _) => "int"
  | .number (.real _) => "float"
  | .string _ => "str"
  | .array _ => "list"
  | .object _ => "dict"

mutual

/-- The value as a message shows it. -/
def quoted : Json → Text
  | .null => "None"
  | .bool b => boolText b
  | .number n => n.text
  | .string t => t.quoted
  | .array items => "[" ++ Text.join ", " (quotedItems items) ++ "]"
  | .object members => "\x7b" ++ Text.join ", " (quotedMembers members) ++ "\x7d"

def quotedItems : List Json → List Text
  | [] => []
  | item :: rest => quoted item :: quotedItems rest

def quotedMembers : List (Text × Json) → List Text
  | [] => []
  | (key, item) :: rest => (key.quoted ++ ": " ++ quoted item) :: quotedMembers rest

end

/-- The value as plain text: a text is itself, and all else is shown as in messages. -/
def plainText : Json → Text
  | .string t => t
  | v => v.quoted

end Json

end Rebundle
