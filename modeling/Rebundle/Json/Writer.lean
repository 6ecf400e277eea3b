import Rebundle.Json.Value
import Rebundle.Number.Shortest

/-!
# Writing JSON

A string literal is written in one of two alphabets: plain ASCII, where everything else is escaped
by its UTF-16 units, or any text, where only quotes, backslashes and control characters are escaped.
A value laid out over lines is written as pieces, each of which goes to its file in one write.
-/

namespace Rebundle

namespace Json

def unitEscape (unit : Nat) : Text := "\\u" ++ Text.hex 4 unit

/-- The escape of a character that both alphabets escape, when it has a letter of its own. -/
def letterEscaped? (c : CodePoint) : Option Text :=
  if c = '"' then some "\\\""
  else if c = '\\' then some "\\\\"
  else if c = '\n' then some "\\n"
  else if c = '\r' then some "\\r"
  else if c = '\t' then some "\\t"
  else if c.val = 8 then some "\\b"
  else if c.val = 12 then some "\\f"
  else none

/-- One character of a literal in any text. -/
def escapedPoint (c : CodePoint) : Text :=
  match letterEscaped? c with
  | some escape => escape
  | none => if c.val ≤ 0x1F then unitEscape c.val else [c]

/-- One character of a literal in plain ASCII. -/
def asciiPoint (c : CodePoint) : Text :=
  match letterEscaped? c with
  | some escape => escape
  | none =>
      if 0x20 ≤ c.val && c.val ≤ 0x7E then [c]
      else if c.val < 0x10000 then unitEscape c.val
      else unitEscape (0xD800 + (c.val - 0x10000) / 0x400) ++ unitEscape (0xDC00 + (c.val - 0x10000) % 0x400)

/-- A string literal that may hold any text. -/
def literal (t : Text) : Text := "\"" ++ t.flatMap escapedPoint ++ "\""

/-- A string literal in plain ASCII. -/
def asciiLiteral (t : Text) : Text := "\"" ++ t.flatMap asciiPoint ++ "\""

def numberText : Number → Text
  | .whole n => Text.ofInt n
  | .real .nan => "NaN"
  | .real (.infinity negative) => if negative then "-Infinity" else "Infinity"
  | .real x => x.text

/-- The text of a value that has no parts. -/
def scalarText (escape : Text → Text) : Json → Text
  | .null => "null"
  | .bool b => if b then "true" else "false"
  | .number n => numberText n
  | .string t => escape t
  | .array _ => "[]"
  | .object _ => "\x7b\x7d"

/-- A new line indented to `level`, two blanks for each level. -/
def newline (level : Nat) : Text := ('\n' : CodePoint) :: List.replicate (2 * level) (' ' : CodePoint)

mutual

/-- The pieces of a value laid out at `level`. A scalar is glued to `lead`, the text before it. -/
def pieces (escape : Text → Text) (level : Nat) (lead : Text) : Json → List Text
  | .array (first :: rest) =>
      (if lead.isEmpty then [] else [lead])
        ++ pieces escape (level + 1) ("[" ++ newline (level + 1)) first
        ++ itemPieces escape (level + 1) rest ++ ([newline level, "]"] : List Text)
  | .object ((key, first) :: rest) =>
      (if lead.isEmpty then [] else [lead])
        ++ (["\x7b", newline (level + 1), escape key, ": "] : List Text) ++ pieces escape (level + 1) [] first
        ++ memberPieces escape (level + 1) rest ++ ([newline level, "\x7d"] : List Text)
  | scalar => [lead ++ scalarText escape scalar]

def itemPieces (escape : Text → Text) (level : Nat) : List Json → List Text
  | [] => []
  | item :: rest =>
      pieces escape level ("," ++ newline level) item ++ itemPieces escape level rest

def memberPieces (escape : Text → Text) (level : Nat) : List (Text × Json) → List Text
  | [] => []
  | (key, item) :: rest =>
      (["," ++ newline level, escape key, ": "] : List Text) ++ pieces escape level [] item
        ++ memberPieces escape level rest

end

/-- The pieces of a value laid out over lines. -/
def prettyPieces (v : Json) : List Text := pieces literal 0 [] v

mutual

/-- A value on one line, without blanks. -/
def compact (escape : Text → Text) : Json → Text
  | .array items => "[" ++ Text.join "," (compactItems escape items) ++ "]"
  | .object members => "\x7b" ++ Text.join "," (compactMembers escape members) ++ "\x7d"
  | scalar => scalarText escape scalar

def compactItems (escape : Text → Text) : List Json → List Text
  | [] => []
  | item :: rest => compact escape item :: compactItems escape rest

def compactMembers (escape : Text → Text) : List (Text × Json) → List Text
  | [] => []
  | (key, item) :: rest => (escape key ++ ":" ++ compact escape item) :: compactMembers escape rest

end

mutual

/-- The value with the members of every object in the order of their keys. -/
def sorted : Json → Json
  | .array items => .array (sortedItems items)
  | .object members =>
      .object ((sortedMembers members).mergeSort fun a b => !Text.precedes b.1 a.1)
  | scalar => scalar

def sortedItems : List Json → List Json
  | [] => []
  | item :: rest => sorted item :: sortedItems rest

def sortedMembers : List (Text × Json) → List (Text × Json)
  | [] => []
  | (key, item) :: rest => (key, sorted item) :: sortedMembers rest

end

end Json

end Rebundle
