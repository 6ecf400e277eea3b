import Rebundle.Text.Utf8

/-!
# Runes

A rune is one character of a source with the bytes it takes. A byte that is not part of any
character is a rune of its own that cannot be read.
-/

namespace Rebundle

structure Rune where
  char : Char
  width : Nat
  readable : Bool

namespace Rune

def ofPoint (c : CodePoint) : Rune :=
  match c.char? with
  | some char => ⟨char, (Utf8.encodePoint c).length, true⟩
  | none => ⟨Char.ofNat 0xFFFD, 1, false⟩

/-- The runes of a source. -/
def ofBytes (source : Bytes) : List Rune := (Utf8.decodeEscaped source).map ofPoint

/-- Whether a line ends with this character. -/
def isLineEnd (c : Char) : Bool :=
  c == '\n' || c.toNat == 0x2028 || c.toNat == 0x2029

/-- The character with number zero, which no token holds: for the lexical rules the source ends
there. -/
def isStop (c : Char) : Bool := c.toNat == 0

/-- Whether a character may stand between two tokens. -/
def isSpace (c : Char) : Bool :=
  let n := c.toNat
  (9 ≤ n && n ≤ 13) || n == 0x20 || n == 0x85 || n == 0xA0 || n == 0x1680
    || (0x2000 ≤ n && n ≤ 0x200B) || n == 0x2028 || n == 0x2029 || n == 0x202F || n == 0x205F
    || n == 0x2060 || n == 0x3000 || n == 0xFEFF

/-- The ASCII characters that no name holds. -/
def isPunctuation (c : Char) : Bool := ":;`\"'@#.,|^&<=>+-*/\\%?!~()[]\x7b\x7d".toList.contains c

/-- Whether a name may go on with this character. -/
def continuesName (r : Rune) : Bool :=
  r.readable && 0x1F < r.char.toNat && !isSpace r.char && !isPunctuation r.char

/-- Whether a name may begin with this character. -/
def startsName (r : Rune) : Bool := r.continuesName && !r.char.isDigit

def isHexDigit (c : Char) : Bool :=
  c.isDigit || ('a' ≤ c && c ≤ 'f') || ('A' ≤ c && c ≤ 'F')

/-- The number of runes of an escaped character at the start of a name or inside it: four
hexadecimal digits, or any number of them between braces. -/
def escapeLength (runes : List Rune) : Nat :=
  match runes with
  | s :: u :: rest =>
      if s.char == '\\' && u.char == 'u' then
        match rest with
        | b :: digits =>
            if b.char == '\x7b' then
              let count := (digits.takeWhile fun r => isHexDigit r.char).length
              match digits.drop count with
              | close :: _ => if 0 < count && close.char == '\x7d' then count + 4 else 0
              | [] => 0
            else if ((b :: digits).takeWhile fun r => isHexDigit r.char).length < 4 then 0 else 6
        | [] => 0
      else 0
  | _ => 0

/-- The number of runes of the name at the start of `runes`, of which the first `owned` belong to an
escape. -/
def nameLengthFrom (first : Bool) : (owned : Nat) → List Rune → Nat
  | _, [] => 0
  | owned + 1, _ :: rest => nameLengthFrom false owned rest + 1
  | 0, r :: rest =>
      if r.char == '\\' then
        match escapeLength (r :: rest) with
        | 0 => 0
        | n + 1 => nameLengthFrom false n rest + 1
      else if (if first then r.startsName else r.continuesName) then nameLengthFrom false 0 rest + 1
      else 0

/-- The number of runes of the name at the start of `runes`, zero when there is none. -/
def nameLength (runes : List Rune) : Nat := nameLengthFrom true 0 runes

/-- Whether the source goes on with this word. -/
def spells (word : List Char) (runes : List Rune) : Bool :=
  match word, runes with
  | [], _ => true
  | _ :: _, [] => false
  | c :: word, r :: rest => r.readable && r.char == c && spells word rest

/-- The number of bytes that the runes take. -/
def bytes (runes : List Rune) : Nat := (runes.map (·.width)).foldr (· + ·) 0

end Rune

end Rebundle
