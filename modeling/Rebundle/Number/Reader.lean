import Rebundle.Number.Binary64
import Rebundle.Text.Blank

/-!
# Reading a decimal number

A number stands between optional blanks: a sign, then digits with an optional point and an optional
exponent, or a word for infinity or for no number. Digits of every script count, and an underscore
may stand between two digits.
-/

namespace Rebundle

namespace Binary64

/-- A code point as a number is read: digits of all scripts become ASCII digits, blanks outside ASCII
a space, and other characters outside ASCII nothing that a number may hold. -/
def plainChar (c : CodePoint) : Char :=
  if c.val < 0x7F then Char.ofNat c.val
  else if c.isBlank then ' '
  else match c.digit? with
    | some value => Char.ofNat (0x30 + value)
    | none => '?'

def isSpace (c : Char) : Bool := c == ' ' || (9 ≤ c.toNat && c.toNat ≤ 13)

def trimSpaces (chars : List Char) : List Char :=
  ((chars.dropWhile isSpace).reverse.dropWhile isSpace).reverse

/-- The characters without the underscores between digits; an underscore elsewhere is refused. -/
def joinGroups : (afterDigit : Bool) → List Char → Option (List Char)
  | _, [] => some []
  | afterDigit, '_' :: rest =>
      match rest with
      | d :: _ => if afterDigit && d.isDigit then joinGroups false rest else none
      | [] => none
  | _, c :: rest => (joinGroups c.isDigit rest).map (c :: ·)

def natOfDigits (digits : List Char) : Nat :=
  digits.foldl (fun n d => 10 * n + (d.toNat - 0x30)) 0

/-- The exponent part of a number, which may be missing. -/
def exponent? : List Char → Option Int
  | [] => some 0
  | e :: rest =>
      if e != 'e' && e != 'E' then none
      else
        let (negative, digits) := match rest with
          | '-' :: digits => (true, digits)
          | '+' :: digits => (false, digits)
          | digits => (false, digits)
        if digits.isEmpty || !digits.all Char.isDigit then none
        else some (if negative then -(natOfDigits digits : Int) else natOfDigits digits)

/-- Digits with an optional point and exponent. -/
def ofDigits? (negative : Bool) (chars : List Char) : Option Binary64 :=
  let whole := chars.takeWhile Char.isDigit
  let rest := chars.dropWhile Char.isDigit
  let (fraction, rest) := match rest with
    | '.' :: tail => (tail.takeWhile Char.isDigit, tail.dropWhile Char.isDigit)
    | _ => ([], rest)
  if whole.isEmpty && fraction.isEmpty then none
  else (exponent? rest).map fun exponent =>
    ofDecimal negative (natOfDigits (whole ++ fraction)) (exponent - fraction.length)

def ofChars? (chars : List Char) : Option Binary64 :=
  let (negative, size) := match chars with
    | '-' :: rest => (true, rest)
    | '+' :: rest => (false, rest)
    | _ => (false, chars)
  let word := size.map Char.toLower
  if word = "inf".toList || word = "infinity".toList then some (.infinity negative)
  else if word = "nan".toList then some .nan
  else ofDigits? negative size

/-- The number that a text writes, if it writes one. -/
def ofText? (t : Text) : Option Binary64 :=
  let chars := trimSpaces (t.map plainChar)
  (joinGroups false chars).bind ofChars?

end Binary64

end Rebundle
