import Rebundle.Text.Basic

/-!
# Blanks and digits

Words are separated by the Unicode white space characters and by the four information separators
that count as white space in plain text. Decimal digits of every script have a value; each script
lists its ten digits in order from a zero.
-/

namespace Rebundle

namespace CodePoint

def isBlank (c : CodePoint) : Bool :=
  let n := c.val
  (9 ≤ n && n ≤ 13) || (28 ≤ n && n ≤ 32) || n == 0x85 || n == 0xA0 || n == 0x1680
    || (0x2000 ≤ n && n ≤ 0x200A) || n == 0x2028 || n == 0x2029 || n == 0x202F || n == 0x205F
    || n == 0x3000

/-- The code points of the digit zero in every script that has decimal digits (Unicode 14). -/
def zeros : List Nat := [
   48, 1632, 1776, 1984, 2406, 2534, 2662, 2790, 2918, 3046, 3174, 3302, 3430, 3558, 3664, 3792,
   3872, 4160, 4240, 6112, 6160, 6470, 6608, 6784, 6800, 6992, 7088, 7232, 7248, 42528, 43216,
   43264, 43472, 43504, 43600, 44016, 65296, 66720, 68912, 69734, 69872, 69942, 70096, 70384,
   70736, 70864, 71248, 71360, 71472, 71904, 72016, 72784, 73040, 73120, 92768, 92864, 93008,
   120782, 120792, 120802, 120812, 120822, 123200, 123632, 125264, 130032]

/-- The value of a decimal digit of any script. -/
def digit? (c : CodePoint) : Option Nat :=
  (zeros.find? fun base => base ≤ c.val && c.val < base + 10).map (c.val - ·)

end CodePoint

namespace Text

def trimStart (t : Text) : Text := t.dropWhile CodePoint.isBlank

/-- The text without the blanks at both ends. -/
def trim (t : Text) : Text := (trimStart (trimStart t).reverse).reverse

/-- The words of a text behind a word that has `started`, which is held backwards. -/
def wordsFrom (started : Text) : Text → List Text
  | [] => if started.isEmpty then [] else [started.reverse]
  | c :: rest =>
      if c.isBlank then
        if started.isEmpty then wordsFrom [] rest else started.reverse :: wordsFrom [] rest
      else wordsFrom (c :: started) rest

/-- The maximal runs of other characters than blanks. -/
def words (t : Text) : List Text := wordsFrom [] t

end Text

end Rebundle
