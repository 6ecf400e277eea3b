/-!
# Text

A text is a list of code points. A code point may be a surrogate, which a `Char` may not: a
surrogate between `U+DC80` and `U+DCFF` stands for one byte that could not be decoded, so a text
can carry any file and give it back unchanged.
-/

namespace Rebundle

/-- A code point below `U+110000`, surrogates included. -/
structure CodePoint where
  val : Nat
  val_lt : val < 0x110000
deriving DecidableEq

namespace CodePoint

def ofChar (c : Char) : CodePoint :=
  ⟨c.toNat, by
    have valid := c.valid
    simp only [UInt32.isValidChar, Nat.isValidChar] at valid
    have same : c.toNat = c.val.toNat := rfl
    omega⟩

instance : Coe Char CodePoint := ⟨ofChar⟩

/-- The code point with this number; a number out of range gives the replacement character. -/
def ofNat (n : Nat) : CodePoint :=
  if h : n < 0x110000 then ⟨n, h⟩ else ⟨0xFFFD, by decide⟩

theorem val_ofNat {n : Nat} (h : n < 0x110000) : (ofNat n).val = n := by
  simp [ofNat, h]

def isSurrogate (c : CodePoint) : Bool := 0xD800 ≤ c.val && c.val ≤ 0xDFFF

/-- A surrogate that stands for one undecodable byte. -/
def isByteEscape (c : CodePoint) : Bool := 0xDC80 ≤ c.val && c.val ≤ 0xDCFF

/-- The character with this number, unless it is a surrogate. -/
def char? (c : CodePoint) : Option Char :=
  if c.isSurrogate then none else some (Char.ofNat c.val)

instance : LT CodePoint := ⟨fun a b => a.val < b.val⟩

instance (a b : CodePoint) : Decidable (a < b) := inferInstanceAs (Decidable (a.val < b.val))

end CodePoint

abbrev Text := List CodePoint

namespace Text

def ofString (s : String) : Text := s.toList.map CodePoint.ofChar

instance : Coe String Text := ⟨ofString⟩

/-- The text as a string, unless it holds a surrogate. -/
def string? (t : Text) : Option String := (t.mapM CodePoint.char?).map String.ofList

/-- Decimal digits of a natural number. -/
def ofNat (n : Nat) : Text := (Nat.toDigits 10 n).map CodePoint.ofChar

def ofInt : Int → Text
  | .ofNat n => ofNat n
  | .negSucc n => "-" ++ ofNat (n + 1)

/-- Hexadecimal digits in lower case, at least `width` of them. -/
def hex (width n : Nat) : Text :=
  let digits := (Nat.toDigits 16 n).map CodePoint.ofChar
  List.replicate (width - digits.length) ('0' : CodePoint) ++ digits

/-- The texts one after the other with `separator` between neighbours. -/
def join (separator : Text) : List Text → Text
  | [] => []
  | [t] => t
  | t :: rest => t ++ separator ++ join separator rest

@[simp] theorem join_nil (separator : Text) : join separator [] = [] := rfl

@[simp] theorem join_singleton (separator t : Text) : join separator [t] = t := rfl

/-- Text order compares code points from the left. -/
def precedes : Text → Text → Bool
  | [], [] => false
  | [], _ :: _ => true
  | _ :: _, [] => false
  | a :: s, b :: t => a.val < b.val || (a.val == b.val && precedes s t)

/-- Sorted by code points, without repetitions. -/
def sortUnique (texts : List Text) : List Text :=
  (texts.eraseDups).mergeSort fun a b => !precedes b a

/-- The part of the text after `lead`, when the text starts with it. -/
def after? (lead t : Text) : Option Text :=
  if lead.isPrefixOf t then some (t.drop lead.length) else none

/-- Text before and after the first occurrence of `mark`. -/
def cut? (mark : CodePoint) (t : Text) : Option (Text × Text) :=
  match t.dropWhile (· != mark) with
  | [] => none
  | _ :: rest => some (t.takeWhile (· != mark), rest)

/-- Line ends after a carriage return (`returned`) or elsewhere: a carriage return ends the line, and
a line feed right behind one adds nothing. -/
def unifyLineEndsFrom : Bool → Text → Text
  | _, [] => []
  | returned, c :: rest =>
      if c = '\r' then ('\n' : CodePoint) :: unifyLineEndsFrom true rest
      else if c = '\n' && returned then unifyLineEndsFrom false rest
      else c :: unifyLineEndsFrom false rest

/-- Line ends written as carriage return, alone or before a line feed, become line feeds. -/
def unifyLineEnds (t : Text) : Text := unifyLineEndsFrom false t

end Text

end Rebundle
