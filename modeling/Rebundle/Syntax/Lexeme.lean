import Rebundle.Syntax.Rune

/-!
# Lexemes

How far a lexeme reaches. Each function looks at the runes ahead and gives the number of them that
belong to the lexeme, zero when none of that kind begins there. Functions that look for the end of
an opened lexeme give nothing when the source or the line ends first.
-/

namespace Rebundle.Lexeme

open Rune

/-- Operators of expressions and assignments, longer ones before their beginnings. -/
def operators : List (List Char) :=
  [">>>=", "...", "===", "!==", "**=", "<<=", ">>=", ">>>", "&&=", "||=", "??=", "=>", "==", "!=",
   "<=", ">=", "&&", "||", "??", "++", "--", "+=", "-=", "*=", "/=", "%=", "&=", "|=", "^=",
   "<<", ">>", "**", "?.", "=", "+", "-", "*", "/", "%", "<", ">", "!", "&", "|", "^", "~", "?",
   ".", ":"].map String.toList

def isDigitAt (runes : List Rune) : Bool :=
  match runes with
  | r :: _ => r.char.isDigit
  | [] => false

/-- The longest operator at the start, empty when there is none. A question mark and a point before
a digit are two operators. -/
def operator (runes : List Rune) : List Char :=
  match operators.find? (spells · runes) with
  | some ['?', '.'] => if isDigitAt (runes.drop 2) then ['?'] else ['?', '.']
  | some op => op
  | none => []

/-- The runes of a block comment behind its opening, up to and with its close. -/
def blockCommentRest : List Rune → Option Nat
  | [] => none
  | [_] => none
  | a :: b :: rest =>
      if isStop a.char then none
      else if a.char == '*' && b.char == '/' then some 2
      else (blockCommentRest (b :: rest)).map (· + 1)

/-- Whether a comment on one line goes on with this rune. -/
def staysInLine (r : Rune) : Bool :=
  !(isLineEnd r.char || r.char == '\r' || isStop r.char)

def comment : List Rune → Nat
  | a :: b :: rest =>
      if a.char == '/' && b.char == '/' then (rest.takeWhile staysInLine).length + 2
      else if a.char == '/' && b.char == '*' then
        match blockCommentRest rest with
        | some n => n + 2
        | none => 0
      else 0
  | _ => 0

/-- The first line of a script that names its interpreter. -/
def interpreterLine : List Rune → Nat
  | a :: b :: rest =>
      if a.char == '#' && b.char == '!' then
        (rest.takeWhile fun r => !(isLineEnd r.char || isStop r.char)).length + 2
      else 0
  | _ => 0

/-- A name that begins with a number sign. -/
def privateName : List Rune → Nat
  | r :: rest => if r.char == '#' && 0 < nameLength rest then nameLength rest + 1 else 0
  | [] => 0

/-- The digits of a number, which may be grouped by underscores. -/
def digits (isDigit : Char → Bool) (runes : List Rune) : Nat :=
  match runes with
  | r :: rest =>
      if isDigit r.char then (rest.takeWhile fun r => isDigit r.char || r.char == '_').length + 1
      else 0
  | [] => 0

/-- An exponent with its mark. -/
def exponent : List Rune → Nat
  | e :: rest =>
      if e.char == 'e' || e.char == 'E' then
        let unsigned := digits Char.isDigit rest
        if 0 < unsigned then unsigned + 1
        else
          match rest with
          | sign :: rest =>
              let count := digits Char.isDigit rest
              if (sign.char == '+' || sign.char == '-') && 0 < count then count + 2 else 0
          | [] => 0
      else 0
  | [] => 0

/-- The mark of a whole number of any size. -/
def wholeMark : List Rune → Nat
  | r :: _ => if r.char == 'n' then 1 else 0
  | [] => 0

/-- A point with the digits behind it; `whole` digits stand before it. -/
def fraction (whole : Nat) : List Rune → Nat
  | point :: rest =>
      if point.char == '.' then
        let count := digits Char.isDigit rest
        if 0 < whole || 0 < count then count + 1 else 0
      else 0
  | [] => 0

/-- A number without a radix mark. -/
def decimal (runes : List Rune) : Nat :=
  let whole := digits Char.isDigit runes
  let mark := wholeMark (runes.drop whole)
  if 0 < whole && 0 < mark then whole + mark
  else
    let part := fraction whole (runes.drop whole)
    if whole + part == 0 then 0 else whole + part + exponent (runes.drop (whole + part))

/-- The digits that a radix mark asks for. -/
def radixDigit? (mark : Char) : Option (Char → Bool) :=
  if mark == 'x' || mark == 'X' then some isHexDigit
  else if mark == 'o' || mark == 'O' then some fun c => '0' ≤ c && c ≤ '7'
  else if mark == 'b' || mark == 'B' then some fun c => c == '0' || c == '1'
  else none

def number (runes : List Rune) : Nat :=
  match runes with
  | zero :: mark :: rest =>
      match if zero.char == '0' then radixDigit? mark.char else none with
      | some isDigit =>
          let count := digits isDigit rest
          if 0 < count then count + 2 + wholeMark (rest.drop count) else decimal runes
      | none => decimal runes
  | _ => decimal runes

/-- The runes up to and with the closing quote. -/
def closingQuote (quote : Char) : List Rune → Option Nat
  | [] => none
  | [r] => if r.char == quote then some 1 else none
  | a :: b :: rest =>
      if a.char == quote then some 1
      else if a.char == '\n' || a.char == '\r' || isStop a.char then none
      else if a.char == '\\' then
        if b.char == '\r' then
          match rest with
          | c :: rest' =>
              if c.char == '\n' then (closingQuote quote rest').map (· + 3)
              else (closingQuote quote (c :: rest')).map (· + 2)
          | [] => none
        else (closingQuote quote rest).map (· + 2)
      else (closingQuote quote (b :: rest)).map (· + 1)

def string : List Rune → Nat
  | r :: rest =>
      if r.char == '"' || r.char == '\'' then
        match closingQuote r.char rest with
        | some n => n + 1
        | none => 0
      else 0
  | [] => 0

/-- The runes of a regular expression behind its opening slash, up to and with the closing one;
slashes in brackets close nothing. -/
def closingSlash (inBrackets : Bool) : List Rune → Option Nat
  | [] => none
  | [r] => if r.char == '/' && !inBrackets then some 1 else none
  | a :: b :: rest =>
      if a.char == '\n' || isStop a.char then none
      else if a.char == '\\' then
        if b.char == '\n' || isStop b.char then none
        else (closingSlash inBrackets rest).map (· + 2)
      else if a.char == '/' && !inBrackets then some 1
      else
        let inBrackets := a.char == '[' || (inBrackets && a.char != ']')
        (closingSlash inBrackets (b :: rest)).map (· + 1)

def regex : List Rune → Nat
  | slash :: first :: rest =>
      if slash.char == '/' && first.char != '/' then
        match closingSlash false (first :: rest) with
        | some n => n + 1 + ((first :: rest).drop n |>.takeWhile (·.char.isLower)).length
        | none => 0
      else 0
  | _ => 0

/-- Text inside a template, up to its end or to the next substitution. -/
def templateText : List Rune → Nat
  | [] => 0
  | [r] => if r.char == '\x60' || isStop r.char then 0 else 1
  | a :: b :: rest =>
      if a.char == '\x60' || isStop a.char || (a.char == '$' && b.char == '\x7b') then 0
      else if a.char == '\\' then templateText rest + 2
      else templateText (b :: rest) + 1

/-- Text between the tags of a markup element. -/
def markupText (runes : List Rune) : Nat :=
  (runes.takeWhile fun r => !("<>\x7b\x7d".toList.contains r.char || isStop r.char)).length

/-- A quoted attribute value of a markup element, which may span lines. -/
def markupString : List Rune → Nat
  | r :: rest =>
      if r.char == '"' || r.char == '\'' then
        let inside := (rest.takeWhile fun s => s.char != r.char && !isStop s.char).length
        if inside < rest.length then inside + 2 else 0
      else 0
  | [] => 0

end Rebundle.Lexeme
