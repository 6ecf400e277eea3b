import Rebundle.Json.Value
import Rebundle.Number.Reader

/-!
# Reading JSON

A document is one value between optional blanks. Besides the standard, `NaN`, `Infinity` and
`-Infinity` are numbers, and an escaped surrogate without its partner is kept as it is. A key that
comes twice keeps its first place and its last value. A document that is not JSON is refused with
the place at which it stops being one.

The machine that reads sets limits: to the digits of a whole number and to the depth at which values
are nested. Reading ends where the document goes beyond them, whatever stands behind that place.
-/

namespace Rebundle

namespace Json

inductive Problem where
  | byteOrderMark
  | expectedValue
  | expectedName
  | expectedColon
  | expectedComma
  | unterminatedString
  | controlCharacter
  | invalidEscape
  | invalidNumberEscape
  | extraData
deriving DecidableEq

def Problem.message : Problem → Text
  | .byteOrderMark => "Unexpected UTF-8 BOM (decode using utf-8-sig)"
  | .expectedValue => "Expecting value"
  | .expectedName => "Expecting property name enclosed in double quotes"
  | .expectedColon => "Expecting ':' delimiter"
  | .expectedComma => "Expecting ',' delimiter"
  | .unterminatedString => "Unterminated string starting at"
  | .controlCharacter => "Invalid control character at"
  | .invalidEscape => "Invalid \\escape"
  | .invalidNumberEscape => "Invalid \\uXXXX escape"
  | .extraData => "Extra data"

/-- A problem with the number of code points left when it was met. -/
structure Stop where
  problem : Problem
  left : Nat

/-- A problem with the place at which it was met: the offset, and the line and column of it. -/
structure Fault where
  problem : Problem
  position : Nat
  line : Nat
  column : Nat
deriving DecidableEq

def Fault.message (fault : Fault) : Text :=
  fault.problem.message ++ ": line " ++ Text.ofNat fault.line ++ " column " ++ Text.ofNat fault.column
    ++ " (char " ++ Text.ofNat fault.position ++ ")"

def Stop.fault (stop : Stop) (document : Text) : Fault :=
  let position := document.length - stop.left
  let before := document.take position
  { problem := stop.problem
    position := position
    line := before.count ('\n' : CodePoint) + 1
    column := (before.reverse.takeWhile (· != ('\n' : CodePoint))).length + 1 }

/-- The limits that a machine sets to reading: how many digits a whole number may have, and how many
levels of values may be nested in each other, which are some. -/
structure Limits where
  digits : Nat
  levels : Nat
  flat : 0 < levels

/-- What goes beyond the limits. -/
inductive Excess where
  | digits (count limit : Nat)
  | arrays
  | objects
deriving DecidableEq

def Excess.message : Excess → Text
  | .digits count limit =>
      "Exceeds the limit (" ++ Text.ofNat limit
        ++ " digits) for integer string conversion: value has " ++ Text.ofNat count
        ++ " digits; use sys.set_int_max_str_digits() to increase the limit"
  | .arrays =>
      "maximum recursion depth exceeded while decoding a JSON array from a unicode string"
  | .objects =>
      "maximum recursion depth exceeded while decoding a JSON object from a unicode string"

/-- Why reading ends early. -/
inductive Halt where
  | stop (stop : Stop)
  | excess (excess : Excess)

/-- Why a document has no value: it is no JSON, or it goes beyond the limits. -/
inductive Refusal where
  | fault (fault : Fault)
  | excess (excess : Excess)
deriving DecidableEq

def Halt.refusal (document : Text) : Halt → Refusal
  | .stop met => .fault (met.fault document)
  | .excess beyond => .excess beyond

/-- What a step inside a string gives: a value and the rest of the document. -/
abbrev Step (α : Type) := Except Stop (α × Text)

/-- What reading a value gives: the value and the rest of the document. -/
abbrev Reading (α : Type) := Except Halt (α × Text)

def stop {α : Type} (problem : Problem) (rest : Text) : Step α := .error ⟨problem, rest.length⟩

def halt {α : Type} (problem : Problem) (rest : Text) : Reading α := .error (.stop ⟨problem, rest.length⟩)

/-- Goes on with what a step inside a string gives. -/
def Step.andThen {α β : Type} (step : Step α) (next : α → Text → Reading β) : Reading β :=
  match step with
  | .error problem => .error (.stop problem)
  | .ok (first, rest) => next first rest

def isSpace (c : CodePoint) : Bool := c = ' ' || c = '\t' || c = '\n' || c = '\r'

def skipSpace (t : Text) : Text := t.dropWhile isSpace

def hexValue? (c : CodePoint) : Option Nat :=
  let n := c.val
  if 0x30 ≤ n && n ≤ 0x39 then some (n - 0x30)
  else if 0x61 ≤ n && n ≤ 0x66 then some (n - 0x57)
  else if 0x41 ≤ n && n ≤ 0x46 then some (n - 0x37)
  else none

/-- The value of four hexadecimal digits. -/
def hexQuad? : Text → Option Nat
  | [a, b, c, d] => do
      let a ← hexValue? a
      let b ← hexValue? b
      let c ← hexValue? c
      let d ← hexValue? d
      some (((a * 16 + b) * 16 + c) * 16 + d)
  | _ => none

/-- The code point after a backslash and `u` in `rest`, joined with a second escape where the two are
a surrogate pair. Four digits at the very end of the document are refused. -/
def numberEscape (rest : Text) : Step CodePoint :=
  let refuse (after : Text) : Step CodePoint := .error ⟨.invalidNumberEscape, after.length + 1⟩
  if rest.length ≤ 4 then refuse rest
  else match hexQuad? (rest.take 4) with
    | none => refuse rest
    | some high =>
        let tail := rest.drop 4
        let alone : Step CodePoint := .ok (CodePoint.ofNat high, tail)
        match tail with
        | s :: u :: second =>
            if 0xD800 ≤ high && high ≤ 0xDBFF && 6 < tail.length && s = '\\' && u = 'u' then
              match hexQuad? (second.take 4) with
              | none => refuse second
              | some low =>
                  if 0xDC00 ≤ low && low ≤ 0xDFFF then
                    .ok (CodePoint.ofNat (0x10000 + (high - 0xD800) * 0x400 + (low - 0xDC00)), second.drop 4)
                  else alone
            else alone
        | _ => alone

def letterEscape? (c : CodePoint) : Option CodePoint :=
  if c = '"' || c = '\\' || c = '/' then some c
  else if c = 'b' then some (CodePoint.ofNat 8)
  else if c = 'f' then some (CodePoint.ofNat 12)
  else if c = 'n' then some '\n'
  else if c = 'r' then some '\r'
  else if c = 't' then some '\t'
  else none

/-- The string whose opening quote has just been read; `opening` is what was left at that quote. -/
def characters (opening : Nat) : (fuel : Nat) → Text → Step Text
  | 0, _ => .error ⟨.unterminatedString, opening⟩
  | _ + 1, [] => .error ⟨.unterminatedString, opening⟩
  | fuel + 1, c :: rest =>
      let andThen (first : CodePoint) (tail : Text) : Step Text :=
        (characters opening fuel tail).map fun (more, left) => (first :: more, left)
      if c = '"' then .ok ([], rest)
      else if c = '\\' then
        match rest with
        | [] => .error ⟨.unterminatedString, opening⟩
        | e :: tail =>
            if e = 'u' then
              match numberEscape tail with
              | .error fault => .error fault
              | .ok (point, left) => andThen point left
            else match letterEscape? e with
              | some point => andThen point tail
              | none => stop .invalidEscape (c :: rest)
      else if c.val ≤ 0x1F then stop .controlCharacter (c :: rest)
      else andThen c rest

def isDigit (c : CodePoint) : Bool := 0x30 ≤ c.val && c.val ≤ 0x39

def chars (t : Text) : List Char := t.map fun c => Char.ofNat c.val

/-- The digits behind a point, when there are any. -/
def fraction (t : Text) : Text × Text :=
  match t with
  | p :: d :: rest =>
      if p = '.' && isDigit d then ((d :: rest).takeWhile isDigit, (d :: rest).dropWhile isDigit)
      else ([], t)
  | _ => ([], t)

/-- Whether the exponent is negative, its digits, and what follows, when there is one. -/
def exponent? (t : Text) : Option (Bool × Text × Text) :=
  match t with
  | e :: rest =>
      if e = 'e' || e = 'E' then
        let (negative, digits) := match rest with
          | s :: tail => if s = '-' then (true, tail) else if s = '+' then (false, tail) else (false, rest)
          | [] => (false, rest)
        if (digits.takeWhile isDigit).isEmpty then none
        else some (negative, digits.takeWhile isDigit, digits.dropWhile isDigit)
      else none
  | [] => none

/-- The number at the start of a text: whole unless it has a point or an exponent. -/
def number? (t : Text) : Option (Number × Text) :=
  let (negative, size) := match t with
    | s :: rest => if s = '-' then (true, rest) else (false, t)
    | [] => (false, t)
  let whole? : Option (Text × Text) := match size with
    | d :: rest =>
        if d = '0' then some ([d], rest)
        else if isDigit d then some (size.takeWhile isDigit, size.dropWhile isDigit)
        else none
    | [] => none
  whole?.map fun (whole, rest) =>
    let (places, rest) := fraction rest
    let digits := Binary64.natOfDigits (chars (whole ++ places))
    match exponent? rest with
    | some (down, power, rest) =>
        let power : Int := Binary64.natOfDigits (chars power)
        (.real (Binary64.ofDecimal negative digits ((if down then -power else power) - places.length)), rest)
    | none =>
        if places.isEmpty then (.whole (if negative then -digits else digits), rest)
        else (.real (Binary64.ofDecimal negative digits (-places.length)), rest)

/-- The constants and what they stand for. -/
def constants : List (Text × Json) :=
  [("null", .null), ("true", .bool true), ("false", .bool false), ("NaN", .number (.real .nan)),
    ("Infinity", .number (.real (.infinity false))), ("-Infinity", .number (.real (.infinity true)))]

/-- The number of digits between a text and what is left of it behind a whole number. -/
def digitCount (t rest : Text) : Nat :=
  let sign := match t with
    | s :: _ => if s = '-' then 1 else 0
    | [] => 0
  t.length - rest.length - sign

/-- A constant or a number. -/
def scalar (limits : Limits) (t : Text) : Reading Json :=
  match constants.findSome? fun (word, value) => (Text.after? word t).map (value, ·) with
  | some result => .ok result
  | none =>
      match number? t with
      | some (.whole n, rest) =>
          if limits.digits < digitCount t rest then
            .error (.excess (.digits (digitCount t rest) limits.digits))
          else .ok (.number (.whole n), rest)
      | some (n, rest) => .ok (.number n, rest)
      | none => halt .expectedValue t

mutual

/-- A value. Each bracket that is opened takes one of the levels. -/
def value (limits : Limits) : (fuel levels : Nat) → Text → Reading Json
  | 0, _, t => halt .expectedValue t
  | fuel + 1, levels, t =>
      match t with
      | [] => halt .expectedValue t
      | c :: rest =>
          if c = '"' then (characters t.length t.length rest).andThen fun s left => .ok (.string s, left)
          else if c = '\x7b' then
            match levels with
            | 0 => .error (.excess .objects)
            | inner + 1 =>
                match skipSpace rest with
                | d :: tail =>
                    if d = '\x7d' then .ok (.object [], tail)
                    else (members limits fuel inner [] (d :: tail)).map fun (m, left) => (.object m, left)
                | [] => halt .expectedName []
          else if c = '[' then
            match levels with
            | 0 => .error (.excess .arrays)
            | inner + 1 =>
                match skipSpace rest with
                | d :: tail =>
                    if d = ']' then .ok (.array [], tail)
                    else (elements limits fuel inner (d :: tail)).map fun (items, left) => (.array items, left)
                | [] => halt .expectedValue []
          else scalar limits t

/-- The elements up to the closing bracket. -/
def elements (limits : Limits) : (fuel levels : Nat) → Text → Reading (List Json)
  | 0, _, t => halt .expectedValue t
  | fuel + 1, levels, t =>
      match value limits fuel levels t with
      | .error reason => .error reason
      | .ok (first, rest) =>
          match skipSpace rest with
          | [] => halt .expectedComma []
          | c :: tail =>
              if c = ']' then .ok ([first], tail)
              else if c = ',' then
                (elements limits fuel levels (skipSpace tail)).map fun (more, left) => (first :: more, left)
              else halt .expectedComma (c :: tail)

/-- The members up to the closing brace, put behind those of `table`. -/
def members (limits : Limits) : (fuel levels : Nat) → Table Text Json → Text → Reading (Table Text Json)
  | 0, _, _, t => halt .expectedName t
  | fuel + 1, levels, table, t =>
      match t with
      | [] => halt .expectedName t
      | quote :: rest =>
          if quote = '"' then
            (characters t.length t.length rest).andThen fun key afterKey =>
              match skipSpace afterKey with
              | [] => halt .expectedColon []
              | colon :: afterColon =>
                  if colon = ':' then
                    match value limits fuel levels (skipSpace afterColon) with
                    | .error reason => .error reason
                    | .ok (item, afterItem) =>
                        match skipSpace afterItem with
                        | [] => halt .expectedComma []
                        | c :: tail =>
                            if c = '\x7d' then .ok (table.put key item, tail)
                            else if c = ',' then
                              members limits fuel levels (table.put key item) (skipSpace tail)
                            else halt .expectedComma (c :: tail)
                  else halt .expectedColon (colon :: afterColon)
          else halt .expectedName t

end

def document (limits : Limits) (t : Text) : Except Halt Json :=
  match t with
  | mark :: _ =>
      if mark.val = 0xFEFF then .error (.stop ⟨.byteOrderMark, t.length⟩)
      else
        match value limits (2 * t.length + 2) limits.levels (skipSpace t) with
        | .error reason => .error reason
        | .ok (result, rest) =>
            match skipSpace rest with
            | [] => .ok result
            | extra => .error (.stop ⟨.extraData, extra.length⟩)
  | [] => .error (.stop ⟨.expectedValue, 0⟩)

/-- The value that a document writes. -/
def parse (limits : Limits) (t : Text) : Except Refusal Json := (document limits t).mapError (·.refusal t)

end Json

end Rebundle
