import Rebundle.Text.Basic

/-!
# UTF-8

Bytes are cut into units: a code point with the bytes it takes, or a run of bytes that no code point
owns. A run ends where the next byte could begin a code point again, so three readings share one
cut: the strict one stops at the first bad run, the replacing one writes a replacement character for
it, and the escaping one keeps each of its bytes as a surrogate. Writing knows the same escapes.
-/

namespace Rebundle

abbrev Bytes := List UInt8

namespace Utf8

inductive Reason where
  | invalidStart
  | invalidContinuation
  | unexpectedEnd
deriving DecidableEq

def Reason.message : Reason → Text
  | .invalidStart => "invalid start byte"
  | .invalidContinuation => "invalid continuation byte"
  | .unexpectedEnd => "unexpected end of data"

/-- A code point or a bad run, with the number of bytes it takes. -/
inductive Piece where
  | point (c : CodePoint) (width : Nat)
  | bad (reason : Reason) (width : Nat)
deriving DecidableEq

def Piece.width : Piece → Nat
  | .point _ w => w
  | .bad _ w => w

def isContinuation (b : UInt8) : Bool := b &&& 0xC0 == 0x80

def low (b : UInt8) : Nat := (b &&& 0x3F).toNat

/-- The piece at a lead byte that asks for `needed` continuation bytes, of which `seen` are read.
The first of them lies in `allowed`; the others are any continuation bytes. -/
def continued (allowed : UInt8 → Bool) (value : Nat) : (needed seen : Nat) → Bytes → Piece
  | 0, seen, _ => .point (CodePoint.ofNat value) (seen + 1)
  | _ + 1, seen, [] => .bad .unexpectedEnd (seen + 1)
  | needed + 1, seen, b :: rest =>
      if isContinuation b && allowed b then
        continued (fun _ => true) (value * 64 + low b) needed (seen + 1) rest
      else .bad .invalidContinuation (seen + 1)

/-- The piece that begins with byte `b` before `rest`. Overlong forms, surrogates and values past the
last code point are ruled out by the first continuation byte. -/
def piece (b : UInt8) (rest : Bytes) : Piece :=
  if b < 0x80 then .point (CodePoint.ofNat b.toNat) 1
  else if b < 0xC2 then .bad .invalidStart 1
  else if b < 0xE0 then continued (fun _ => true) (b &&& 0x1F).toNat 1 0 rest
  else if b < 0xF0 then
    continued (fun c => if b == 0xE0 then 0xA0 ≤ c else if b == 0xED then c < 0xA0 else true)
      (b &&& 0x0F).toNat 2 0 rest
  else if b < 0xF5 then
    continued (fun c => if b == 0xF0 then 0x90 ≤ c else if b == 0xF4 then c < 0x90 else true)
      (b &&& 0x07).toNat 3 0 rest
  else .bad .invalidStart 1

/-- The pieces of a byte sequence of which the first `owned` bytes belong to an earlier piece. Each
piece comes with its bytes. -/
def piecesFrom : (owned : Nat) → Bytes → List (Piece × Bytes)
  | _, [] => []
  | owned + 1, _ :: rest => piecesFrom owned rest
  | 0, b :: rest =>
      let first := piece b rest
      (first, (b :: rest).take first.width) :: piecesFrom (first.width - 1) rest

def pieces (bytes : Bytes) : List (Piece × Bytes) := piecesFrom 0 bytes

/-- A bad run found by a strict reading: where it begins and its bytes. -/
structure DecodeFault where
  position : Nat
  run : Bytes
  reason : Reason
deriving DecidableEq

def DecodeFault.message (fault : DecodeFault) : Text :=
  let place : Text := match fault.run with
    | [b] => "byte 0x" ++ Text.hex 2 b.toNat ++ " in position " ++ Text.ofNat fault.position
    | run => "bytes in position " ++ Text.ofNat fault.position ++ "-"
        ++ Text.ofNat (fault.position + run.length - 1)
  "'utf-8' codec can't decode " ++ place ++ ": " ++ fault.reason.message

def decodeFrom (position : Nat) : List (Piece × Bytes) → Except DecodeFault Text
  | [] => .ok []
  | (.point c width, _) :: rest => (decodeFrom (position + width) rest).map (c :: ·)
  | (.bad reason _, run) :: _ => .error ⟨position, run, reason⟩

/-- The strict reading, which fails at the first bad run. -/
def decode (bytes : Bytes) : Except DecodeFault Text := decodeFrom 0 (pieces bytes)

def escapeByte (b : UInt8) : CodePoint := CodePoint.ofNat (0xDC00 + b.toNat)

/-- The escaping reading, which keeps every byte of a bad run as a surrogate. -/
def decodeEscaped (bytes : Bytes) : Text :=
  (pieces bytes).flatMap fun
    | (.point c _, _) => [c]
    | (.bad _ _, run) => run.map escapeByte

/-- The replacing reading, which writes one replacement character for a bad run. -/
def decodeReplaced (bytes : Bytes) : Text :=
  (pieces bytes).map fun
    | (.point c _, _) => c
    | (.bad _ _, _) => CodePoint.ofNat 0xFFFD

/-- The bytes of one code point by the general scheme, surrogates included. -/
def encodePoint (c : CodePoint) : Bytes :=
  let n := c.val
  if n < 0x80 then [n.toUInt8]
  else if n < 0x800 then [(0xC0 + n / 64).toUInt8, (0x80 + n % 64).toUInt8]
  else if n < 0x10000 then
    [(0xE0 + n / 4096).toUInt8, (0x80 + n / 64 % 64).toUInt8, (0x80 + n % 64).toUInt8]
  else
    [(0xF0 + n / 262144).toUInt8, (0x80 + n / 4096 % 64).toUInt8, (0x80 + n / 64 % 64).toUInt8,
      (0x80 + n % 64).toUInt8]

/-- A run of surrogates that cannot be written: where it begins, and its first code point. -/
structure EncodeFault where
  position : Nat
  length : Nat
  first : CodePoint
deriving DecidableEq

def EncodeFault.message (fault : EncodeFault) : Text :=
  let place : Text :=
    if fault.length = 1 then
      "character '\\u" ++ Text.hex 4 fault.first.val ++ "' in position " ++ Text.ofNat fault.position
    else
      "characters in position " ++ Text.ofNat fault.position ++ "-"
        ++ Text.ofNat (fault.position + fault.length - 1)
  "'utf-8' codec can't encode " ++ place ++ ": surrogates not allowed"

/-- The fault at a surrogate `c` that cannot be written: it reaches to the end of the run of
surrogates that `c` begins. -/
def faultAt (position : Nat) (c : CodePoint) (rest : Text) : EncodeFault :=
  ⟨position, (rest.takeWhile CodePoint.isSurrogate).length + 1, c⟩

def encodeEscapedFrom (position : Nat) : Text → Except EncodeFault Bytes
  | [] => .ok []
  | c :: rest =>
      if c.isByteEscape then
        (encodeEscapedFrom (position + 1) rest).map ((c.val - 0xDC00).toUInt8 :: ·)
      else if c.isSurrogate then .error (faultAt position c rest)
      else (encodeEscapedFrom (position + 1) rest).map (encodePoint c ++ ·)

/-- Writing with escapes: a surrogate that stands for a byte becomes that byte. -/
def encodeEscaped (t : Text) : Except EncodeFault Bytes := encodeEscapedFrom 0 t

def encodeFrom (position : Nat) : Text → Except EncodeFault Bytes
  | [] => .ok []
  | c :: rest =>
      if c.isSurrogate then .error (faultAt position c rest)
      else (encodeFrom (position + 1) rest).map (encodePoint c ++ ·)

/-- Strict writing, which fails at the first surrogate. -/
def encode (t : Text) : Except EncodeFault Bytes := encodeFrom 0 t

end Utf8

end Rebundle
