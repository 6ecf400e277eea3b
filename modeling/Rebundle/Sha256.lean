import Rebundle.Text.Utf8

/-!
# SHA-256

The digest of a message. The message is padded to whole blocks of sixteen words; every block is
stretched to sixty-four words, and each of these turns the eight words of the state once.
-/

namespace Rebundle.Sha256

/-- The first 32 bits of the fractional parts of the cube roots of the first sixty-four primes. -/
def roundConstants : List UInt32 :=
  [0x428a2f98, 0x71374491, 0xb5c0fbcf, 0xe9b5dba5, 0x3956c25b, 0x59f111f1, 0x923f82a4, 0xab1c5ed5,
   0xd807aa98, 0x12835b01, 0x243185be, 0x550c7dc3, 0x72be5d74, 0x80deb1fe, 0x9bdc06a7, 0xc19bf174,
   0xe49b69c1, 0xefbe4786, 0x0fc19dc6, 0x240ca1cc, 0x2de92c6f, 0x4a7484aa, 0x5cb0a9dc, 0x76f988da,
   0x983e5152, 0xa831c66d, 0xb00327c8, 0xbf597fc7, 0xc6e00bf3, 0xd5a79147, 0x06ca6351, 0x14292967,
   0x27b70a85, 0x2e1b2138, 0x4d2c6dfc, 0x53380d13, 0x650a7354, 0x766a0abb, 0x81c2c92e, 0x92722c85,
   0xa2bfe8a1, 0xa81a664b, 0xc24b8b70, 0xc76c51a3, 0xd192e819, 0xd6990624, 0xf40e3585, 0x106aa070,
   0x19a4c116, 0x1e376c08, 0x2748774c, 0x34b0bcb5, 0x391c0cb3, 0x4ed8aa4a, 0x5b9cca4f, 0x682e6ff3,
   0x748f82ee, 0x78a5636f, 0x84c87814, 0x8cc70208, 0x90befffa, 0xa4506ceb, 0xbef9a3f7, 0xc67178f2]

/-- The eight words that are turned. -/
structure State where
  a : UInt32
  b : UInt32
  c : UInt32
  d : UInt32
  e : UInt32
  f : UInt32
  g : UInt32
  h : UInt32
deriving DecidableEq

namespace State

/-- The first 32 bits of the fractional parts of the square roots of the first eight primes. -/
def initial : State :=
  ⟨0x6a09e667, 0xbb67ae85, 0x3c6ef372, 0xa54ff53a, 0x510e527f, 0x9b05688c, 0x1f83d9ab, 0x5be0cd19⟩

/-- Word by word. -/
def add (s t : State) : State :=
  ⟨s.a + t.a, s.b + t.b, s.c + t.c, s.d + t.d, s.e + t.e, s.f + t.f, s.g + t.g, s.h + t.h⟩

def words (s : State) : List UInt32 := [s.a, s.b, s.c, s.d, s.e, s.f, s.g, s.h]

end State

/-- The word with its bits turned to the right. -/
def turn (count : UInt32) (w : UInt32) : UInt32 := (w >>> count) ||| (w <<< (32 - count))

def bigSigma0 (w : UInt32) : UInt32 := turn 2 w ^^^ turn 13 w ^^^ turn 22 w

def bigSigma1 (w : UInt32) : UInt32 := turn 6 w ^^^ turn 11 w ^^^ turn 25 w

def smallSigma0 (w : UInt32) : UInt32 := turn 7 w ^^^ turn 18 w ^^^ (w >>> 3)

def smallSigma1 (w : UInt32) : UInt32 := turn 17 w ^^^ turn 19 w ^^^ (w >>> 10)

/-- The bits of `f` where `e` has ones, those of `g` elsewhere. -/
def choose (e f g : UInt32) : UInt32 := (e &&& f) ^^^ (~~~e &&& g)

/-- The bits that at least two of the words have. -/
def majority (a b c : UInt32) : UInt32 := (a &&& b) ^^^ (a &&& c) ^^^ (b &&& c)

/-- One turn of the state, by a constant and a word of the stretched block. -/
def round (s : State) (constant word : UInt32) : State :=
  let first := s.h + bigSigma1 s.e + choose s.e s.f s.g + constant + word
  let second := bigSigma0 s.a + majority s.a s.b s.c
  ⟨first + second, s.a, s.b, s.c, s.d + first, s.e, s.f, s.g⟩

/-- The next word of a stretched block, from the sixteen words before it. -/
def nextWord : List UInt32 → UInt32
  | [w0, w1, _, _, _, _, _, _, _, w9, _, _, _, _, w14, _] =>
      w0 + smallSigma0 w1 + w9 + smallSigma1 w14
  | _ => 0

/-- `count` words of a stretched block; `window` holds the next sixteen. -/
def stretch : (count : Nat) → (window : List UInt32) → List UInt32
  | 0, _ => []
  | _ + 1, [] => []
  | count + 1, word :: rest => word :: stretch count (rest ++ [nextWord (word :: rest)])

/-- The state after a block of sixteen words. -/
def compress (s : State) (block : List UInt32) : State :=
  s.add ((roundConstants.zip (stretch 64 block)).foldl (fun t (constant, word) => round t constant word) s)

/-- The bytes of a number of `size` bytes, the highest first. -/
def bigEndian (size n : Nat) : Bytes :=
  ((List.range size).map fun i => (n / Nat.pow 256 i % 256).toUInt8).reverse

/-- The message, a one bit, as many zeros as are needed, and the number of bits. -/
def pad (message : Bytes) : Bytes :=
  message ++ [0x80] ++ List.replicate ((119 - message.length % 64) % 64) 0
    ++ bigEndian 8 (8 * message.length)

/-- Words of four bytes each; what is left over is dropped. -/
def wordsOf : Bytes → List UInt32
  | a :: b :: c :: d :: rest =>
      ((a.toUInt32 <<< 24) ||| (b.toUInt32 <<< 16) ||| (c.toUInt32 <<< 8) ||| d.toUInt32) :: wordsOf rest
  | _ => []

/-- The blocks of sixteen words, of which there are at most `count`. -/
def blocks : (count : Nat) → List UInt32 → List (List UInt32)
  | 0, _ => []
  | _ + 1, [] => []
  | count + 1, words => words.take 16 :: blocks count (words.drop 16)

/-- The digest of a message. -/
def digest (message : Bytes) : Bytes :=
  let words := wordsOf (pad message)
  let final := (blocks words.length words).foldl compress State.initial
  final.words.flatMap fun w => bigEndian 4 w.toNat

/-- The digest in hexadecimal digits. -/
def hexDigest (message : Bytes) : Text := (digest message).flatMap fun b => Text.hex 2 b.toNat

end Rebundle.Sha256
