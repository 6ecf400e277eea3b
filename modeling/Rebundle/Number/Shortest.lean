import Rebundle.Number.Binary64
import Rebundle.Text.Basic

/-!
# Shortest decimal form

The shortest decimal that reads back as a given binary64 number. For one digit, two, and so on up to
seventeen, the two neighbours of the number on the grid of that many digits are tried: the first
grid with a neighbour in the interval of values that round to the number wins, and of two the nearer
one is taken. Everything is compared in the naturals, on a common scale.
-/

namespace Rebundle

namespace Shortest

/-- The number of decimal digits of `n`. -/
def places (n : Nat) : Nat := (Nat.toDigits 10 n).length

/-- The exponent `p` with `10 ^ p ≤ num / den < 10 ^ (p + 1)`, for a positive quotient. -/
def decade (num den : Nat) : Int :=
  if den ≤ num then places (num / den) - 1
  else
    let below := places (den / num)
    if den ≤ num * Nat.pow 10 (below - 1) then -((below : Int) - 1) else -(below : Int)

/-- The rounding interval of a number in quarter units of its last binary place, and whether its ends
belong to it. -/
structure Interval where
  lower : Nat
  centre : Nat
  upper : Nat
  closed : Bool

def Interval.ofMantissa (mantissa : Nat) (exponent : Int) : Interval :=
  let narrow := mantissa = Nat.pow 2 52 ∧ Binary64.leastExponent < exponent
  { lower := 4 * mantissa - (if narrow then 1 else 2)
    centre := 4 * mantissa
    upper := 4 * mantissa + 2
    closed := mantissa % 2 == 0 }

/-- `count * 10 ^ grid` on the common scale of quarter units `2 ^ (exponent - 2)`: the scaled value
and the factor by which quarter units are scaled. -/
def onScale (count : Nat) (grid exponent : Int) : Nat × Nat :=
  let unit := exponent - 2
  (count * Nat.pow 10 grid.toNat * Nat.pow 2 (-unit).toNat,
    Nat.pow 10 (-grid).toNat * Nat.pow 2 unit.toNat)

def Interval.holds (interval : Interval) (count : Nat) (grid exponent : Int) : Bool :=
  let (value, scale) := onScale count grid exponent
  if interval.closed then interval.lower * scale ≤ value && value ≤ interval.upper * scale
  else interval.lower * scale < value && value < interval.upper * scale

/-- The neighbour of the number on the grid of `digits` digits that rounds to it, if any. -/
def onGrid? (interval : Interval) (exponent top : Int) (digits : Nat) : Option (Nat × Int) :=
  let grid := top - digits + 1
  let unit := exponent - 2
  let num := interval.centre * Nat.pow 2 unit.toNat * Nat.pow 10 (-grid).toNat
  let den := Nat.pow 10 grid.toNat * Nat.pow 2 (-unit).toNat
  let below := num / den
  let belowHolds := interval.holds below grid exponent
  let aboveHolds := interval.holds (below + 1) grid exponent
  let rest := 2 * (num % den)
  if belowHolds && aboveHolds then
    some (if rest < den || (rest == den && below % 2 == 0) then below else below + 1, grid)
  else if belowHolds then some (below, grid)
  else if aboveHolds then some (below + 1, grid)
  else none

/-- Digits and exponent of the shortest decimal for a positive number. -/
def ofPositive (mantissa : Nat) (exponent : Int) : Nat × Int :=
  let (num, den) := Binary64.magnitude mantissa exponent
  let top := decade num den
  let interval := Interval.ofMantissa mantissa exponent
  ((List.range 17).findSome? fun n => onGrid? interval exponent top (n + 1)).getD (0, 0)

end Shortest

namespace Binary64

/-- Positional notation of `digits * 10 ^ exponent` with at least one place behind the point. -/
def positional (digits : List Char) (exponent : Int) : List Char :=
  let size : Int := digits.length
  if 0 ≤ exponent then digits ++ List.replicate exponent.toNat '0' ++ ['.', '0']
  else if -exponent < size then
    digits.take (size + exponent).toNat ++ ['.'] ++ digits.drop (size + exponent).toNat
  else ['0', '.'] ++ List.replicate (-exponent - size).toNat '0' ++ digits

/-- Scientific notation, with an exponent of at least two digits. -/
def scientific (digits : List Char) (top : Int) : List Char :=
  let exponent := Nat.toDigits 10 top.natAbs
  let fraction := if digits.length ≤ 1 then [] else '.' :: digits.drop 1
  digits.take 1 ++ fraction ++ ['e', if top < 0 then '-' else '+']
    ++ (if exponent.length < 2 then '0' :: exponent else exponent)

/-- The shortest text that reads back: positional from `10^-4` up to `10^16`, scientific beyond. -/
def text : Binary64 → Text
  | .nan => "nan"
  | .infinity negative => if negative then "-inf" else "inf"
  | .finite negative mantissa exponent =>
      let size :=
        if mantissa = 0 then ['0', '.', '0']
        else
          let (count, grid) := Shortest.ofPositive mantissa exponent
          let digits := Nat.toDigits 10 count
          let trailing := (digits.reverse.takeWhile (· == '0')).length
          let digits := digits.take (digits.length - trailing)
          let grid := grid + trailing
          let top := grid + digits.length - 1
          if -4 ≤ top && top < 16 then positional digits grid else scientific digits top
      (if negative then '-' :: size else size).map CodePoint.ofChar

/-- The text with exactly three places, a half going to the even neighbour. -/
def thousandths : Binary64 → Text
  | .finite negative mantissa exponent =>
      let (num, den) := magnitude mantissa exponent
      let count := roundQuotient (num * 1000) den
      let fraction := Nat.toDigits 10 (count % 1000)
      let size := Nat.toDigits 10 (count / 1000) ++ ['.'] ++ List.replicate (3 - fraction.length) '0' ++ fraction
      (if negative then '-' :: size else size).map CodePoint.ofChar
  | other => other.text

end Binary64

def Number.text : Number → Text
  | .whole n => Text.ofInt n
  | .real x => x.text

end Rebundle
