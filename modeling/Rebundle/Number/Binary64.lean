/-!
# Binary64 numbers

A finite number is a whole mantissa times a power of two. Every number is made by rounding an exact
quotient to the nearest representable value, a tie going to the even mantissa, so all arithmetic
stays in the naturals.
-/

namespace Rebundle

/-- A number of the 64-bit binary format. A finite one has a mantissa below `2^53` and an exponent of
at least `-1074`; the mantissa has its top bit unless the exponent is the least one. -/
inductive Binary64 where
  | nan
  | infinity (negative : Bool)
  | finite (negative : Bool) (mantissa : Nat) (exponent : Int)
deriving DecidableEq

/-- The whole number nearest to `num / den`, the even one of two. -/
def roundQuotient (num den : Nat) : Nat :=
  let quotient := num / den
  let excess := 2 * (num % den)
  if excess < den then quotient
  else if den < excess then quotient + 1
  else quotient + quotient % 2

namespace Binary64

def leastExponent : Int := -1074

def greatestExponent : Int := 971

def zero (negative : Bool) : Binary64 := .finite negative 0 leastExponent

/-- Numerator and denominator of `num / den` divided by `2 ^ exponent`. -/
def scaled (num den : Nat) (exponent : Int) : Nat × Nat :=
  if exponent < 0 then (num * Nat.pow 2 (-exponent).toNat, den)
  else (num, den * Nat.pow 2 exponent.toNat)

/-- The exponent at which `num / den` has a mantissa of 53 bits, unless it is below the least. -/
def exponentOf (num den : Nat) : Int :=
  let guess : Int := (num.log2 : Int) - den.log2 - 53
  let (n, d) := scaled num den guess
  max (if n / d < Nat.pow 2 53 then guess else guess + 1) leastExponent

/-- The number nearest to `num / den`, of the given sign. -/
def ofRatio (negative : Bool) (num den : Nat) : Binary64 :=
  if num = 0 then zero negative
  else
    let exponent := exponentOf num den
    let (n, d) := scaled num den exponent
    let mantissa := roundQuotient n d
    let (mantissa, exponent) :=
      if mantissa = Nat.pow 2 53 then (Nat.pow 2 52, exponent + 1) else (mantissa, exponent)
    if greatestExponent < exponent then .infinity negative else .finite negative mantissa exponent

/-- The number nearest to `digits * 10 ^ exponent`. Exponents far out of range are settled by their
size alone. -/
def ofDecimal (negative : Bool) (digits : Nat) (exponent : Int) : Binary64 :=
  let places : Int := (Nat.toDigits 10 digits).length
  if digits = 0 || exponent + places < -400 then zero negative
  else if 400 < exponent + places then .infinity negative
  else if exponent < 0 then ofRatio negative digits (Nat.pow 10 (-exponent).toNat)
  else ofRatio negative (digits * Nat.pow 10 exponent.toNat) 1

/-- The size of a finite number as a quotient. -/
def magnitude (mantissa : Nat) (exponent : Int) : Nat × Nat :=
  if exponent < 0 then (mantissa, Nat.pow 2 (-exponent).toNat)
  else (mantissa * Nat.pow 2 exponent.toNat, 1)

end Binary64

/-- A number as it is written in data: a whole number of any size or a binary64 one. -/
inductive Number where
  | whole (value : Int)
  | real (value : Binary64)
deriving DecidableEq

/-- A point of the extended number line: a quotient or one of its two ends. -/
inductive Extended where
  | least
  | quotient (num : Int) (den : Nat)
  | greatest

/-- The place of a number on the line; a NaN has none. -/
def Number.place? : Number → Option Extended
  | .whole n => some (.quotient n 1)
  | .real .nan => none
  | .real (.infinity negative) => some (if negative then .least else .greatest)
  | .real (.finite negative mantissa exponent) =>
      let (num, den) := Binary64.magnitude mantissa exponent
      some (.quotient (if negative then -num else num) den)

def Extended.below : Extended → Extended → Bool
  | .quotient a b, .quotient c d => a * d < c * b
  | .least, .least => false
  | .least, _ => true
  | .greatest, _ => false
  | .quotient _ _, .least => false
  | .quotient _ _, .greatest => true

/-- Whether `a` is smaller than `b`; nothing compares with a NaN. -/
def Number.below (a b : Number) : Bool :=
  match a.place?, b.place? with
  | some p, some q => p.below q
  | _, _ => false

end Rebundle
