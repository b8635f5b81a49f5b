/-!
# Binary fractions of 53 bits

Numbers in documents that are not integers of 64 bits are kept as binary fractions with 53
significant bits and an exponent of at least -1074. Rounding is to the nearest fraction, and of two
equally near ones to that with the even mantissa. All arithmetic is exact on naturals.
-/

namespace Injector

/-- A power of a natural. -/
def powerOf (base exponent : Nat) : Nat := Nat.pow base exponent

/-- A fraction `mantissa * 2 ^ exponent`, with a sign that zero has too. -/
structure Binary64 where
  /-- Whether the number stands below zero, or is the zero that does. -/
  negative : Bool
  /-- The significant bits. -/
  mantissa : Nat
  /-- The power of two of the last bit. -/
  exponent : Int
  deriving DecidableEq, Repr, Inhabited

namespace Binary64

/-- The quotient rounded to the nearest natural, a half to the even one. -/
def roundHalfEven (num den : Nat) : Nat :=
  let q := num / den
  let r := num % den
  if 2 * r < den then q else if 2 * r = den then q + q % 2 else q + 1

/-- Numerator and denominator of `num / den * 2 ^ e`. -/
def scaled (num den : Nat) (e : Int) : Nat × Nat :=
  if 0 ≤ e then (num * powerOf 2 e.toNat, den) else (num, den * powerOf 2 (-e).toNat)

/-- The exponent at which a positive quotient has 53 bits before the point, or the least one. -/
def lastBit (num den : Nat) : Int :=
  let guess : Int := (num.log2 : Int) - den.log2 - 52
  let s := scaled num den (-guess)
  max (-1074) (if s.1 / s.2 < powerOf 2 52 then guess - 1 else guess)

/-- The fraction nearest to the quotient; there is none when it is too large. -/
def ofRatio (negative : Bool) (num den : Nat) : Option Binary64 :=
  if num = 0 then some ⟨negative, 0, -1074⟩
  else
    let e := lastBit num den
    let s := scaled num den (-e)
    let m := roundHalfEven s.1 s.2
    let e := if m = powerOf 2 53 then e + 1 else e
    let m := if m = powerOf 2 53 then powerOf 2 52 else m
    if 971 < e then none else some ⟨negative, m, e⟩

/-- The zero of a sign. -/
def zero (negative : Bool) : Binary64 := ⟨negative, 0, -1074⟩

/-- The product, rounded, under the sign of `a`. -/
def times (a b : Binary64) : Option Binary64 :=
  let s := scaled (a.mantissa * b.mantissa) 1 (a.exponent + b.exponent)
  ofRatio a.negative s.1 s.2

/-- The quotient, rounded, under the sign of `a`. -/
def dividedBy (a b : Binary64) : Option Binary64 :=
  let s := scaled a.mantissa b.mantissa (a.exponent - b.exponent)
  ofRatio a.negative s.1 s.2

/-- The fraction nearest to a power of ten. -/
def powerOfTen (n : Nat) : Option Binary64 := ofRatio false (powerOf 10 n) 1

/-- The largest power of ten that has a nearest fraction. -/
def maxPower : Nat := 308

/-- Scales a number down by a power of ten: first by whole steps of the largest power, each
rounded, then by what is left. The third step reaches zero. -/
def scaleDown : Nat → Binary64 → Nat → Option Binary64
  | 0, a, _ => some (zero a.negative)
  | steps + 1, a, n =>
      if n ≤ maxPower then (powerOfTen n).bind a.dividedBy
      else if a.mantissa = 0 then some a
      else
        (powerOfTen maxPower).bind fun p =>
          (a.dividedBy p).bind fun b => scaleDown steps b (n - maxPower)

/-- Reads `significand * 10 ^ exponent` in two roundings: that of the significand, and that of one
multiplication or division by a rounded power of ten. There is no number when it is too large. -/
def ofParts (negative : Bool) (significand : Nat) (exponent : Int) : Option Binary64 :=
  (ofRatio negative significand 1).bind fun a =>
    if exponent < 0 then scaleDown 4 a (-exponent).toNat
    else if exponent.toNat ≤ maxPower then (powerOfTen exponent.toNat).bind a.times
    else if a.mantissa = 0 then some a
    else none

/-- Reads `significand * 10 ^ exponent` in one rounding. -/
def ofDecimal (negative : Bool) (significand : Nat) (exponent : Int) : Option Binary64 :=
  if exponent < 0 then ofRatio negative significand (powerOf 10 (-exponent).toNat)
  else ofRatio negative (significand * powerOf 10 exponent.toNat) 1

end Binary64

end Injector
