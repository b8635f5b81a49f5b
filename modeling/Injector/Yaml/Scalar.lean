import Injector.Datum.Basic
import Injector.Text.Digit

/-!
# Values of plain scalars

A scalar without quotes may be null, a truth value, an integer in one of four bases, or a number
with a fraction; whatever is none of these is a text. Decimal digits after a leading zero are a text
too. An integer that does not fit into 64 bits has no value, and one that does not fit into 128 bits
is no integer.
-/

namespace Injector.Yaml

/-- Whether decimal digits begin with a zero and go on. -/
def isPadded : List Char → Bool
  | '0' :: c :: rest => (c :: rest).all Char.isDigit
  | _ => false

/-- The natural that a scalar without sign writes. -/
def natural? : List Char → Option Nat
  | '0' :: 'x' :: digits => Text.naturalIn? 16 digits
  | '0' :: 'o' :: digits => Text.naturalIn? 8 digits
  | '0' :: 'b' :: digits => Text.naturalIn? 2 digits
  | digits => if isPadded digits then none else Text.naturalIn? 10 digits

/-- A scalar without its sign, and whether that is a minus. -/
def splitSign : List Char → Bool × List Char
  | '-' :: rest => (true, rest)
  | '+' :: rest => (false, rest)
  | cs => (false, cs)

/-- The exponent after the digits of a fraction. -/
def exponent? : List Char → Option Int
  | [] => some 0
  | c :: rest =>
      if c = 'e' ∨ c = 'E' then
        let s := splitSign rest
        (Text.naturalIn? 10 s.2).map fun n => if s.1 then -(n : Int) else n
      else none

/-- Powers of ten beyond which no digits of a plain scalar matter. -/
def maxExponent : Int := 2000

/-- The fraction that a scalar writes, if it is in range. -/
def fraction? (cs : List Char) : Option Binary64 :=
  let s := splitSign cs
  let whole := s.2.takeWhile Char.isDigit
  let rest := s.2.dropWhile Char.isDigit
  let part : List Char × List Char :=
    match rest with
    | '.' :: rest => (rest.takeWhile Char.isDigit, rest.dropWhile Char.isDigit)
    | _ => ([], rest)
  let digits := whole ++ part.1
  if digits.isEmpty then none
  else (exponent? part.2).bind fun e =>
    let significand := Text.naturalOf digits
    let exponent := e - part.1.length
    if significand = 0 ∨ exponent < -maxExponent - digits.length then some (Binary64.zero s.1)
    else if maxExponent < exponent then none
    else Binary64.ofDecimal s.1 significand exponent

/-- The words for null. -/
def isNull (text : String) : Bool := text ∈ ["~", "null", "Null", "NULL"]

/-- The truth value that a scalar writes. -/
def truth? (text : String) : Option Bool :=
  if text ∈ ["true", "True", "TRUE"] then some true
  else if text ∈ ["false", "False", "FALSE"] then some false
  else none

/-- The natural of 64 bits that a scalar without minus writes. -/
def word? (text : String) : Option Nat := do
  let s := splitSign text.toList
  let n ← natural? s.2
  if s.1 || Json.maxWord < n then none else some n

/-- The largest integer of 128 bits. -/
def maxLongWord : Nat := 340282366920938463463374607431768211455

/-- The least integer of 128 bits with a sign, without that sign. -/
def longSignBound : Nat := 170141183460469231731687303715884105728

/-- A number that is no integer. -/
def number? (text : String) : Option Datum :=
  if text ∈ [".inf", ".Inf", ".INF", "+.inf", "+.Inf", "+.INF"] then some (.infinite false)
  else if text ∈ ["-.inf", "-.Inf", "-.INF"] then some (.infinite true)
  else if text ∈ [".nan", ".NaN", ".NAN"] then some .undefined
  else if isPadded (splitSign text.toList).2 then none
  else (fraction? text.toList).map .fraction

/-- The value of a plain scalar, if it has one. -/
def plainValue? (text : String) : Option Datum :=
  if text.isEmpty || isNull text then some .null
  else
    match truth? text with
    | some b => some (.bool b)
    | none =>
        let s := splitSign text.toList
        let other := (number? text).getD (.text text)
        match natural? s.2 with
        | none => some other
        | some n =>
            if s.1 then
              if n ≤ Json.signBound then some (.negative n)
              else if n ≤ longSignBound then none
              else some other
            else if n ≤ Json.maxWord then some (.natural n)
            else if n ≤ maxLongWord then none
            else some other

end Injector.Yaml
