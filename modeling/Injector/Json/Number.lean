import Injector.Datum.Basic
import Injector.Text.Digit

/-!
# Numbers in JSON

An integer of 64 bits is itself. Any other number is read from as many leading digits as fit into 64
bits, scaled by one power of ten; one that is too large is well-formed and stands for no number.
-/

namespace Injector.Json

/-- The digits taken so far, the power of ten of the last of them, and whether one was left out. -/
structure Significand where
  /-- The digits taken, read as one natural. -/
  digits : Nat
  /-- The power of ten of the last digit taken. -/
  exponent : Int
  /-- Whether a digit did not fit. -/
  full : Bool

/-- Takes a digit before the point. -/
def Significand.pushWhole (s : Significand) (c : Char) : Significand :=
  if s.full || decide (maxWord < s.digits * 10 + Text.digitValue c) then
    ⟨s.digits, s.exponent + 1, true⟩
  else ⟨s.digits * 10 + Text.digitValue c, s.exponent, false⟩

/-- Takes a digit after the point. -/
def Significand.pushPart (s : Significand) (c : Char) : Significand :=
  if s.full || decide (maxWord < s.digits * 10 + Text.digitValue c) then
    ⟨s.digits, s.exponent, true⟩
  else ⟨s.digits * 10 + Text.digitValue c, s.exponent - 1, false⟩

/-- Reads the digits after a point, of which there is at least one. -/
def partAt (cs : List Char) : Option (List Char × List Char) :=
  match cs with
  | '.' :: rest =>
      if (rest.takeWhile Char.isDigit).isEmpty then none
      else some (rest.takeWhile Char.isDigit, rest.dropWhile Char.isDigit)
  | _ => some ([], cs)

/-- Reads an exponent, if there is one. -/
def exponentAt (cs : List Char) : Option (Option Int × List Char) :=
  match cs with
  | c :: rest =>
      if c = 'e' ∨ c = 'E' then
        let (negative, rest) :=
          match rest with
          | '+' :: rest => (false, rest)
          | '-' :: rest => (true, rest)
          | _ => (false, rest)
        let digits := rest.takeWhile Char.isDigit
        if digits.isEmpty then none
        else
          let n : Int := Text.naturalOf digits
          some (some (if negative then -n else n), rest.dropWhile Char.isDigit)
      else some (none, cs)
  | [] => some (none, cs)

/-- The value of an integer written with a sign; zero below zero and integers beyond 64 bits are
fractions. -/
def ofInteger (negative : Bool) (n : Nat) : Option Datum :=
  if !negative && n ≤ maxWord then some (.natural n)
  else if negative && 0 < n && n ≤ signBound then some (.negative n)
  else (Binary64.ofParts negative n 0).map .fraction

/-- Reads a number after its sign. -/
def numberAt (negative : Bool) (cs : List Char) : Option (Datum × List Char) := do
  let whole := cs.takeWhile Char.isDigit
  let rest := cs.dropWhile Char.isDigit
  if whole.isEmpty || (whole.head? == some '0' && whole.length != 1) then none
  else
    let s := whole.foldl Significand.pushWhole ⟨0, 0, false⟩
    let (part, rest) ← partAt rest
    let (exponent, rest) ← exponentAt rest
    let value :=
      if part.isEmpty && exponent.isNone && !s.full then ofInteger negative s.digits
      else
        let s := part.foldl Significand.pushPart { s with full := false }
        (Binary64.ofParts negative s.digits (s.exponent + exponent.getD 0)).map .fraction
    return (value.getD .unreadable, rest)

end Injector.Json
