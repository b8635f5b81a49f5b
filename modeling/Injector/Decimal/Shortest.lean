import Injector.Decimal.Binary64

/-!
# The fewest digits that read back

A binary fraction is written with the least number of decimal digits of which it is the nearest
fraction. Of two candidates with that many digits the nearer one is written; which of two equally
near ones it is, is up to what is written.
-/

namespace Injector

/-- The number `digits * 10 ^ exponent`. -/
structure Decimal where
  /-- The digits, read as one natural. -/
  digits : Nat
  /-- The power of ten of the last digit. -/
  exponent : Int
  deriving DecidableEq, Repr

/-- Which of two equally near numbers is written. -/
inductive Tie where
  /-- The larger one. -/
  | up
  /-- The one whose last digit is even. -/
  | even
  deriving DecidableEq, Repr

/-- Whether the number above `down` is written when both are equally near. -/
def Tie.takesUp (tie : Tie) (down : Nat) : Bool :=
  match tie with
  | .up => true
  | .even => down % 2 = 1

namespace Decimal

/-- The number of decimal digits of a natural. -/
def digitCount (n : Nat) : Nat := (Nat.toDigits 10 n).length

/-- The power of ten of the first digit of a positive quotient. -/
def leadingPower (num den : Nat) : Int :=
  if den ≤ num then (digitCount (num / den) : Int) - 1
  else
    let j := digitCount den - digitCount num
    if den ≤ num * powerOf 10 j then -(j : Int) else -(j : Int) - 1

/-- The interval of the numbers whose nearest fraction is a given one, in quarters of its last
bit, and whether its ends belong to it. -/
structure Interval where
  /-- The lower end. -/
  low : Nat
  /-- The fraction itself. -/
  middle : Nat
  /-- The upper end. -/
  high : Nat
  /-- Whether the ends belong to the interval. -/
  closed : Bool

/-- The interval of a fraction. Below a power of two the fractions stand twice as close. -/
def interval (x : Binary64) : Interval :=
  let m := 4 * x.mantissa
  let gap := if x.mantissa = powerOf 2 52 ∧ -1074 < x.exponent then 1 else 2
  ⟨m - gap, m, m + 2, x.mantissa % 2 = 0⟩

/-- Whether `num / den` lies in the interval. -/
def Interval.holds (i : Interval) (num den : Nat) : Bool :=
  if i.closed then i.low * den ≤ num && num ≤ i.high * den
  else i.low * den < num && num < i.high * den

/-- Drops the zeros at the end of the digits. -/
def trimZeros : Nat → Decimal → Decimal
  | 0, d => d
  | fuel + 1, d =>
      if d.digits ≠ 0 ∧ d.digits % 10 = 0 then trimZeros fuel ⟨d.digits / 10, d.exponent + 1⟩
      else d

/-- Searches the grids of `n` digits and more for a number in the interval. The quarters count
`quarter.1 / quarter.2` each, and one unit of a grid is `unit.1 / unit.2` quarters. -/
def search (tie : Tie) (i : Interval) (quarter : Nat × Nat) (lead : Int) : Nat → Nat → Decimal
  | 0, _ => ⟨0, 0⟩
  | fuel + 1, n =>
      let power : Int := lead - n + 1
      let unit :=
        if 0 ≤ power then (powerOf 10 power.toNat * quarter.2, quarter.1)
        else (quarter.2, quarter.1 * powerOf 10 (-power).toNat)
      let down := i.middle * unit.2 / unit.1
      let up := down + 1
      let downIn := i.holds (down * unit.1) unit.2
      let upIn := i.holds (up * unit.1) unit.2
      let twice := 2 * (i.middle * unit.2)
      let between := (down + up) * unit.1
      let upNearer := between < twice || (between == twice && tie.takesUp down)
      if upIn && (!downIn || upNearer) then ⟨up, power⟩
      else if downIn then ⟨down, power⟩
      else search tie i quarter lead fuel (n + 1)

/-- The fewest digits that read back as `x`. -/
def ofBinary64 (tie : Tie) (x : Binary64) : Decimal :=
  if x.mantissa = 0 then ⟨0, 0⟩
  else
    let i := interval x
    let quarter := Binary64.scaled 1 1 (x.exponent - 2)
    let lead := leadingPower (i.middle * quarter.1) quarter.2
    trimZeros 20 (search tie i quarter lead 17 1)

/-- The digits without an exponent: zeros fill the places up to the point. -/
def positional (d : Decimal) : String :=
  let ds := Nat.toDigits 10 d.digits
  if 0 ≤ d.exponent then
    String.ofList (if d.digits = 0 then ['0'] else ds ++ List.replicate d.exponent.toNat '0')
  else
    let places := (-d.exponent).toNat
    let ds := List.replicate (places + 1 - ds.length) '0' ++ ds
    String.ofList (ds.take (ds.length - places) ++ '.' :: ds.drop (ds.length - places))

end Decimal

/-- The shortest text of a fraction, without exponent and without a point that nothing follows; of
two equally near texts the larger. -/
def Binary64.text (x : Binary64) : String :=
  (if x.negative then "-" else "") ++ (Decimal.ofBinary64 .up x).positional

end Injector
