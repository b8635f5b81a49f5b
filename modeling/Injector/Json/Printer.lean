import Injector.Decimal.Shortest
import Injector.Json.Basic

/-!
# Printing JSON

A value is printed on one line, or indented by two blanks a level with one item or member a line.
Quotes, backslashes and control characters are escaped, and every other character stands for
itself.
-/

namespace Injector.Json

/-- The lower case hexadecimal digit of a number below sixteen. -/
def hexDigit (n : Nat) : Char := (Nat.toDigits 16 n).headD '0'

/-- The characters that write one character of a text. -/
def escape (c : Char) : List Char :=
  if c = '"' then ['\\', '"']
  else if c = '\\' then ['\\', '\\']
  else if c = '\x08' then ['\\', 'b']
  else if c = '\x0c' then ['\\', 'f']
  else if c = '\n' then ['\\', 'n']
  else if c = '\r' then ['\\', 'r']
  else if c = '\t' then ['\\', 't']
  else if c.toNat < 0x20 then
    ['\\', 'u', '0', '0', hexDigit (c.toNat / 16), hexDigit (c.toNat % 16)]
  else [c]

/-- A text between quotes. -/
def quoted (s : String) : String :=
  "\"" ++ String.ofList (s.toList.flatMap escape) ++ "\""

/-- Whole digits with a point before the last `places`. -/
private def pointed (ds : List Char) (places : Nat) : String :=
  String.ofList (ds.take (ds.length - places) ++ '.' :: ds.drop (ds.length - places))

/-- The text of a fraction: positional where the point stands at most sixteen places after or five
places before the first digit, and with an exponent elsewhere. Of two equally near texts it is the
one with the even digit. -/
def fractionText (x : Binary64) : String :=
  let d := Decimal.ofBinary64 .even x
  let ds := Nat.toDigits 10 d.digits
  let point : Int := ds.length + d.exponent
  let body :=
    if d.digits = 0 then "0.0"
    else if 0 ≤ d.exponent ∧ point ≤ 16 then
      String.ofList (ds ++ List.replicate d.exponent.toNat '0') ++ ".0"
    else if 0 < point ∧ point ≤ 16 then pointed ds (-d.exponent).toNat
    else if -5 < point ∧ point ≤ 0 then
      "0." ++ String.ofList (List.replicate (-point).toNat '0' ++ ds)
    else if ds.length = 1 then String.ofList ds ++ "e" ++ toString (point - 1)
    else pointed ds (ds.length - 1) ++ "e" ++ toString (point - 1)
  (if x.negative then "-" else "") ++ body

/-- The text of a truth value. -/
def boolText (b : Bool) : String := if b then "true" else "false"

mutual

/-- The value on one line without blanks. -/
def compact : Json → String
  | .null => "null"
  | .bool b => boolText b
  | .integer n => toString n
  | .fraction x => fractionText x
  | .string s => quoted s
  | .array [] => "[]"
  | .array (item :: items) => "[" ++ item.compact ++ compactItems items ++ "]"
  | .object [] => "\x7b\x7d"
  | .object ((key, value) :: members) =>
      "\x7b" ++ quoted key ++ ":" ++ value.compact ++ compactMembers members ++ "\x7d"

/-- The items of a list after the first. -/
def compactItems : List Json → String
  | [] => ""
  | item :: items => "," ++ item.compact ++ compactItems items

/-- The members of an object after the first. -/
def compactMembers : List (String × Json) → String
  | [] => ""
  | (key, value) :: members =>
      "," ++ quoted key ++ ":" ++ value.compact ++ compactMembers members

end

/-- The beginning of a line at a level of nesting. -/
def indent (level : Nat) : String := String.ofList (List.replicate (2 * level) ' ')

mutual

/-- The value with its parts on lines of their own, at a level of nesting. -/
def prettyAt (level : Nat) : Json → String
  | .null => "null"
  | .bool b => boolText b
  | .integer n => toString n
  | .fraction x => fractionText x
  | .string s => quoted s
  | .array [] => "[]"
  | .array (item :: items) =>
      "[\n" ++ indent (level + 1) ++ item.prettyAt (level + 1) ++ prettyItems level items ++
        "\n" ++ indent level ++ "]"
  | .object [] => "\x7b\x7d"
  | .object ((key, value) :: members) =>
      "\x7b\n" ++ indent (level + 1) ++ quoted key ++ ": " ++ value.prettyAt (level + 1) ++
        prettyMembers level members ++ "\n" ++ indent level ++ "\x7d"

/-- The items of a list after the first, each on a line. -/
def prettyItems (level : Nat) : List Json → String
  | [] => ""
  | item :: items =>
      ",\n" ++ indent (level + 1) ++ item.prettyAt (level + 1) ++ prettyItems level items

/-- The members of an object after the first, each on a line. -/
def prettyMembers (level : Nat) : List (String × Json) → String
  | [] => ""
  | (key, value) :: members =>
      ",\n" ++ indent (level + 1) ++ quoted key ++ ": " ++ value.prettyAt (level + 1) ++
        prettyMembers level members

end

/-- The value with its parts on lines of their own. -/
def pretty (j : Json) : String := j.prettyAt 0

end Injector.Json
