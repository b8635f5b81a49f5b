import Injector.Datum.Basic
import Injector.Text.Digit

/-!
# Texts in JSON

Between quotes stand characters, escaped or not, and code units of sixteen bits by their number. Of
the latter, surrogates make a text in pairs only; what has half of a pair is well-formed and stands
for no text.
-/

namespace Injector.Json

/-- Reads four hexadecimal digits. -/
def hexAt : List Char → Option (Nat × List Char)
  | a :: b :: c :: d :: rest => (Text.naturalIn? 16 [a, b, c, d]).map (·, rest)
  | _ => none

/-- A piece of a text as it is written. -/
inductive Piece where
  /-- A character, escaped or not. -/
  | char (c : Char)
  /-- A code unit of sixteen bits, escaped by its number. -/
  | unit (n : Nat)
  deriving DecidableEq, Repr

/-- Reads what follows a backslash. -/
def escapeAt : List Char → Option (Piece × List Char)
  | '"' :: rest => some (.char '"', rest)
  | '\\' :: rest => some (.char '\\', rest)
  | '/' :: rest => some (.char '/', rest)
  | 'b' :: rest => some (.char '\x08', rest)
  | 'f' :: rest => some (.char '\x0c', rest)
  | 'n' :: rest => some (.char '\n', rest)
  | 'r' :: rest => some (.char '\r', rest)
  | 't' :: rest => some (.char '\t', rest)
  | 'u' :: rest => (hexAt rest).map fun r => (.unit r.1, r.2)
  | _ => none

/-- Reads a text after its opening quote; `read` holds its pieces so far, last first. -/
def piecesAt : Nat → (read : List Piece) → List Char → Option (List Piece × List Char)
  | fuel + 1, read, c :: rest =>
      if c = '"' then some (read.reverse, rest)
      else if c = '\\' then
        match escapeAt rest with
        | some (p, rest) => piecesAt fuel (p :: read) rest
        | none => none
      else if c.toNat < 0x20 then none
      else piecesAt fuel (.char c :: read) rest
  | _, _, _ => none

/-- The text of pieces, of which `read` holds the characters so far, last first. Surrogates stand in
pairs only. -/
def textOf? (read : List Char) : List Piece → Option String
  | [] => some (String.ofList read.reverse)
  | .char c :: rest => textOf? (c :: read) rest
  | .unit n :: .unit m :: rest =>
      if 0xD800 ≤ n ∧ n ≤ 0xDBFF then
        if 0xDC00 ≤ m ∧ m ≤ 0xDFFF then
          textOf? (Char.ofNat (0x10000 + (n - 0xD800) * 0x400 + (m - 0xDC00)) :: read) rest
        else none
      else if 0xDC00 ≤ n ∧ n ≤ 0xDFFF then none
      else textOf? (Char.ofNat n :: read) (.unit m :: rest)
  | .unit n :: rest =>
      if 0xD800 ≤ n ∧ n ≤ 0xDFFF then none else textOf? (Char.ofNat n :: read) rest

/-- Reads a text after its opening quote. -/
def textAt (fuel : Nat) (cs : List Char) : Option (Datum × List Char) :=
  (piecesAt fuel [] cs).map fun r =>
    (match textOf? [] r.1 with
      | some s => .text s
      | none => .unreadable, r.2)

end Injector.Json
