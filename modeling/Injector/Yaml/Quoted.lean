import Injector.Text.Digit
import Injector.Yaml.Cursor

/-!
# Scalars between quotes

Between single quotes, two quotes stand for one. Between double quotes a backslash begins an escape;
before the end of a line it joins the next one without a blank. Gaps count as in plain scalars, and
no document begins or ends before the closing quote.
-/

namespace Injector.Yaml

/-- The character with the code point that hexadecimal digits write. -/
def charOf? (digits : List Char) : Option Char :=
  ((Text.naturalIn? 16 digits).filter Nat.isValidChar).map Char.ofNat

/-- The number of hexadecimal digits after the letter of an escape, if it takes any. -/
def escapeWidth? : Char → Option Nat
  | 'x' => some 2
  | 'u' => some 4
  | 'U' => some 8
  | _ => none

/-- The character that an escape without digits stands for. -/
def escaped? : Char → Option Char
  | '0' => some '\x00'
  | 'a' => some '\x07'
  | 'b' => some '\x08'
  | 't' => some '\t'
  | '\t' => some '\t'
  | 'n' => some '\n'
  | 'v' => some '\x0b'
  | 'f' => some '\x0c'
  | 'r' => some '\r'
  | 'e' => some '\x1b'
  | ' ' => some ' '
  | '"' => some '"'
  | '/' => some '/'
  | '\\' => some '\\'
  | 'N' => some '\u0085'
  | '_' => some '\u00a0'
  | 'L' => some '\u2028'
  | 'P' => some '\u2029'
  | _ => none

/-- Reads what follows a backslash, and the characters that it stands for, last first. -/
def escapeAt (fuel : Nat) (c : Cursor) : Option (List Char × Cursor) :=
  match c.nextLine? with
  | some (_, c) => (gapAt 0 fuel c).map fun r => (r.1.breaks.reverse, r.2)
  | none =>
      match c.rest with
      | letter :: rest =>
          match escapeWidth? letter with
          | some n =>
              if rest.length < n then none
              else (charOf? (rest.take n)).map fun ch => ([ch], c.skip (n + 1))
          | none => (escaped? letter).map fun ch => ([ch], c.skip 1)
      | [] => none

/-- Reads a scalar after its opening quote; `read` holds its characters so far, last first. -/
def quotedAt (quote : Char) : (fuel : Nat) → (read : List Char) → Cursor →
    Option (List Char × Cursor)
  | fuel + 1, read, c =>
      match c.rest with
      | [] => none
      | ch :: rest =>
          if c.isDocumentMark then none
          else if isSpace ch then
            (gapAt 0 fuel c).bind fun r => quotedAt quote fuel (r.1.text.reverse ++ read) r.2
          else if ch = quote then
            if ch = '\'' ∧ rest.head? = some '\'' then quotedAt quote fuel (ch :: read) (c.skip 2)
            else some (read.reverse, c.skip 1)
          else if ch = '\\' ∧ quote = '"' then
            (escapeAt fuel (c.skip 1)).bind fun r => quotedAt quote fuel (r.1 ++ read) r.2
          else quotedAt quote fuel (ch :: read) (c.skip 1)
  | 0, _, _ => none

end Injector.Yaml
