/-!
# Places in a YAML text

A line ends with a line feed, a carriage return, both together, or one of three further breaks. A
cursor stands before a character and counts the characters, lines and columns behind it.
-/

namespace Injector.Yaml

/-- Whether a character may stand in a text: tabs, line breaks and what can be printed. -/
def isAllowed (c : Char) : Bool :=
  let n := c.toNat
  n == 0x09 || n == 0x0A || n == 0x0D || (0x20 ≤ n && n ≤ 0x7E) || n == 0x85 ||
    (0xA0 ≤ n && n ≤ 0xFFFD) || 0x10000 ≤ n

/-- The blanks of a line. -/
def isBlank (c : Char) : Bool := c == ' ' || c == '\t'

/-- The characters that end a line. -/
def isBreak (c : Char) : Bool :=
  c == '\n' || c == '\r' || c == '\u0085' || c == '\u2028' || c == '\u2029'

/-- The blanks of a line and what ends one. -/
def isSpace (c : Char) : Bool := isBlank c || isBreak c

/-- Whether a word ends before what follows. -/
def endsWord : List Char → Bool
  | [] => true
  | c :: _ => isSpace c

/-- A place in a text. -/
structure Cursor where
  /-- The characters after it. -/
  rest : List Char
  /-- The number of characters before it. -/
  index : Nat
  /-- The number of lines before its own. -/
  row : Nat
  /-- The number of characters before it on its line. -/
  column : Nat
  deriving Repr

namespace Cursor

/-- The place before a text. -/
def start (cs : List Char) : Cursor := ⟨cs, 0, 0, 0⟩

/-- The place some characters further on the line. -/
def skip (c : Cursor) (n : Nat) : Cursor := ⟨c.rest.drop n, c.index + n, c.row, c.column + n⟩

/-- The characters of a kind up to the first other one, and the place before that. -/
def span (c : Cursor) (p : Char → Bool) : List Char × Cursor :=
  let taken := c.rest.takeWhile p
  (taken, c.skip taken.length)

/-- The place at the beginning of the next line, and the break in between as it counts in a text:
the two separators of Unicode stay what they are, and any other break is a line feed. -/
def nextLine? (c : Cursor) : Option (Char × Cursor) :=
  match c.rest with
  | '\r' :: '\n' :: rest => some ('\n', ⟨rest, c.index + 2, c.row + 1, 0⟩)
  | ch :: rest =>
      if isBreak ch then
        some (if ch == '\u2028' || ch == '\u2029' then ch else '\n',
          ⟨rest, c.index + 1, c.row + 1, 0⟩)
      else none
  | [] => none

/-- Whether three times a character stand alone at the beginning of the line. -/
def isMark (c : Cursor) (ch : Char) : Bool :=
  c.column == 0 && c.rest.take 3 == [ch, ch, ch] && endsWord (c.rest.drop 3)

/-- Whether a document begins or ends at the place. -/
def isDocumentMark (c : Cursor) : Bool := c.isMark '-' || c.isMark '.'

end Cursor

/-- What stands between two words of a scalar. -/
structure Gap where
  /-- The blanks before the first line break. -/
  blanks : List Char
  /-- The line breaks. -/
  breaks : List Char
  deriving Repr

/-- The text of a gap: its blanks if it has no line break, one blank for a single line feed, and
otherwise the breaks, of which a line feed does not count at the beginning. -/
def Gap.text (g : Gap) : List Char :=
  match g.breaks with
  | [] => g.blanks
  | ['\n'] => [' ']
  | '\n' :: more => more
  | breaks => breaks

/-- Passes line breaks and the blanks after each of them, among which no tab may stand left of the
margin. -/
def breaksAt (margin : Nat) : (fuel : Nat) → (read : List Char) → Cursor →
    Option (List Char × Cursor)
  | fuel + 1, read, c =>
      match c.nextLine? with
      | some (b, c) =>
          let (blanks, c) := c.span isBlank
          if (blanks.take margin).contains '\t' then none else breaksAt margin fuel (b :: read) c
      | none => some (read.reverse, c)
  | 0, _, _ => none

/-- Passes a gap. -/
def gapAt (margin fuel : Nat) (c : Cursor) : Option (Gap × Cursor) :=
  let (blanks, c) := c.span isBlank
  (breaksAt margin fuel [] c).map fun r => (⟨blanks, r.1⟩, r.2)

end Injector.Yaml
