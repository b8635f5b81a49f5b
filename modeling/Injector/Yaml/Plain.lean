import Injector.Yaml.Cursor

/-!
# Plain scalars

A plain scalar is a sequence of words with gaps between them. Inside brackets it ends before an
indicator of brackets, and outside of them where a line begins left of the margin; everywhere it
ends before a comment and before the colon of a key.
-/

namespace Injector.Yaml

/-- The indicators that open, close and divide brackets. -/
def isBracketIndicator (c : Char) : Bool :=
  c == ',' || c == '[' || c == ']' || c == '{' || c == '}'

/-- The characters that no plain scalar begins with, unless it goes on without a blank after one of
the first three. -/
def isIndicator (c : Char) : Bool :=
  c ∈ ['-', '?', ':', ',', '[', ']', '{', '}', '#', '&', '*', '!', '|', '>', '\'', '"', '%', '@',
    '\x60']

/-- Whether a plain scalar begins with a character before others: no blank, and an indicator only
where it goes on. -/
def beginsPlain (inBrackets : Bool) (c : Char) (rest : List Char) : Bool :=
  !(isIndicator c || isSpace c) || (c == '-' && !endsWord rest) ||
    (!inBrackets && (c == '?' || c == ':') && !endsWord rest)

/-- Whether a colon inside brackets divides nothing: what follows it is no blank, but cannot follow
in a plain scalar either. -/
def isStrayColon (inBrackets : Bool) : List Char → Bool
  | ':' :: c :: _ => inBrackets && (isBracketIndicator c || c == '?')
  | _ => false

/-- Whether a word of a plain scalar ends before a character with others behind it. -/
def endsPlain (inBrackets : Bool) (c : Char) (rest : List Char) : Bool :=
  isSpace c || (c == ':' && endsWord rest) || (inBrackets && isBracketIndicator c) ||
    isStrayColon inBrackets (c :: rest)

/-- Splits a text into the word at its head and the rest. -/
def splitWord (inBrackets : Bool) : List Char → List Char × List Char
  | [] => ([], [])
  | c :: rest =>
      if endsPlain inBrackets c rest then ([], c :: rest)
      else
        let r := splitWord inBrackets rest
        (c :: r.1, r.2)

/-- A plain scalar that has been read. -/
structure Plain where
  /-- Its characters, last first. -/
  read : List Char
  /-- The place before what follows. -/
  after : Cursor
  /-- Whether a line has ended after its last word. -/
  broken : Bool

/-- Reads a plain scalar from its first or its next word on; `gap` stands before that word. -/
def plainAt (inBrackets : Bool) (margin : Nat) : (fuel : Nat) → (read : List Char) → (gap : Gap) →
    Cursor → Option Plain
  | fuel + 1, read, gap, c =>
      let (word, rest) := splitWord inBrackets c.rest
      if c.isDocumentMark || c.rest.head? == some '#' then some ⟨read, c, !gap.breaks.isEmpty⟩
      else if isStrayColon inBrackets rest then none
      else if word.isEmpty then some ⟨read, c, !gap.breaks.isEmpty⟩
      else
        let read := word.reverse ++ (gap.text.reverse ++ read)
        let c := c.skip word.length
        if rest.head?.any isSpace then
          match gapAt margin fuel c with
          | some (gap, c) =>
              if !inBrackets && c.column < margin then some ⟨read, c, !gap.breaks.isEmpty⟩
              else plainAt inBrackets margin fuel read gap c
          | none => none
        else some ⟨read, c, false⟩
  | 0, _, _, _ => none

end Injector.Yaml
