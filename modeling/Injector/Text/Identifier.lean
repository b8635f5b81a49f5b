import Injector.Text.Alphanumeric

/-!
# Whole identifiers in a text

A factory uses a variable when its expression mentions it as a whole identifier: neither the
character before nor the one after belongs to an identifier. Occurrences are looked at from the
left, each after the end of the one before.
-/

namespace Injector.Text

/-- Whether a character belongs to identifiers. -/
def isIdentifier (c : Char) : Bool := isAlphanumeric c || c == '_'

/-- Whether a place has no identifier character on either side. -/
def standsAlone (before after : Option Char) : Bool :=
  !before.any isIdentifier && !after.any isIdentifier

/-- Looks for a whole occurrence of `word` in the characters that follow `before`. -/
def mentionsFrom (word : List Char) (before : Option Char) : (skip : Nat) → List Char → Bool
  | 0, c :: rest =>
      if word.isPrefixOf (c :: rest) then
        standsAlone before ((c :: rest).drop word.length).head? ||
          mentionsFrom word (some c) (word.length - 1) rest
      else mentionsFrom word (some c) 0 rest
  | skip + 1, c :: rest => mentionsFrom word (some c) skip rest
  | skip, [] => skip == 0 && word.isEmpty && standsAlone before none

/-- Whether `expression` mentions `word` as a whole identifier. -/
def mentions (expression word : String) : Bool :=
  mentionsFrom word.toList none 0 expression.toList

end Injector.Text
