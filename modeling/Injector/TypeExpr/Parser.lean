import Injector.TypeExpr.Basic
import Injector.TypeExpr.Token

/-!
# Reading type expressions

    type    := base suffix*
    base    := tuple | named
    tuple   := '(' type (',' type)+ ')'
    named   := name ('<' type (',' type)* '>')?
    suffix  := '[' ']' | '?'

The reader takes as much as it can. An argument list that does not close is left unread, and so is
a separator that no type follows; what then remains is reported. The suffix `?` is dropped.
-/

namespace Injector.TypeExpr

/-- Why a text is not a type. -/
inductive ParseCause where
  /-- No type begins here. -/
  | noType
  /-- A type ends before here, and something follows it. -/
  | leftover
  deriving DecidableEq, Repr

/-- A text that is not a type. -/
structure ParseError where
  /-- The whole text. -/
  input : String
  /-- Bytes before the place the error is about. -/
  offset : Nat
  /-- What is wrong there. -/
  cause : ParseCause
  deriving DecidableEq, Repr

/-- The word that stands for a cause in messages. -/
def ParseCause.word : ParseCause → String
  | .noType => "Satisfy"
  | .leftover => "Eof"

/-- The message that reports the error. -/
def ParseError.message (e : ParseError) : String :=
  "invalid type expression \"" ++ e.input ++ "\" at offset " ++ toString e.offset ++
    ": unexpected input (" ++ e.cause.word ++ ")"

/-- A name without arguments is a marker or a plain type. -/
def ofName (name : String) : TypeExpr :=
  if isBuiltinMarker name then .marker name else .named name []

/-- Applies every suffix that follows a type. -/
def suffixesAt (t : TypeExpr) : List Lexeme → TypeExpr × List Lexeme
  | ⟨_, .symbol '['⟩ :: ⟨_, .symbol ']'⟩ :: rest => suffixesAt (.array t) rest
  | ⟨_, .symbol '?'⟩ :: rest => suffixesAt t rest
  | rest => (t, rest)

mutual

/-- The longest type at the head of the tokens, and the tokens after it. -/
def typeAt : Nat → List Lexeme → Option (TypeExpr × List Lexeme)
  | 0, _ => none
  | fuel + 1, tokens => (baseAt fuel tokens).map fun r => suffixesAt r.1 r.2

/-- A tuple or a name with or without arguments. -/
def baseAt : Nat → List Lexeme → Option (TypeExpr × List Lexeme)
  | fuel + 1, ⟨_, .symbol '('⟩ :: rest =>
      match listAt fuel rest with
      | some (items, ⟨_, .symbol ')'⟩ :: rest) =>
          if 2 ≤ items.length then some (.tuple items, rest) else none
      | _ => none
  | fuel + 1, ⟨_, .name name⟩ :: ⟨offset, .symbol '<'⟩ :: rest =>
      match listAt fuel rest with
      | some (args, ⟨_, .symbol '>'⟩ :: rest) => some (.named name args, rest)
      | _ => some (ofName name, ⟨offset, .symbol '<'⟩ :: rest)
  | _ + 1, ⟨_, .name name⟩ :: rest => some (ofName name, rest)
  | _, _ => none

/-- One or more types divided by commas. -/
def listAt : Nat → List Lexeme → Option (List TypeExpr × List Lexeme)
  | 0, _ => none
  | fuel + 1, tokens =>
      match typeAt fuel tokens with
      | some (t, rest) =>
          let r := moreAt fuel rest
          some (t :: r.1, r.2)
      | none => none

/-- The further types of a list, each after a comma. -/
def moreAt : Nat → List Lexeme → List TypeExpr × List Lexeme
  | fuel + 1, ⟨offset, .symbol ','⟩ :: rest =>
      match typeAt fuel rest with
      | some (t, rest) =>
          let r := moreAt fuel rest
          (t :: r.1, r.2)
      | none => ([], ⟨offset, .symbol ','⟩ :: rest)
  | _, tokens => ([], tokens)

end

/-- Reads a type from the whole of a list of tokens of a text. -/
def ofTokens (input : String) (tokens : List Lexeme) : Except ParseError TypeExpr :=
  match typeAt (3 * tokens.length + 3) tokens with
  | some (t, []) => .ok t
  | some (_, next :: _) => .error ⟨input, next.offset, .leftover⟩
  | none => .error ⟨input, (tokens.head?.map Lexeme.offset).getD input.utf8ByteSize, .noType⟩

/-- Reads a type expression. -/
def parse (input : String) : Except ParseError TypeExpr :=
  ofTokens input (scan 0 input.toList)

end Injector.TypeExpr
