import Injector.Json.Number
import Injector.Json.Quoted

/-!
# Reading JSON

The reader accepts the standard format and nothing else. A container inside 127 others is
well-formed and stands for no value, like a text or a number that stands for none. Containers that
are open are kept in a list, so that they may nest without bound.
-/

namespace Injector.Json

/-- The blanks between the tokens of JSON. -/
def isBlank (c : Char) : Bool := c == ' ' || c == '\n' || c == '\t' || c == '\r'

/-- Drops leading blanks. -/
def skipBlanks (cs : List Char) : List Char := cs.dropWhile isBlank

/-- Drops a word from the head of a text. -/
def wordAt (word : String) (d : Datum) (cs : List Char) : Option (Datum × List Char) :=
  if word.toList.isPrefixOf cs then some (d, cs.drop word.length) else none

/-- Reads a value that is no container. -/
def scalarAt (fuel : Nat) : List Char → Option (Datum × List Char)
  | '"' :: rest => textAt fuel rest
  | '-' :: rest => numberAt true rest
  | 't' :: rest => wordAt "true" (.bool true) ('t' :: rest)
  | 'f' :: rest => wordAt "false" (.bool false) ('f' :: rest)
  | 'n' :: rest => wordAt "null" .null ('n' :: rest)
  | rest => numberAt false rest

/-- Reads the key of a member and the colon after it. -/
def keyAt (fuel : Nat) (cs : List Char) : Option (Datum × List Char) :=
  match skipBlanks cs with
  | '"' :: rest =>
      (textAt fuel rest).bind fun r =>
        match skipBlanks r.2 with
        | ':' :: rest => some (r.1, rest)
        | _ => none
  | _ => none

/-- A container whose end has not been read, and what stands in it so far, last first. -/
inductive Container where
  /-- A list. -/
  | list (items : List Datum)
  /-- An object with the key of the value that comes next. -/
  | object (entries : List (Datum × Datum)) (key : Datum)

/-- So many containers do not stand within each other. -/
def maxDepth : Nat := 128

/-- A container that has been read, inside so many others. -/
def nested (depth : Nat) (d : Datum) : Datum := if depth + 1 < maxDepth then d else .unreadable

mutual

/-- Reads a value inside the containers that are open, innermost first, and goes on after it. -/
def valueIn : (fuel : Nat) → (depth : Nat) → List Container → List Char →
    Option (Datum × List Char)
  | fuel + 1, depth, containers, cs =>
      match skipBlanks cs with
      | '[' :: rest =>
          match skipBlanks rest with
          | ']' :: rest => restOf fuel depth containers (nested depth (.list [])) rest
          | rest => valueIn fuel (depth + 1) (.list [] :: containers) rest
      | '{' :: rest =>
          match skipBlanks rest with
          | '}' :: rest => restOf fuel depth containers (nested depth (.map [])) rest
          | rest =>
              match keyAt fuel rest with
              | some (key, rest) => valueIn fuel (depth + 1) (.object [] key :: containers) rest
              | none => none
      | rest =>
          match scalarAt fuel rest with
          | some (d, rest) => restOf fuel depth containers d rest
          | none => none
  | 0, _, _, _ => none

/-- Reads what follows a value inside the containers that are open, until the outermost ends. -/
def restOf : (fuel : Nat) → (depth : Nat) → List Container → Datum → List Char →
    Option (Datum × List Char)
  | _, _, [], d, cs => some (d, cs)
  | fuel + 1, depth, .list items :: containers, d, cs =>
      match skipBlanks cs with
      | ',' :: rest => valueIn fuel depth (.list (d :: items) :: containers) rest
      | ']' :: rest =>
          restOf fuel (depth - 1) containers
            (nested (depth - 1) (.list (d :: items).reverse)) rest
      | _ => none
  | fuel + 1, depth, .object entries key :: containers, d, cs =>
      match skipBlanks cs with
      | ',' :: rest =>
          match keyAt fuel rest with
          | some (next, rest) =>
              valueIn fuel depth (.object ((key, d) :: entries) next :: containers) rest
          | none => none
      | '}' :: rest =>
          restOf fuel (depth - 1) containers
            (nested (depth - 1) (.map ((key, d) :: entries).reverse)) rest
      | _ => none
  | 0, _, _, _, _ => none

end

/-- Reads a whole text as one value, parts of which may stand for nothing. -/
def read? (text : String) : Option Datum :=
  let cs := text.toList
  match valueIn (cs.length + 2) 0 [] cs with
  | some (d, rest) => if (skipBlanks rest).isEmpty then some d else none
  | none => none

/-- Reads a whole text as one value of JSON. -/
def parse? (text : String) : Option Json := (read? text).bind Datum.toJson?

end Injector.Json
