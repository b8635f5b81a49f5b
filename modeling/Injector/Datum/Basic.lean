import Injector.Json.Basic

/-!
# Values read from documents

A document of either format is read as a value of one type before anything is made of it. Maps keep
their entries in the order written, repeated keys included, and have keys of any kind.
-/

namespace Injector

/-- A value of a document. -/
inductive Datum where
  /-- Nothing. -/
  | null
  /-- A truth value. -/
  | bool (b : Bool)
  /-- An integer that is written without a minus. -/
  | natural (n : Nat)
  /-- The integer `-n`, written with a minus. -/
  | negative (n : Nat)
  /-- Any other finite number. -/
  | fraction (x : Binary64)
  /-- A number beyond all others. -/
  | infinite (belowZero : Bool)
  /-- What is written as a number and is none. -/
  | undefined
  /-- A text. -/
  | text (s : String)
  /-- A list of values. -/
  | list (items : List Datum)
  /-- Pairs of a key and a value in the order written. -/
  | map (entries : List (Datum × Datum))
  /-- What is well-formed and stands for no value. -/
  | unreadable
  deriving Repr, Inhabited

namespace Datum

mutual

/-- Whether every part of a value stands for something. -/
def isReadable : Datum → Bool
  | .list items => areReadable items
  | .map entries => haveReadable entries
  | .unreadable => false
  | _ => true

/-- Whether every value of a list stands for something. -/
def areReadable : List Datum → Bool
  | [] => true
  | item :: items => item.isReadable && areReadable items

/-- Whether every key and value of a map stands for something. -/
def haveReadable : List (Datum × Datum) → Bool
  | [] => true
  | (key, value) :: entries => key.isReadable && value.isReadable && haveReadable entries

end

/-- An integer. -/
def ofInteger : Int → Datum
  | .ofNat n => .natural n
  | .negSucc n => .negative (n + 1)

mutual

/-- The value that JSON says. -/
def ofJson : Json → Datum
  | .null => .null
  | .bool b => .bool b
  | .integer n => .ofInteger n
  | .fraction x => .fraction x
  | .string s => .text s
  | .array items => .list (ofItems items)
  | .object members => .map (ofMembers members)

/-- The values that the items of an array say. -/
def ofItems : List Json → List Datum
  | [] => []
  | item :: items => ofJson item :: ofItems items

/-- The pairs that the members of an object say. -/
def ofMembers : List (String × Json) → List (Datum × Datum)
  | [] => []
  | (key, value) :: members => (.text key, ofJson value) :: ofMembers members

end

mutual

/-- The value in JSON, which has texts for keys and finite numbers only. -/
def toJson? : Datum → Option Json
  | .null => some .null
  | .bool b => some (.bool b)
  | .natural n => some (.integer n)
  | .negative n => some (.integer (-n))
  | .fraction x => some (.fraction x)
  | .text s => some (.string s)
  | .list items => (toItems? items).map .array
  | .map entries => (toMembers? entries).map .object
  | .infinite _ | .undefined | .unreadable => none

/-- The values of a list in JSON. -/
def toItems? : List Datum → Option (List Json)
  | [] => some []
  | item :: items => do return (← item.toJson?) :: (← toItems? items)

/-- The pairs of a map in JSON. -/
def toMembers? : List (Datum × Datum) → Option (List (String × Json))
  | [] => some []
  | (.text key, value) :: entries => do return (key, ← value.toJson?) :: (← toMembers? entries)
  | _ => none

end

end Datum

end Injector
