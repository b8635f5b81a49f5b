import Injector.Decimal.Binary64

/-!
# JSON values

Documents, answers and printed reports are JSON values. An object keeps its members in the order
written, repeated keys included, since a document may not repeat a key that it means. Integers
within 64 bits, signed or unsigned, are kept apart from all other numbers.
-/

namespace Injector

/-- A JSON value. -/
inductive Json where
  /-- The value `null`. -/
  | null
  /-- A truth value. -/
  | bool (b : Bool)
  /-- An integer of 64 bits. -/
  | integer (n : Int)
  /-- Any other number. -/
  | fraction (x : Binary64)
  /-- A text. -/
  | string (s : String)
  /-- A list of values. -/
  | array (items : List Json)
  /-- Keyed values in the order written. -/
  | object (members : List (String × Json))
  deriving Repr, Inhabited

namespace Json

/-- The largest integer of 64 bits. -/
def maxWord : Nat := 18446744073709551615

/-- The least integer of 64 bits with a sign, without that sign. -/
def signBound : Nat := 9223372036854775808

/-- The number of things counted. -/
def count (n : Nat) : Json := .integer n

/-- The value if there is one, and `null` otherwise. -/
def ofOption {α : Type} (encode : α → Json) : Option α → Json
  | some a => encode a
  | none => .null

/-- A list of values, each encoded. -/
def list {α : Type} (encode : α → Json) (as : List α) : Json := .array (as.map encode)

/-- A member that is left out when there is nothing to write. -/
def optional {α : Type} (key : String) (encode : α → Json) : Option α → List (String × Json)
  | some a => [(key, encode a)]
  | none => []

/-- The value of a key of an object; of a repeated key, the last. -/
def field? (j : Json) (key : String) : Option Json :=
  match j with
  | .object members => members.reverse.lookup key
  | _ => none

end Json

end Injector
