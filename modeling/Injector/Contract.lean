import Injector.Decimal.Shortest
import Injector.Datum.Record
import Injector.TypeExpr.Parser

/-!
# Tags and contracts

A contract is a type with an optional tag that tells apart several services of one type. A tag is
declared as a value, as `Unique`, which gives each declaration a number that nothing else carries,
or as `Any`, which answers a request with whatever tag.
-/

namespace Injector

/-- A tag as it is declared. -/
inductive TagSpec where
  /-- A value compared as text. -/
  | value (text : String)
  /-- A fresh number for each declaration. -/
  | unique
  /-- An answer to requests with any tag. -/
  | any
  deriving DecidableEq, Repr, Inhabited

namespace TagSpec

/-- The tag that a word declares; two words are reserved. -/
def ofText (s : String) : TagSpec :=
  if s = "Unique" then .unique else if s = "Any" then .any else .value s

/-- The word that declares a tag. -/
def text : TagSpec → String
  | .value s => s
  | .unique => "Unique"
  | .any => "Any"

/-- The text of a scalar that declares a tag. -/
def scalarText? : Datum → Option String
  | .text s => some s
  | .bool b => some (if b then "true" else "false")
  | .natural n =>
      if n < Json.signBound then some (toString n)
      else (Binary64.ofDecimal false n 0).map Binary64.text
  | .negative n => some (toString (-(n : Int)))
  | .fraction x => some x.text
  | .infinite belowZero => some (if belowZero then "-inf" else "inf")
  | .undefined => some "NaN"
  | _ => none

/-- Reads a tag from a text, a number or a truth value. -/
def ofDatum? (d : Datum) : Option TagSpec := (scalarText? d).map ofText

/-- The tag as JSON. -/
def toJson (t : TagSpec) : Json := .string t.text

end TagSpec

/-- A tag of a contract. -/
inductive Tag where
  /-- A value compared as text. -/
  | value (text : String)
  /-- The number of a tag declared as unique. -/
  | unique (number : Nat)
  /-- An answer to requests with any tag. -/
  | any
  deriving DecidableEq, Repr, Inhabited

namespace Tag

/-- The number of a unique tag in a request, which no declaration carries. -/
def unrequestable : Nat := 4294967295

/-- The tag of a request. -/
def ofSpec : TagSpec → Tag
  | .value s => .value s
  | .unique => .unique unrequestable
  | .any => .any

/-- The text of a tag. -/
def text : Tag → String
  | .value s => "\"" ++ s ++ "\""
  | .unique n => "Unique#" ++ toString n
  | .any => "Any"

/-- The tag as JSON. -/
def toJson : Tag → Json
  | .value s => .object [("Value", .string s)]
  | .unique n => .object [("Unique", .count n)]
  | .any => .string "Any"

/-- Whether a declared tag answers a requested one. -/
def answers (declared requested : Option Tag) : Bool :=
  declared == requested || declared == some .any

end Tag

/-- What is asked for: a type and possibly a tag. -/
structure Contract where
  /-- The type. -/
  type : TypeExpr
  /-- The tag. -/
  tag : Option Tag
  deriving DecidableEq, Repr, Inhabited

namespace Contract

/-- A request for a type under a declared tag. -/
def request (type : TypeExpr) (tag : Option TagSpec) : Contract := ⟨type, tag.map Tag.ofSpec⟩

/-- The text of a contract: the type, and the tag in parentheses. -/
def text (c : Contract) : String :=
  match c.tag with
  | some tag => c.type.text ++ "(" ++ tag.text ++ ")"
  | none => c.type.text

/-- The contract as JSON. -/
def toJson (c : Contract) : Json :=
  .object [("type", .string c.type.text), ("tag", .ofOption Tag.toJson c.tag)]

end Contract

/-- Reads a type from its text. -/
def TypeExpr.ofDatum? (d : Datum) : Option TypeExpr :=
  d.text?.bind fun s => (TypeExpr.parse s).toOption

/-- The type as JSON. -/
def TypeExpr.toJson (t : TypeExpr) : Json := .string t.text

end Injector
