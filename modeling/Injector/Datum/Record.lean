import Injector.Datum.Basic
import Injector.Dictionary

/-!
# Records and choices in documents

A record is written as a map, whose unknown keys are ignored and whose fields stand at most once, or
as a list of its fields in the order of their declaration, from which fields at the end may be
missing. A key is a text, or a natural that stands for the field at that place. A choice is written
as its name, or as a map with its name or place as the only key.
-/

namespace Injector

/-- The fields found in a record, by their names. -/
abbrev Fields (α : Type) := List (String × α)

namespace Datum

/-- Whether a value can be a key of a record. -/
def isKey : Datum → Bool
  | .text _ | .natural _ => true
  | _ => false

/-- The thing that a key means: the one of a name, or the one at a place. -/
def named? {α : Type} (all : List α) (name : α → String) : Datum → Option α
  | .text s => all.find? fun a => name a == s
  | .natural n => all[n]?
  | _ => none

/-- The known fields of a record. -/
def record? (names : List String) : Datum → Option (Fields Datum)
  | .map entries =>
      let known := entries.filterMap fun e => (named? names id e.1).map (·, e.2)
      if entries.all (fun e => e.1.isKey) ∧ (known.map Prod.fst).Nodup then some known else none
  | .list items => if items.length ≤ names.length then some (names.zip items) else none
  | _ => none

/-- The thing chosen and its content. -/
def variant? (names : List String) : Datum → Option (String × Datum)
  | .map [(key, content)] => (named? names id key).map (·, content)
  | _ => none

/-- The thing chosen where none has content. -/
def choice? {α : Type} (all : List α) (name : α → String) : Datum → Option α
  | .text s => named? all name (.text s)
  | .map [(key, .null)] => named? all name key
  | _ => none

/-- A text. -/
def text? : Datum → Option String
  | .text s => some s
  | _ => none

/-- A truth value. -/
def bool? : Datum → Option Bool
  | .bool b => some b
  | _ => none

/-- An integer between two bounds. -/
def integer? (least greatest : Int) (d : Datum) : Option Int :=
  let within (n : Int) : Option Int := if least ≤ n ∧ n ≤ greatest then some n else none
  match d with
  | .natural n => within n
  | .negative n => within (-n)
  | _ => none

/-- A natural up to a bound. -/
def natural? (greatest : Nat) (d : Datum) : Option Nat := (d.integer? 0 greatest).map Int.toNat

/-- A list of values, each read by `decode`. -/
def listOf? {α : Type} (decode : Datum → Option α) : Datum → Option (List α)
  | .list items => items.mapM decode
  | _ => none

/-- A map from text to text; of a repeated key the last value stands. -/
def textMap? : Datum → Option (Dictionary String)
  | .map entries =>
      let texts? (e : Datum × Datum) : Option (String × String) := do
        return (← e.1.text?, ← e.2.text?)
      (entries.mapM texts?).map Dictionary.ofList
  | _ => none

end Datum

namespace Fields

/-- A field that has to be there. -/
def required {α β : Type} (fields : Fields β) (key : String) (decode : β → Option α) : Option α :=
  (fields.lookup key).bind decode

/-- A field with a value for when it is missing. -/
def withDefault {α β : Type} (fields : Fields β) (key : String) (decode : β → Option α)
    (default : α) : Option α :=
  match fields.lookup key with
  | some d => decode d
  | none => some default

/-- A field that may be missing or null. -/
def optional {α : Type} (fields : Fields Datum) (key : String) (decode : Datum → Option α) :
    Option (Option α) :=
  match fields.lookup key with
  | some .null => some none
  | some d => (decode d).map some
  | none => some none

end Fields

end Injector
