import Injector.Datum.Record

/-!
# Declaration sites

Every declaration may say where it was written, so that a diagnostic can point there. Locations are
carried along and never looked at, except for whether the file is known.
-/

namespace Injector

/-- The largest line or column number. -/
def maxLine : Nat := 4294967295

/-- Where a declaration was written. -/
structure Location where
  /-- The file; empty when it is unknown. -/
  file : String
  /-- The line, counted from one; zero when it is unknown. -/
  line : Nat
  /-- The column, counted from one; zero when it is unknown. -/
  column : Nat
  deriving DecidableEq, Repr, Inhabited

namespace Location

/-- No location. -/
def unknown : Location := ⟨"", 0, 0⟩

/-- Whether no file is known. -/
def isUnknown (l : Location) : Bool := l.file.isEmpty

/-- The location, or `fallback` when its file is unknown. -/
def orElse (l fallback : Location) : Location := if l.isUnknown then fallback else l

/-- The text of a location. -/
def text (l : Location) : String :=
  if l.isUnknown then "<unknown>"
  else l.file ++ ":" ++ toString l.line ++ ":" ++ toString l.column

/-- The location as JSON. -/
def toJson (l : Location) : Json :=
  .object [("file", .string l.file), ("line", .count l.line), ("column", .count l.column)]

/-- Reads a location; every field may be missing. -/
def ofDatum? (d : Datum) : Option Location := do
  let fields ← d.record? ["file", "line", "column"]
  return {
    file := ← fields.withDefault "file" Datum.text? ""
    line := ← fields.withDefault "line" (Datum.natural? maxLine) 0
    column := ← fields.withDefault "column" (Datum.natural? maxLine) 0 }

end Location

end Injector
