import Injector.Culture
import Injector.Hints
import Injector.Setup.Printer
import Injector.Shape

/-!
# Configurations of a run

The caller of a run chooses the language, hints below those of every setup, and further shapes.
Whether compositions are processed in parallel is recorded and changes no result.
-/

namespace Injector

/-- The settings of a run. -/
structure Configuration where
  /-- The language of messages where no hint chooses one. -/
  culture : Culture
  /-- The hints of the caller. -/
  hints : Hints
  /-- Whether compositions may be processed in parallel. -/
  parallel : Bool
  /-- Shapes beside those known from the start. -/
  shapes : List ShapeRegistration
  deriving DecidableEq, Repr, Inhabited

namespace Configuration

/-- The settings of a caller who chooses nothing. -/
def default : Configuration := ⟨.english, .empty, true, []⟩

/-- Sets a hint of the caller. -/
def setHint (c : Configuration) (key value : String) : Configuration :=
  { c with hints := c.hints.insert key value }

/-- Reads settings; every field may be missing. -/
def ofDatum? (d : Datum) : Option Configuration := do
  let fields ← d.record? ["culture", "hints", "parallel", "collection_shapes"]
  return {
    culture := ← fields.withDefault "culture" Culture.ofDatum? default.culture
    hints := ← fields.withDefault "hints" Datum.textMap? default.hints
    parallel := ← fields.withDefault "parallel" Datum.bool? default.parallel
    shapes := ← fields.withDefault "collection_shapes" (Datum.listOf? ShapeRegistration.ofDatum?)
      default.shapes }

/-- The settings as JSON. -/
def toJson (c : Configuration) : Json :=
  .object [("culture", .string c.culture.name), ("hints", c.hints.toJson),
    ("parallel", .bool c.parallel), ("collection_shapes", .list ShapeRegistration.toJson c.shapes)]

end Configuration

end Injector
