import Injector.Diagnostic.Sink
import Injector.Setup.Basic

/-!
# The order in which setups are merged

Setups of one name are the parts of one setup. A composition depends on what its parts name, and,
unless it is global itself, on every global setup. The order lists each setup that is reached
once, after everything it depends on, and ends with the composition.
-/

namespace Injector.Setup

/-- The parts of a setup in the order of input. -/
def parts (setups : List Setup) (name : String) : List Setup :=
  setups.filter fun s => s.name == name

/-- The names of the setups in the order of their first parts. -/
def names (setups : List Setup) : List String := (setups.map Setup.name).eraseDups

/-- Whether a part of the setup is global. -/
def isGlobal (setups : List Setup) (name : String) : Bool :=
  (parts setups name).any fun s => s.kind == .global

/-- The setups that make compositions. -/
def compositions (setups : List Setup) : List String :=
  (names setups).filter fun name => !isGlobal setups name

/-- The global setups. -/
def globals (setups : List Setup) : List String :=
  (names setups).filter fun name => isGlobal setups name

/-- Why setups have no order. -/
inductive OrderError where
  /-- Setups depend on each other; the last of the path is its first. -/
  | cycle (path : List String) (location : Location)
  /-- A setup names another that is not declared. -/
  | missing (setup dependent : String) (location : Location)
  deriving DecidableEq, Repr

/-- The issue that reports the error. -/
def OrderError.issue : OrderError → Issue
  | .cycle path location => ⟨location, .dependsOnCycle (" -> ".intercalate path)⟩
  | .missing setup dependent location => ⟨location, .setupNotFound setup dependent⟩

/-- What a setup names, each with the place of the part that names it. -/
def needs (setups : List Setup) (name : String) : List (String × Location) :=
  (parts setups name).flatMap fun s => s.dependsOn.map fun need => (need, s.location)

/-- Adds a setup to those already `listed`, after what it depends on; `stack` holds the setups that
wait for it. A setup that waits is not entered again, so that no more setups wait than there are
names, and `fuel` bounds their number. -/
def visit (setups : List Setup) : (fuel : Nat) → (stack listed : List String) →
    (name dependent : String) → Location → Except OrderError (List String)
  | 0, _, _, name, dependent, location => .error (.missing name dependent location)
  | fuel + 1, stack, listed, name, dependent, location =>
      if name ∈ listed then .ok listed
      else if name ∈ stack then
        .error (.cycle (stack.dropWhile (· ≠ name) ++ [name]) location)
      else if (parts setups name).isEmpty then .error (.missing name dependent location)
      else do
        let listed ← (needs setups name).foldlM (fun listed need =>
          visit setups fuel (stack ++ [name]) listed need.1 name need.2) listed
        return listed ++ [name]

/-- The setups a composition starts from: the global ones, unless it is global, and itself. -/
def origins (setups : List Setup) (composition : String) : List String :=
  (if isGlobal setups composition then [] else globals setups) ++ [composition]

/-- The order in which a composition is merged. -/
def order (setups : List Setup) (composition : String) : Except OrderError (List String) :=
  let location := ((parts setups composition).head?.map Setup.location).getD .unknown
  (origins setups composition).foldlM (fun listed name =>
    visit setups ((names setups).length + 1) [] listed name composition location) []

end Injector.Setup
