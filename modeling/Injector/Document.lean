import Injector.Configuration
import Injector.Json.Reader
import Injector.Setup.Reader
import Injector.Yaml.Configuration
import Injector.Yaml.Reader

/-!
# Documents

A document holds setups or settings in one of two formats. The format follows from the name of the
file: what ends in `.json` is JSON, and anything else is YAML; settings are YAML only where the
name says so. Setups are told apart by what a document holds, so all of it has to be a value; of
settings, only what is read from a document has to be one.
-/

namespace Injector

/-- The format of a document. -/
inductive Format where
  /-- YAML. -/
  | yaml
  /-- JSON. -/
  | json
  deriving DecidableEq, Repr, Inhabited

/-- A document that is malformed or does not fit what is read from it. -/
structure DocumentError where
  /-- The format it was read in. -/
  format : Format
  deriving DecidableEq, Repr

/-- The parts of a path between slashes, without those that stay in place. -/
def pathParts (path : String) : List String :=
  (path.splitOn "/").filter fun part => part != "" && part != "."

/-- The last part of a path, unless it leads upwards. -/
def fileName? (path : String) : Option String :=
  match (pathParts path).getLast? with
  | some ".." => none
  | name => name

/-- What follows the last dot of the file name; a leading dot does not count. -/
def extension? (path : String) : Option String := do
  let cs := (← fileName? path).toList.reverse
  match cs.dropWhile (· ≠ '.') with
  | _ :: _ :: _ => some (String.ofList (cs.takeWhile (· ≠ '.')).reverse)
  | _ => none

namespace Format

/-- The format of a file of setups. -/
def ofPath (path : String) : Format :=
  if ((extension? path).map Text.lower) = some "json" then .json else .yaml

/-- The format of a file of settings. -/
def ofConfigurationPath (path : String) : Format :=
  match (extension? path).map Text.lower with
  | some "yaml" | some "yml" => .yaml
  | _ => .json

end Format

/-- The value of a document of setups, every part of which has to stand for something. -/
def Format.read? (format : Format) (text : String) : Option Datum :=
  match format with
  | .json => (Json.read? text).filter Datum.isReadable
  | .yaml => Yaml.read? text

/-- Reads the setups of a document. -/
def Setup.listOfDocument (format : Format) (text : String) : Except DocumentError (List Setup) :=
  match (format.read? text).bind Setup.listOfDatum? with
  | some setups => .ok setups
  | none => .error ⟨format⟩

/-- Reads the settings of a document. -/
def Configuration.ofDocument (format : Format) (text : String) :
    Except DocumentError Configuration :=
  let settings? : Option Configuration :=
    match format with
    | .json => (Json.read? text).bind Configuration.ofDatum?
    | .yaml => (Yaml.Node.ofText? text).bind Configuration.ofNode?
  match settings? with
  | some c => .ok c
  | none => .error ⟨format⟩

end Injector
