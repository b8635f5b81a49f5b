import Injector.Datum.Record
import Injector.Text.Blank

/-!
# Languages of messages

Diagnostics are worded in English or Russian. A language is named by a tag whose region, after a
hyphen or an underscore, does not count; a tag of any other language falls back to English.
-/

namespace Injector

/-- The language of messages. -/
inductive Culture where
  /-- English. -/
  | english
  /-- Russian. -/
  | russian
  deriving DecidableEq, Repr, Inhabited

namespace Culture

/-- The languages. -/
def all : List Culture := [.english, .russian]

/-- The name of a language in configurations. -/
def name : Culture → String
  | .english => "en"
  | .russian => "ru"

/-- The language of a name as configurations write it. -/
def ofName? (s : String) : Option Culture := all.find? fun c => c.name == s

/-- The language part of a tag, with ASCII capitals written small. -/
def languageOf (tag : String) : String :=
  Text.lower (String.ofList (tag.toList.takeWhile fun c => c != '-' && c != '_'))

/-- A tag of a language without messages. -/
structure Unsupported where
  /-- The language part of the tag. -/
  language : String
  deriving DecidableEq, Repr

/-- The message that reports an unsupported language. -/
def Unsupported.message (e : Unsupported) : String := "unsupported culture: " ++ e.language

/-- The language that a tag names. -/
def ofTag (tag : String) : Except Unsupported Culture :=
  match ofName? (languageOf tag) with
  | some c => .ok c
  | none => .error ⟨languageOf tag⟩

/-- The language that a tag names, English if it has no messages. -/
def ofTagOrEnglish (tag : String) : Culture := (ofName? (languageOf tag)).getD .english

/-- Reads a language. -/
def ofDatum? (d : Datum) : Option Culture := d.choice? all name

end Culture

end Injector
