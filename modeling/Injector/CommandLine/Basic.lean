import Injector.Culture
import Injector.Text.Blank

/-!
# Commands

A command line chooses one of three commands, a document of setups, and settings that all commands
share. A hint is given as a key and a value around the first equals sign.
-/

namespace Injector.CommandLine

/-- How results are printed. -/
inductive OutputFormat where
  /-- For people. -/
  | text
  /-- As JSON. -/
  | json
  deriving DecidableEq, Repr, Inhabited

/-- The output format of a name. -/
def OutputFormat.ofName? (s : String) : Option OutputFormat :=
  if s = "text" then some .text else if s = "json" then some .json else none

/-- What is to be printed. -/
inductive Action where
  /-- The diagnostics of all compositions. -/
  | check
  /-- The plans of the roots, all or those of a name, of all compositions or those of a name. -/
  | plan (root composition : Option String)
  /-- The graph of the first root of a name, in any composition or in those of a name. -/
  | graph (root : String) (composition : Option String)
  deriving DecidableEq, Repr, Inhabited

/-- A command with its settings. -/
structure Invocation where
  /-- What is to be printed. -/
  action : Action
  /-- The document of setups. -/
  file : String
  /-- The document of settings. -/
  configuration : Option String
  /-- The language of messages, over that of the settings. -/
  culture : Option Culture
  /-- Hints in the order given, over those of the settings. -/
  hints : List (String × String)
  /-- How results are printed. -/
  format : OutputFormat
  deriving DecidableEq, Repr, Inhabited

/-- The document of setups where none is given. -/
def defaultFile : String := "purewire.yaml"

/-- Why a text is not a hint. -/
inductive HintError where
  /-- There is no equals sign. -/
  | noValue (text : String)
  /-- There is nothing before the equals sign. -/
  | noKey (text : String)
  deriving DecidableEq, Repr

/-- The message that reports the error. -/
def HintError.message : HintError → String
  | .noValue text => "expected KEY=VALUE, got \x60" ++ text ++ "\x60"
  | .noKey text => "empty hint name in \x60" ++ text ++ "\x60"

/-- Reads a hint; white space around the key and the value does not count. -/
def hintOf (text : String) : Except HintError (String × String) :=
  let key := Text.trimList (text.toList.takeWhile (· ≠ '='))
  match text.toList.dropWhile (· ≠ '=') with
  | [] => .error (.noValue text)
  | _ :: value =>
      if key.isEmpty then .error (.noKey text)
      else .ok (String.ofList key, String.ofList (Text.trimList value))

/-- Why words are not a command. -/
inductive UsageError where
  /-- An option stands without its value. -/
  | missingValue
  /-- A path is empty. -/
  | emptyPath
  /-- A value is none of those allowed. -/
  | unknownChoice
  /-- A hint is malformed. -/
  | badHint (e : HintError)
  /-- An option that stands once is given twice. -/
  | repeatedOption
  /-- An option is not known, or there are too many words. -/
  | unknownWord
  /-- A value is attached to an option that takes none. -/
  | surplusValue
  /-- A word is none of the commands. -/
  | unknownCommand
  /-- There are options but no command. -/
  | missingCommand
  /-- There is nothing at all. -/
  | nothingGiven
  /-- The command needs a root. -/
  | missingRoot
  /-- Help is asked for. -/
  | helpWanted
  /-- The version is asked for. -/
  | versionWanted
  deriving DecidableEq, Repr

/-- The message that reports the error. -/
def UsageError.message : UsageError → String
  | .missingValue => "a value is required"
  | .emptyPath => "a path may not be empty"
  | .unknownChoice => "the possible values are text and json"
  | .badHint e => e.message
  | .repeatedOption => "the option cannot be used multiple times"
  | .unknownWord => "unexpected argument"
  | .surplusValue => "the option takes no value"
  | .unknownCommand => "unrecognized command"
  | .missingCommand => "one of the commands check, plan and graph is required"
  | .nothingGiven => "one of the commands check, plan and graph is required"
  | .missingRoot => "the option --root is required"
  | .helpWanted => "usage: (check | plan | graph) [OPTIONS] [FILE]"
  | .versionWanted => "0.1.0"

end Injector.CommandLine
