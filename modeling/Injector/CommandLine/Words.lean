import Injector.CommandLine.Basic

/-!
# Reading the words of a command line

Words before the command set what all commands share, and words after it set the same or what is the
command's own; what is said after the command goes before what is said in front of it. An option
takes its value from behind an equals sign or from the next word, and a value is looked at when the
next option or word is, so that of several errors the first in this order is reported. Two dashes
end the options.
-/

namespace Injector.CommandLine

/-- The name of a command. -/
inductive CommandName where
  /-- Prints diagnostics. -/
  | check
  /-- Prints plans. -/
  | plan
  /-- Prints a graph. -/
  | graph
  deriving DecidableEq, Repr, Inhabited

/-- The command of a word. -/
def commandOf? (word : String) : Option CommandName :=
  if word = "check" then some .check
  else if word = "plan" then some .plan
  else if word = "graph" then some .graph
  else none

/-- The word that asks for help in place of a command. -/
def helpWord : String := "help"

/-- What is set by an option, or by the word for the document. -/
inductive Setting where
  /-- The document of settings. -/
  | configuration
  /-- The language of messages. -/
  | culture
  /-- A hint. -/
  | hint
  /-- How results are printed. -/
  | format
  /-- Whether more is logged. -/
  | verbose
  /-- How the log is written. -/
  | logFormat
  /-- The document of setups. -/
  | file
  /-- A root. -/
  | root
  /-- A composition. -/
  | composition
  deriving DecidableEq, Repr, Inhabited

/-- What an option asks for. -/
inductive Demand where
  /-- To set something. -/
  | set (setting : Setting)
  /-- To be helped. -/
  | help
  /-- To know the version. -/
  | version
  deriving DecidableEq, Repr, Inhabited

/-- The option of a long name, before any command or after one. -/
def option? (command : Option CommandName) (name : String) : Option Demand :=
  match name, command with
  | "config", _ => some (.set .configuration)
  | "culture", _ => some (.set .culture)
  | "hint", _ => some (.set .hint)
  | "format", _ => some (.set .format)
  | "verbose", _ => some (.set .verbose)
  | "log-format", _ => some (.set .logFormat)
  | "root", some .plan => some (.set .root)
  | "root", some .graph => some (.set .root)
  | "composition", some .plan => some (.set .composition)
  | "composition", some .graph => some (.set .composition)
  | "help", _ => some .help
  | "version", none => some .version
  | _, _ => none

/-- The option of a short name, before any command or after one. -/
def shortOption? (command : Option CommandName) (name : Char) : Option Demand :=
  match name, command with
  | 'v', _ => some (.set .verbose)
  | 'h', _ => some .help
  | 'V', none => some .version
  | _, _ => none

/-- What was set. -/
structure Settings where
  /-- The document of settings. -/
  configuration : Option String
  /-- The language of messages. -/
  culture : Option String
  /-- The hints. -/
  hints : List (String × String)
  /-- How results are printed. -/
  format : Option OutputFormat
  /-- Whether more is logged. -/
  verbose : Bool
  /-- How the log is written. -/
  logFormat : Option OutputFormat
  /-- The document of setups. -/
  file : Option String
  /-- A root. -/
  root : Option String
  /-- A composition. -/
  composition : Option String
  deriving DecidableEq, Repr, Inhabited

namespace Settings

/-- Nothing set. -/
def empty : Settings := ⟨none, none, [], none, false, none, none, none, none⟩

/-- Sets what may be set once. -/
def once {α : Type} (held : Option α) (value : Except UsageError α) :
    Except UsageError (Option α) :=
  if held.isSome then .error .repeatedOption else value.map some

/-- A path. -/
def pathOf (value : String) : Except UsageError String :=
  if value.isEmpty then .error .emptyPath else .ok value

/-- An output format. -/
def formatOf (value : String) : Except UsageError OutputFormat :=
  match OutputFormat.ofName? value with
  | some format => .ok format
  | none => .error .unknownChoice

/-- Sets something to a value; only logging more takes none. -/
def accept (s : Settings) (setting : Setting) (value : Option String) :
    Except UsageError Settings := do
  match setting, value with
  | .verbose, none =>
      if s.verbose then throw .repeatedOption else return { s with verbose := true }
  | .verbose, some _ => throw .surplusValue
  | _, none => throw .missingValue
  | .configuration, some v => return { s with configuration := ← once s.configuration (pathOf v) }
  | .culture, some v => return { s with culture := ← once s.culture (.ok v) }
  | .hint, some v =>
      match hintOf v with
      | .ok hint => return { s with hints := s.hints ++ [hint] }
      | .error e => throw (.badHint e)
  | .format, some v => return { s with format := ← once s.format (formatOf v) }
  | .logFormat, some v => return { s with logFormat := ← once s.logFormat (formatOf v) }
  | .file, some v => return { s with file := ← once s.file (pathOf v) }
  | .root, some v => return { s with root := ← once s.root (.ok v) }
  | .composition, some v => return { s with composition := ← once s.composition (.ok v) }

end Settings

/-- What was read so far before a command, or after it. -/
structure Reading where
  /-- What was set. -/
  settings : Settings
  /-- What is set next, with its value if that was read. -/
  pending : Option (Setting × Option String)
  /-- Whether two dashes ended the options. -/
  verbatim : Bool
  deriving DecidableEq, Repr, Inhabited

namespace Reading

/-- Nothing read. -/
def start : Reading := ⟨.empty, none, false⟩

/-- Whether the next word is the value of an option. -/
def awaitsValue (r : Reading) : Bool :=
  !r.verbatim && (r.pending.map fun p => p.2.isNone).getD false

/-- Sets what is pending. -/
def settle (r : Reading) : Except UsageError Reading :=
  match r.pending with
  | none => .ok r
  | some (setting, value) =>
      return { r with settings := ← r.settings.accept setting value, pending := none }

/-- Sets what is pending and then something else. -/
def accept (r : Reading) (setting : Setting) (value : Option String) :
    Except UsageError Reading := do
  let r ← r.settle
  return { r with settings := ← r.settings.accept setting value }

/-- Carries out what an option without an attached value asks for. -/
def demand (r : Reading) : Demand → Except UsageError Reading
  | .set .verbose => r.accept .verbose none
  | .set setting => do
      let r ← r.settle
      return { r with pending := some (setting, none) }
  | .help => do
      let _ ← r.settle
      throw .helpWanted
  | .version => do
      let _ ← r.settle
      throw .versionWanted

/-- Reads a long option after its dashes. -/
def readLong (command : Option CommandName) (r : Reading) (cs : List Char) :
    Except UsageError Reading :=
  match option? command (String.ofList (cs.takeWhile (· ≠ '='))), cs.dropWhile (· ≠ '=') with
  | none, _ => .error .unknownWord
  | some demanded, [] => r.demand demanded
  | some (.set .verbose), _ :: _ => .error .surplusValue
  | some (.set setting), _ :: value => r.accept setting (some (String.ofList value))
  | some _, _ :: _ => .error .surplusValue

/-- Reads short options after their dash. -/
def readShort (command : Option CommandName) : Reading → List Char → Except UsageError Reading
  | r, [] => .ok r
  | r, c :: cs =>
      match shortOption? command c with
      | none => .error .unknownWord
      | some demanded => do readShort command (← r.demand demanded) cs

/-- Whether the document of setups was given. -/
def hasFile (r : Reading) : Bool :=
  r.settings.file.isSome || (r.pending.map fun p => p.1 == .file).getD false

/-- Reads a word that is neither an option nor its value: the document of a command. -/
def readPlain (command : Option CommandName) (r : Reading) (word : String) :
    Except UsageError Reading :=
  match command with
  | none =>
      if r.verbatim && ((commandOf? word).isSome || word == helpWord) then .error .unknownWord
      else .error .unknownCommand
  | some _ =>
      if r.hasFile then .error .unknownWord
      else do
        let r ← r.settle
        return { r with pending := some (.file, some word) }

/-- Reads a word. -/
def readWord (command : Option CommandName) (r : Reading) (word : String) :
    Except UsageError Reading :=
  if r.verbatim then r.readPlain command word
  else if word = "--" then .ok { r with verbatim := true }
  else
    match word.toList with
    | '-' :: '-' :: cs => r.readLong command cs
    | '-' :: c :: cs => readShort command r (c :: cs)
    | _ =>
        match r.pending with
        | some (setting, none) => .ok { r with pending := some (setting, some word) }
        | _ => r.readPlain command word

/-- What was set in the end. A path that the environment gives for the settings may not be empty
where none is set. -/
def finish (environment : Option String) (r : Reading) : Except UsageError Settings := do
  let r ← r.settle
  if r.settings.configuration.isNone && environment == some "" then throw .emptyPath
  return r.settings

end Reading

/-- Reads words up to a command. -/
def readBeforeCommand : Reading → List String →
    Except UsageError (Reading × Option (CommandName × List String))
  | r, [] => .ok (r, none)
  | r, word :: rest =>
      let isPlain := !r.verbatim && !r.awaitsValue
      match commandOf? word with
      | some command =>
          if isPlain then .ok (r, some (command, rest))
          else do readBeforeCommand (← r.readWord none word) rest
      | none =>
          if isPlain && word == helpWord then
            match rest with
            | [] => .error .helpWanted
            | [topic] =>
                if (commandOf? topic).isSome || topic == helpWord then .error .helpWanted
                else .error .unknownCommand
            | _ => .error .unknownCommand
          else do readBeforeCommand (← r.readWord none word) rest

/-- Reads the words after a command. -/
def readAfterCommand (command : CommandName) (words : List String) : Except UsageError Reading :=
  words.foldlM (fun r word => r.readWord (some command) word) .start

/-- What a command prints under its settings. -/
def CommandName.action (command : CommandName) (s : Settings) : Except UsageError Action :=
  match command with
  | .check => .ok .check
  | .plan => .ok (.plan s.root s.composition)
  | .graph =>
      match s.root with
      | some root => .ok (.graph root s.composition)
      | none => .error .missingRoot

/-- Reads a command line, where the environment may give a document of settings. -/
def parse (environment : Option String) (words : List String) :
    Except UsageError Invocation := do
  match ← readBeforeCommand .start words with
  | (outer, none) =>
      let s ← outer.finish environment
      throw (if s = .empty ∧ environment.isNone then .nothingGiven else .missingCommand)
  | (outer, some (command, rest)) =>
      let inner ← (← readAfterCommand command rest).finish environment
      let action ← command.action inner
      let outer ← outer.finish environment
      return {
        action
        file := inner.file.getD defaultFile
        configuration := inner.configuration <|> outer.configuration <|> environment
        culture := (inner.culture <|> outer.culture).map Culture.ofTagOrEnglish
        hints := if inner.hints.isEmpty then outer.hints else inner.hints
        format := (inner.format <|> outer.format).getD .text }

end Injector.CommandLine
