import SerialCompletion.Files.Tree
import SerialCompletion.Settings.Basic
import SerialCompletion.Toml.Reader
import SerialCompletion.Toml.Strings

/-!
# Stored settings

Settings are kept in a file, as a document with a table for each section.
Each field takes its standard value when the document does not give it.  A
section may also be an array of its fields in order.  Unknown keys are passed
over, and a value of another type than its field is refused.
-/

namespace SerialCompletion

/-! ## Settings from a document -/

namespace Toml

/-- The fields of a section, by their place in it and by their keys. -/
abbrev Fields := Nat → Text → Option Value

/-- The fields that a value gives; a moment is a section without any. -/
def Value.fields? : Value → Option Fields
  | .table _ entries => some fun _ key => Entries.lookup? key entries
  | .array items => some fun place _ => items[place]?
  | .tables members => some fun place _ => (members[place]?).map fun entries =>
      .table .defined entries
  | .moment _ => some fun _ _ => none
  | .text _ | .integer _ | .float _ | .boolean _ => none

def Value.text? : Value → Option Text
  | .text content => some content
  | _ => none

def Value.boolean? : Value → Option Bool
  | .boolean flag => some flag
  | _ => none

def Value.size? : Value → Option UInt64
  | .integer (.ofNat number) => if number < UInt64.size then some (.ofNat number) else none
  | _ => none

def Value.texts? : Value → Option (List Text)
  | .array items => items.mapM Value.text?
  | _ => none

/-- Whether a value is a table or an array that holds nothing. -/
def Value.isHollow : Value → Bool
  | .table _ entries => entries.isEmpty
  | .array items => items.isEmpty
  | .tables members => members.isEmpty
  | _ => false

/-- The name that a value chooses: a text, or the only key of a table that has nothing under it. -/
def Value.choice? : Value → Option Text
  | .text content => some content
  | .table _ [(key, value)] => if value.isHollow then some key else none
  | _ => none

/-- A field of a section, or its standard value. -/
def Fields.get (fields : Fields) (place : Nat) (key : Text) (ofValue : Value → Option α)
    (missing : α) : Except Fault α :=
  match fields place key with
  | none => .ok missing
  | some value =>
      match ofValue value with
      | none => .error (.wrongType key)
      | some found => .ok found

def Entries.section (entries : Entries) (key : Text) (ofFields : Fields → Except Fault α)
    (missing : α) : Except Fault α :=
  match Entries.lookup? key entries with
  | none => .ok missing
  | some value =>
      match value.fields? with
      | none => .error (.wrongType key)
      | some fields => ofFields fields

end Toml

open Toml

def LogLevel.ofName? (name : Text) : Option LogLevel :=
  LogLevel.all.find? fun level => level.name == name

def LogLevel.ofValue? (value : Value) : Option LogLevel :=
  value.choice?.bind LogLevel.ofName?

def Line.Classes.ofFields (standard : Line.Classes) (fields : Fields) :
    Except Toml.Fault Line.Classes := do
  return { delimiters := ← fields.get 0 "delimiters" Value.text? standard.delimiters
           separators := ← fields.get 1 "separators" Value.text? standard.separators }

def CompletionSettings.ofFields (standard : CompletionSettings) (fields : Fields) :
    Except Toml.Fault CompletionSettings := do
  return { program := ← fields.get 0 "program" Value.text? standard.program
           deviceDirectory := ← fields.get 1 "device_dir" Value.text? standard.deviceDirectory
           deviceBeginnings :=
             ← fields.get 2 "device_prefixes" Value.texts? standard.deviceBeginnings }

def HistorySettings.ofFields (standard : HistorySettings) (fields : Fields) :
    Except Toml.Fault HistorySettings := do
  return { maxSize := ← fields.get 0 "max_size" Value.size? standard.maxSize
           filePath := ← fields.get 1 "file_path" Value.text? standard.filePath
           persist := ← fields.get 2 "persist" Value.boolean? standard.persist }

def LoggingSettings.ofFields (standard : LoggingSettings) (fields : Fields) :
    Except Toml.Fault LoggingSettings := do
  return { level := ← fields.get 0 "level" LogLevel.ofValue? standard.level
           filePath :=
             ← fields.get 1 "file_path" (fun value => value.text?.map some) standard.filePath
           timestamps := ← fields.get 2 "timestamps" Value.boolean? standard.timestamps }

namespace Settings

def ofEntries (home : Text) (entries : Entries) : Except Toml.Fault Settings := do
  let missing := standard home
  return { lexer := ← entries.section "lexer" missing.lexer.ofFields missing.lexer
           completion :=
             ← entries.section "completion" missing.completion.ofFields missing.completion
           history := ← entries.section "history" missing.history.ofFields missing.history
           logging := ← entries.section "logging" missing.logging.ofFields missing.logging }

def ofDocument (home text : Text) : Except SettingsFault Settings :=
  match Toml.read text >>= ofEntries home with
  | .ok settings => .ok settings
  | .error fault => .error (.invalidFormat fault.message)

end Settings

/-!
## Settings as a document

One table for each section, with its fields in order and an empty line
between tables.  A log file that is not set is left out.
-/

namespace Toml

def writePair (key value : Text) : Text :=
  key ++ [' ', '=', ' '] ++ value ++ ['\n']

def writeBoolean (flag : Bool) : Text :=
  if flag then "true" else "false"

def writeItemLine (text : Text) : Text :=
  "    ".toList ++ writeString text ++ [',', '\n']

/-- An array of texts: on one line up to one item, and else with a line for each. -/
def writeTexts : List Text → Text
  | [] => "[]"
  | [text] => ['['] ++ writeString text ++ [']']
  | texts => ['[', '\n'] ++ texts.flatMap writeItemLine ++ [']']

def writeTable (name : Text) (pairs : List Text) : Text :=
  ['['] ++ name ++ [']', '\n'] ++ pairs.flatten

end Toml

open Toml

namespace Settings

def tables (settings : Settings) : List Text :=
  [writeTable "lexer"
      [writePair "delimiters" (writeString settings.lexer.delimiters),
        writePair "separators" (writeString settings.lexer.separators)],
    writeTable "completion"
      [writePair "program" (writeString settings.completion.program),
        writePair "device_dir" (writeString settings.completion.deviceDirectory),
        writePair "device_prefixes" (writeTexts settings.completion.deviceBeginnings)],
    writeTable "history"
      [writePair "max_size" (Text.ofNat settings.history.maxSize.toNat),
        writePair "file_path" (writeString settings.history.filePath),
        writePair "persist" (writeBoolean settings.history.persist)],
    writeTable "logging"
      ([writePair "level" (writeString settings.logging.level.name)] ++
        (settings.logging.filePath.map fun path => writePair "file_path" (writeString path)).toList
        ++ [writePair "timestamps" (writeBoolean settings.logging.timestamps)])]

def document (settings : Settings) : Text :=
  List.intercalate ['\n'] settings.tables

end Settings

end SerialCompletion

namespace SerialCompletion.Settings

open Files

/-!
## The settings file

A file that was asked for has to be there; the one in the home directory may
be missing, and then the standard settings apply.
-/

def ofContent (home : Text) : Except Fault Text → Except Failure Settings
  | .error fault => .error (.files fault)
  | .ok text => (ofDocument home text).mapError .settings

/-- The settings in a file that was asked for, or in the one of the home directory. -/
def load [Monad m] (access : Access m) (home : Text) (path? : Option Text) :
    m (Except Failure Settings) := do
  let path := path?.getD (standardPath home)
  if ← access.contains path then
    return ofContent home (← access.read path)
  else if path?.isSome then
    return .error (.settings (.fileNotFound path))
  else
    return .ok (standard home)

def save [Monad m] (access : Access m) (settings : Settings) (path : Text) :
    m (Except Failure Unit) := do
  match ← access.createParents path with
  | .error fault => return .error (.files fault)
  | .ok () => return (← access.write path settings.document).mapError .files

end SerialCompletion.Settings
