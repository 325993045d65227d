import SerialCompletion.Completion.Offer
import SerialCompletion.Files.Path
import SerialCompletion.Text.Basic
import SerialCompletion.Text.Quoted

/-!
# Settings

How lines are split, where serial devices are looked for, how the history of
the line editor is kept, and what is logged.  Every field has a standard
value; two of them lie in the home directory.
-/

namespace SerialCompletion

/-!
## Failures

What can go wrong around completion.  Splitting and completing never fail;
failures come from the settings, from files and from the line editor.
-/

inductive SettingsFault where
  | fileNotFound (path : Text)
  | invalidFormat (reason : Text)
  | missingField (field : Text)
  | invalidValue (field value : Text)
  | generic (message : Text)
  deriving DecidableEq, Repr

def SettingsFault.message : SettingsFault → Text
  | .fileNotFound path => "Config file not found: ".toList ++ path
  | .invalidFormat reason => "Invalid config format: ".toList ++ reason
  | .missingField field => "Missing required field: ".toList ++ field
  | .invalidValue field value =>
      "Invalid value '".toList ++ value ++ "' for field '".toList ++ field ++ ['\'']
  | .generic message => message

inductive Failure where
  | settings (fault : SettingsFault)
  | files (fault : Files.Fault)
  | document (reason : Text)
  | editor (reason : Text)
  | generic (message : Text)
  deriving DecidableEq, Repr

namespace Failure

def message : Failure → Text
  | .settings fault => "Configuration error: ".toList ++ fault.message
  | .files fault => "I/O error: ".toList ++ fault.message
  | .document reason => "TOML error: ".toList ++ reason
  | .editor reason => "Line editor error: ".toList ++ reason
  | .generic message => message

/-- The wording of the fault behind a failure, where one is kept. -/
def cause? : Failure → Option Text
  | .settings fault => some fault.message
  | .files fault => some fault.message
  | .document _ | .editor _ | .generic _ => none

end Failure

/-! ## The fields -/

inductive LogLevel where
  | error
  | warn
  | info
  | debug
  | trace
  deriving DecidableEq, Repr

def LogLevel.name : LogLevel → Text
  | .error => "error"
  | .warn => "warn"
  | .info => "info"
  | .debug => "debug"
  | .trace => "trace"

/-- All levels, the quietest first. -/
def LogLevel.all : List LogLevel := [.error, .warn, .info, .debug, .trace]

structure CompletionSettings where
  program : Text
  deviceDirectory : Text
  /-- How the names of serial devices begin. -/
  deviceBeginnings : List Text
  deriving DecidableEq, Repr

structure HistorySettings where
  maxSize : UInt64
  filePath : Text
  persist : Bool
  deriving DecidableEq, Repr

structure LoggingSettings where
  level : LogLevel
  /-- The log file, when there is one. -/
  filePath : Option Text
  timestamps : Bool
  deriving DecidableEq, Repr

structure Settings where
  lexer : Line.Classes
  completion : CompletionSettings
  history : HistorySettings
  logging : LoggingSettings
  deriving DecidableEq, Repr

namespace Settings

def standard (home : Text) : Settings where
  lexer := Line.Classes.standard
  completion :=
    { program := "picocom"
      deviceDirectory := "/dev"
      deviceBeginnings := ["ttyS", "ttyUSB", "ttyACM", "ttyAMA", "rfcomm"] }
  history :=
    { maxSize := 1000
      filePath := Files.joinPath home ".picocomp_history"
      persist := true }
  logging := { level := .warn, filePath := none, timestamps := false }

def standardPath (home : Text) : Text :=
  Files.joinPath (Files.joinPath home ".picocomp") "config.toml"

def completer (settings : Settings) (deviceNames : List Text) : Completion.Completer where
  classes := settings.lexer
  source := Completion.Source.picocom
    (Completion.devicePaths settings.completion.deviceDirectory
      settings.completion.deviceBeginnings deviceNames)

end Settings

/-!
## Valid settings

The settings that completion can work with: every character belongs to at
most one class of the splitter, quoting keeps its meaning, and program,
devices and history are named.  The first fault in a fixed order is reported.
-/

/-- The characters whose meaning to the splitter is fixed. -/
def reservedChars : List Char := ['\'', '"', '\x60', '\\', '$']

def holdsReserved (characters : Text) : Bool :=
  characters.any fun c => reservedChars.contains c

def Line.Classes.fault? (classes : Line.Classes) : Option SettingsFault :=
  if classes.delimiters.isEmpty then some (.missingField "lexer.delimiters")
  else if holdsReserved classes.delimiters then
    some (.invalidValue "lexer.delimiters" classes.delimiters)
  else if holdsReserved classes.separators then
    some (.invalidValue "lexer.separators" classes.separators)
  else if classes.separators.any classes.isDelimiter then
    some (.invalidValue "lexer.separators" classes.separators)
  else none

def CompletionSettings.fault? (settings : CompletionSettings) : Option SettingsFault :=
  if settings.program.all Text.isBlank then
    some (.invalidValue "completion.program" settings.program)
  else if settings.deviceBeginnings.isEmpty || settings.deviceBeginnings.any List.isEmpty then
    some (.invalidValue "completion.device_prefixes" (Text.quotedList settings.deviceBeginnings))
  else none

def HistorySettings.fault? (settings : HistorySettings) : Option SettingsFault :=
  if settings.maxSize = 0 then some (.invalidValue "history.max_size" "0") else none

def Settings.fault? (settings : Settings) : Option SettingsFault :=
  settings.lexer.fault? <|> settings.completion.fault? <|> settings.history.fault?

end SerialCompletion
