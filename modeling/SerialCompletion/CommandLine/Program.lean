import SerialCompletion.CommandLine.Arguments
import SerialCompletion.CommandLine.Glue
import SerialCompletion.Editor.Session
import SerialCompletion.Line.Scan
import SerialCompletion.Settings.Basic
import SerialCompletion.Settings.Storage

/-!
# Runs of the program

A run reads its arguments, loads the settings, opens the log and does one
command.  Settings that are not valid are replaced by the standard ones, with
a warning, so every command works with valid settings.
-/

namespace SerialCompletion.CommandLine

open Files

/-! ## Outcomes -/

structure Outcome where
  /-- Zero for success, one for a failure, two for arguments that were refused. -/
  exitCode : Nat
  output : Text
  notes : List Text
  deriving DecidableEq, Repr

namespace Outcome

def success (output : Text) : Outcome := ⟨0, output, []⟩

def failed (output : Text) (failure : Failure) : Outcome :=
  ⟨1, output, ["Error: ".toList ++ failure.message]⟩

def withNotes (notes : List Text) (outcome : Outcome) : Outcome :=
  { outcome with notes := notes ++ outcome.notes }

end Outcome

def writeLines (lines : List Text) : Text :=
  lines.flatMap fun line => line ++ ['\n']

/-! ## Settings of a run -/

def Invocation.logLevel (invocation : Invocation) (standing : LogLevel) : LogLevel :=
  if invocation.veryVerbose then .trace
  else if invocation.verbose then .debug
  else if invocation.quiet then .error
  else standing

def Invocation.applyTo (invocation : Invocation) (settings : Settings) : Settings :=
  { settings with
    logging := { settings.logging with level := invocation.logLevel settings.logging.level } }

def validOrStandard (home : Text) (settings : Settings) : Settings :=
  match settings.fault? with
  | none => settings
  | some _ => Settings.standard home

def warnings (settings : Settings) : List Text :=
  match settings.fault? with
  | none => []
  | some fault =>
      ["Warning: Configuration validation failed: ".toList ++ (Failure.settings fault).message,
        "Using default configuration instead."]

/-- The settings that a run works with, from those that it loaded. -/
def Invocation.effective (invocation : Invocation) (home : Text) (loaded : Settings) : Settings :=
  invocation.applyTo (validOrStandard home loaded)

def Invocation.loadSettings [Monad m] (access : Access m) (home : Text)
    (invocation : Invocation) : m (Except Failure (Settings × List Text)) := do
  let loaded ← Settings.load access home invocation.settingsFile
  return loaded.map fun settings => (invocation.effective home settings, warnings settings)

def openLog [Monad m] (access : Access m) (settings : Settings) : m (Except Failure Unit) := do
  match settings.logging.filePath with
  | none => return .ok ()
  | some path => return (← access.touch path).mapError .files

/-! ## Commands -/

def versionNumber : Text := "0.1.0"

def versionLines : List Text :=
  ["picocomp version ".toList ++ versionNumber, "Rust version: 1.91"]

def runComplete [Monad m] (access : Access m) (settings : Settings) (point : Option Nat)
    (format : Completion.Format) (line : Text) : m Outcome := do
  let entries ← access.list settings.completion.deviceDirectory
  let completer := settings.completer (entries.map Entry.name)
  let text := (completer.offer line (point.getD line.byteLength)).render format
  return .success (if text.isEmpty then [] else writeLines [text])

def Invocation.settingsPath (invocation : Invocation) (home : Text) : Text :=
  invocation.settingsFile.getD (Settings.standardPath home)

def checkResult : Except Failure Settings → Text
  | .error failure => "Failed to load configuration: ".toList ++ failure.message
  | .ok settings =>
      match settings.fault? with
      | none => "Configuration is valid"
      | some fault =>
          "Configuration validation failed: ".toList ++ (Failure.settings fault).message

def checkLines [Monad m] (access : Access m) (home path : Text) : m (List Text) := do
  let announced := "Validating configuration file: ".toList ++ path
  if ← access.contains path then
    return [announced, checkResult (← Settings.load access home (some path))]
  else return [announced, "Configuration file does not exist, defaults apply"]

def displayLines (settings : Settings) (path : Text) : List Text :=
  ["# Configuration file: ".toList ++ path, [], settings.document]

/-- Show or check the settings; they are shown when neither is asked for. -/
def runSettings [Monad m] (access : Access m) (home path : Text) (settings : Settings)
    (display check : Bool) : m Outcome := do
  let checked ← if check then checkLines access home path else pure []
  let displayed := if display || !check then displayLines settings path else []
  return .success (writeLines (checked ++ displayed))

def greeting (settings : Settings) : Text :=
  "Type a ".toList ++ settings.completion.program ++
    " command line and press Tab to complete. Ctrl-D exits.".toList

/-- Start the line editor, which gives up without a terminal. -/
def runInteractive [Monad m] (access : Access m) (quiet : Bool) (settings : Settings) :
    m Outcome := do
  match ← Editor.Session.start access settings with
  | .error failure => return .failed [] failure
  | .ok _ =>
      return .failed (if quiet then [] else writeLines [greeting settings]) (.files .noTerminal)

def Invocation.perform [Monad m] (access : Access m) (home : Text) (invocation : Invocation)
    (settings : Settings) : m Outcome :=
  match invocation.command with
  | some (.complete point format line) => runComplete access settings point format line
  | some (.split point line) =>
      return .success (writeLines
        [Line.listing settings.lexer line (point.getD line.byteLength)])
  | some (.glue shell program) =>
      match glue shell (program.getD settings.completion.program) with
      | .ok script => return .success script
      | .error failure => return .failed [] failure
  | some (.settings display check) =>
      runSettings access home (invocation.settingsPath home) settings display check
  | some .version => return .success (writeLines versionLines)
  | some .interactive | none => runInteractive access invocation.quiet settings

/-! ## Runs -/

/-- A run whose arguments were understood. -/
def Invocation.run [Monad m] (access : Access m) (home : Text) (invocation : Invocation) :
    m Outcome := do
  match ← invocation.loadSettings access home with
  | .error failure => return .failed [] failure
  | .ok (settings, notes) =>
      match ← openLog access settings with
      | .error failure => return (Outcome.failed [] failure).withNotes notes
      | .ok () => return (← invocation.perform access home settings).withNotes notes

def Refusal.outcome : Refusal → Outcome
  | .helpRequested => .success (writeLines ["Usage: picocomp [OPTIONS] [COMMAND]"])
  | .versionRequested => .success (writeLines ["picocomp ".toList ++ versionNumber])
  | _ => ⟨2, [], ["error: the arguments are not understood"]⟩

/-- A run for the words behind the program name. -/
def run [Monad m] (access : Access m) (home : Text) (words : List Text) : m Outcome :=
  match Invocation.ofWords words with
  | .error refusal => return refusal.outcome
  | .ok invocation => invocation.run access home

end SerialCompletion.CommandLine
