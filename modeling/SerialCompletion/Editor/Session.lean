import SerialCompletion.Files.Tree
import SerialCompletion.Line.Scan
import SerialCompletion.Settings.Basic
import SerialCompletion.Text.Basic

/-!
# Opening the line editor

The editor opens its history and then shows how the lines that it accepts
are split.  A history that should be kept needs its file, and a history whose
size cannot be counted is refused.
-/

namespace SerialCompletion.Editor

/-! ## The prompt -/

structure Prompt where
  program : Text
  deriving DecidableEq, Repr

namespace Prompt

def left (prompt : Prompt) : Text :=
  ['['] ++ prompt.program ++ [']', '$', ' ']

def right (_ : Prompt) : Text := []

def indicator (_ : Prompt) : Text := []

def continuation (_ : Prompt) : Text := ['>', ' ']

def search (_ : Prompt) (term : Text) (failing : Bool) : Text :=
  let status : Text := if failing then "failing " else []
  ['('] ++ status ++ "reverse-search: ".toList ++ term ++ [')', ' ']

end Prompt

/-! ## The session -/

open Files

structure Session where
  classes : Line.Classes
  prompt : Prompt
  /-- Whether more lines are read. -/
  running : Bool
  deriving DecidableEq, Repr

/-- The failure of a history whose size leaves no room to count one entry more. -/
def historyTooLarge : Failure :=
  .editor "error in Reedline history: History capacity too large to be addressed safely"

def historyFault (fault : Fault) : Failure :=
  .editor ("I/O error: ".toList ++ fault.message)

/-- Open the file of a history with the directories above it. -/
def openHistoryFile [Monad m] (access : Access m) (path : Text) : m (Except Failure Unit) := do
  match ← access.createParents path with
  | .error fault => return .error (historyFault fault)
  | .ok () => return (← access.touch path).mapError historyFault

def openHistory [Monad m] (access : Access m) (settings : HistorySettings) :
    m (Except Failure Unit) :=
  if settings.maxSize.toNat + 1 = UInt64.size then return .error historyTooLarge
  else if settings.persist then openHistoryFile access settings.filePath
  else return .ok ()

namespace Session

def start [Monad m] (access : Access m) (settings : Settings) : m (Except Failure Session) := do
  match ← openHistory access settings.history with
  | .error failure => return .error failure
  | .ok () => return .ok ⟨settings.lexer, ⟨settings.completion.program⟩, true⟩

def describe (session : Session) (line : Text) : Text :=
  Line.listing session.classes line line.byteLength

end Session

end SerialCompletion.Editor
