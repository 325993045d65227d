import SerialCompletion.Completion.Offer
import SerialCompletion.Files.Tree

/-!
# Suggestions and editing sessions

An editor takes suggestions: a value, the span that it replaces, and whether
a space follows.  Where an offer falls back to files, the paths that begin
with the typed text are suggested; command names are left to the shell.
-/

namespace SerialCompletion.Completion

open Files

structure Suggestion where
  value : Text
  start : Nat
  stop : Nat
  appendSpace : Bool
  deriving DecidableEq, Repr

/-- Whether an entry may complete a name: hidden entries only when the name says so. -/
def completesName (name : Text) (entry : Entry) : Bool :=
  name.isPrefixOf entry.name && !(entry.name.head? == some '.' && name.head? != some '.')

/-- The path of an entry behind the directory part that was typed. -/
def entryPath (directory : Text) (entry : Entry) : Text :=
  directory ++ entry.name ++ (if entry.isDirectory then ['/'] else [])

def pathCandidates (directory name : Text) (entries : List Entry) : List Text :=
  Text.sorted ((entries.filter (completesName name)).map (entryPath directory))

def completePath (list : Lister) (typed : Text) : List Text :=
  let (directory, name) := Text.cutAfterLast '/' typed
  pathCandidates directory name (list (if directory.isEmpty then ['.'] else directory))

def Offer.values (offer : Offer) (list : Lister) (line : Text) (stop : Nat) : List Text :=
  match offer.hints.fallback, offer.candidates with
  | some .files, [] => completePath list ((Text.between? line offer.start stop).getD [])
  | some .commands, _ => []
  | _, candidates => candidates

def Completer.suggest (completer : Completer) (list : Lister) (line : Text) (offset : Nat) :
    List Suggestion :=
  let offer := completer.offer line offset
  let stop := max (min offset line.byteLength) offer.start
  (offer.values list line stop).map fun value =>
    ⟨value, offer.start, stop, !offer.hints.noSpace && value.getLast? != some '/'⟩

/-!
## Editing sessions

A line that grows by typing, erasing, moving and accepting suggestions.  The
suggestions are computed anew after each step, for the cursor as it then is.
-/

inductive EditStep where
  | type (inserted : Text)
  | erase (count : Nat)
  | move (offset : Nat)
  | accept (index : Nat)
  deriving DecidableEq, Repr

/-- A line under edit with its cursor and the present suggestions. -/
structure Session where
  line : Text
  cursor : Nat
  suggestions : List Suggestion
  deriving DecidableEq, Repr

namespace Session

def start : Session := ⟨[], 0, []⟩

def around (before behind : Text) (suggestions : List Suggestion) : Session :=
  ⟨before ++ behind, Text.byteLength before, suggestions⟩

/-- Accept a suggestion: replace its span and put the cursor behind the value. -/
def acceptSuggestion (session : Session) (suggestion : Suggestion) : Session :=
  around
    (Text.takeBytes suggestion.start session.line ++ suggestion.value ++
      (if suggestion.appendSpace then [' '] else []))
    (Text.dropBytes suggestion.stop session.line) session.suggestions

/-- The line and the cursor after a step, with the suggestions still as they were. -/
def edit (session : Session) (step : EditStep) : Session :=
  let before := Text.takeBytes session.cursor session.line
  let behind := Text.dropBytes session.cursor session.line
  match step with
  | .type inserted => around (before ++ inserted) behind session.suggestions
  | .erase count => around (before.take (before.length - count)) behind session.suggestions
  | .move offset => { session with cursor := Text.clamp session.line offset }
  | .accept index =>
      match session.suggestions[index]? with
      | none => session
      | some suggestion => session.acceptSuggestion suggestion

/-- The session after a step and the suggestions for it. -/
def next (completer : Completer) (list : Lister) (session : Session) (step : EditStep) : Session :=
  let edited := session.edit step
  { edited with suggestions := completer.suggest list edited.line edited.cursor }

def trace (completer : Completer) (list : Lister) (session : Session) :
    List EditStep → List Session
  | [] => []
  | step :: rest =>
      let after := session.next completer list step
      after :: trace completer list after rest

end Session

end SerialCompletion.Completion
