import SerialCompletion.Catalogue.Options
import SerialCompletion.Completion.Context
import SerialCompletion.Files.Path
import SerialCompletion.Text.Quoted
import SerialCompletion.Word.Literal

/-!
# Offers

The answer to one completion request: where the candidates replace the line,
the candidates in order, and hints for the host that shows them.  The text
from the start to the cursor is what a candidate replaces.
-/

namespace SerialCompletion.Completion

open Catalogue

/-!
## Sources of candidates

A source answers which texts may stand in a context.  The picocom source
answers from the option table and from the paths of the serial devices that
are present.
-/

structure Source where
  options : Text → List Text
  values : ArgumentKind → Text → List Text
  mapNames : List Text
  devices : Text → List Text

def isDeviceName (beginnings : List Text) (name : Text) : Bool :=
  beginnings.any fun beginning => beginning.isPrefixOf name

/-- The paths of the serial devices among the names in a directory, in ascending order. -/
def devicePaths (directory : Text) (beginnings names : List Text) : List Text :=
  Text.sorted ((names.filter (isDeviceName beginnings)).map (Files.joinPath directory))

def Source.picocom (devices : List Text) : Source where
  options typed := Text.beginningWith typed optionNames
  values kind typed := Text.beginningWith typed (kind.fixedValues?.getD [])
  mapNames := Catalogue.mapNames
  devices typed := Text.beginningWith typed devices

/-! ## Candidates and hints -/

open Line

/-- What the host completes by itself when no candidate is offered. -/
inductive Fallback where
  | files
  | commands
  deriving DecidableEq, Repr

/-- How the host shows and accepts candidates. -/
structure Hints where
  noSpace : Bool
  noSort : Bool
  fallback : Option Fallback
  deriving DecidableEq, Repr

namespace Hints

def plain : Hints := ⟨false, false, none⟩

end Hints

/-- The answer to one completion request. -/
structure Offer where
  /-- The byte offset from which a candidate replaces the line. -/
  start : Nat
  candidates : List Text
  hints : Hints
  deriving DecidableEq, Repr

/--
The candidates for the last entry of a list of mapping names.  The list is cut
after its last comma: names in the head are not offered again, the others must
begin with the literal value of the rest, and each candidate repeats the head.
-/
def mapListCandidates (known : List Text) (raw : Text) : List Text :=
  let (head, fragment) := Text.cutAfterLast ',' raw
  (Text.beginningWith (Word.literal fragment) (Word.remaining head known)).map (head ++ ·)

def offerFor (source : Source) (start : Nat) : Context → Offer
  | .optionName typed => ⟨start, source.options typed, .plain⟩
  | .value kind typed => ⟨start, source.values kind typed, ⟨false, true, none⟩⟩
  | .mapList raw => ⟨start, mapListCandidates source.mapNames raw, ⟨true, true, none⟩⟩
  | .device typed =>
      match source.devices typed with
      | [] => ⟨start, [], ⟨false, false, some .files⟩⟩
      | devices => ⟨start, devices, .plain⟩
  | .file => ⟨start, [], ⟨false, false, some .files⟩⟩
  | .command => ⟨start, [], ⟨false, false, some .commands⟩⟩
  | .nothing => ⟨start, [], .plain⟩

structure Completer where
  classes : Classes
  source : Source

namespace Completer

def offer (completer : Completer) (line : Text) (offset : Nat) : Offer :=
  let cursor := Cursor.ofLine completer.classes line offset
  offerFor completer.source cursor.start (Context.ofCursor cursor)

end Completer

/-!
## Written offers

The three forms in which an offer is printed.  The bash form has a line of
hint words and then one candidate per line, the JSON form is one compact
object on one line, and the plain form has the candidates alone.
-/

inductive Format where
  | bash
  | json
  | plain
  deriving DecidableEq, Repr

def Fallback.hintWord : Fallback → Text
  | .files => "default"
  | .commands => "commands"

def Offer.hintWords (offer : Offer) : List Text :=
  let start : Text := "start="
  let noSpace : List Text := if offer.hints.noSpace then ["nospace"] else []
  let noSort : List Text := if offer.hints.noSort then ["nosort"] else []
  [start ++ Text.ofNat offer.start] ++ noSpace ++ noSort ++
    (offer.hints.fallback.map Fallback.hintWord).toList

def fallbackJson : Option Fallback → Text
  | none => "null"
  | some .files => Text.jsonString "files"
  | some .commands => Text.jsonString "commands"

def Hints.json (hints : Hints) : Text :=
  Text.jsonObject
    [("no_space", Text.jsonBool hints.noSpace),
      ("no_sort", Text.jsonBool hints.noSort),
      ("fallback", fallbackJson hints.fallback)]

def Offer.json (offer : Offer) : Text :=
  Text.jsonObject
    [("start", Text.ofNat offer.start),
      ("candidates", Text.jsonArray (offer.candidates.map Text.jsonString)),
      ("hints", offer.hints.json)]

def Offer.render (offer : Offer) : Format → Text
  | .bash => Text.joinLines (List.intercalate [' '] offer.hintWords :: offer.candidates)
  | .json => offer.json
  | .plain => Text.joinLines offer.candidates

end SerialCompletion.Completion
