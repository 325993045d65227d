import SerialCompletion.Text.Basic

/-!
# Paths

A path is read as its parts between slashes.  Empty parts and single dots
lead nowhere.  Only a path that ends in a name may lead to a file.
-/

namespace SerialCompletion.Files

/-!
## Faults of file access

Why a file or a directory could not be used, with the wording of the
operating system.
-/

inductive Fault where
  | notFound
  | notDirectory
  | isDirectory
  | alreadyExists
  | nameTooLong
  | nulInPath
  | noTerminal
  | other (reason : Text)
  deriving DecidableEq, Repr

def Fault.message : Fault → Text
  | .notFound => "No such file or directory (os error 2)"
  | .notDirectory => "Not a directory (os error 20)"
  | .isDirectory => "Is a directory (os error 21)"
  | .alreadyExists => "File exists (os error 17)"
  | .nameTooLong => "File name too long (os error 36)"
  | .nulInPath => "file name contained an unexpected NUL byte"
  | .noTerminal => "No such device or address (os error 6)"
  | .other reason => reason

/-! ## Paths and their parts -/

/-- A directory and a name in it as one path, with one slash between them. -/
def joinPath (directory name : Text) : Text :=
  if directory.isEmpty ∨ directory.getLast? = some '/' then directory ++ name
  else directory ++ ['/'] ++ name

inductive Part where
  | above
  | name (text : Text)
  deriving DecidableEq, Repr

inductive Ending where
  | name
  /-- A name with slashes behind it. -/
  | slash
  /-- One dot or two, or nothing but slashes. -/
  | dots
  deriving DecidableEq, Repr

structure Path where
  absolute : Bool
  parts : List Part
  ending : Ending
  deriving DecidableEq, Repr

namespace Path

def partOf? (piece : Text) : Option Part :=
  if piece = [] ∨ piece = ['.'] then none
  else if piece = ['.', '.'] then some .above
  else some (.name piece)

def endingOf (pieces : List Text) : Ending :=
  match (pieces.filter (!·.isEmpty)).getLast?.bind partOf? with
  | some (.name name) => if pieces.getLast? = some name then .name else .slash
  | some .above | none => .dots

/-- The longest path and the longest name that the system takes, in bytes. -/
def tooLong (text : Text) (pieces : List Text) : Bool :=
  4095 < text.byteLength || pieces.any fun piece => 255 < piece.byteLength

/-- Read a path; the empty text names nothing. -/
def ofText (text : Text) : Except Fault Path :=
  let pieces := text.splitOnP (· == '/')
  if text.contains '\x00' then .error .nulInPath
  else if text.isEmpty then .error .notFound
  else if tooLong text pieces then .error .nameTooLong
  else
    .ok
      { absolute := text.head? == some '/'
        parts := pieces.filterMap partOf?
        ending := endingOf pieces }

def parent (path : Path) : Path :=
  { path with parts := path.parts.dropLast, ending := .dots }

/-- The name at the end of a path, with slashes behind it or without. -/
def lastName? (path : Path) : Option Text :=
  match path.ending, path.parts.getLast? with
  | .name, some (.name name) | .slash, some (.name name) => some name
  | _, _ => none

end Path

end SerialCompletion.Files
