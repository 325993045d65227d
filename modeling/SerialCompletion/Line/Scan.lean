import SerialCompletion.Text.Quoted
import SerialCompletion.Word.Literal

/-!
# Splitting a line

A scan stands in a mode, remembers the modes that enclose it, and remembers
what its last character left open: a backslash takes the next character, a
dollar waits for an opening bracket, a run of separators waits for more of
them.  Each character makes one move, which says whether the open word ends
before it, whether it is kept, and how the scan goes on.  No move looks at the
rest of the line.
-/

namespace SerialCompletion.Line

/-!
## Character classes of a line

Delimiters stand between words and are dropped.  Separators stand between
words and are kept as words of their own.  The two sets may be any texts; the
order of their characters matters only when two classifications are compared.
-/

structure Classes where
  delimiters : Text
  separators : Text
  deriving DecidableEq, Repr

namespace Classes

def standard : Classes where
  delimiters := [' ', '\t', '\n']
  separators := ['=', '>', '<']

def isDelimiter (classes : Classes) (c : Char) : Bool :=
  classes.delimiters.contains c

def isSeparator (classes : Classes) (c : Char) : Bool :=
  classes.separators.contains c

/-- Whether a word consists of separators and nothing else. -/
def isSeparatorRun (classes : Classes) (word : Text) : Bool :=
  !word.isEmpty && word.all classes.isSeparator

end Classes

def isQuoteOpener (c : Char) : Bool :=
  c == '\'' || c == '"' || c == '\x60'

/-! ## The scan -/

inductive Mode where
  | delimiter
  | word
  | singleQuote
  | doubleQuote
  | backtick
  | parenExpansion
  | braceExpansion
  deriving DecidableEq, Repr

namespace Mode

/-- Whether no quote and no expansion is open. -/
def isTopLevel : Mode → Bool
  | .delimiter | .word => true
  | _ => false

def ofQuote (c : Char) : Mode :=
  if c = '\'' then .singleQuote else if c = '"' then .doubleQuote else .backtick

/-- The mode inside the expansion that a bracket opens after a dollar. -/
def ofBracket? (c : Char) : Option Mode :=
  if c = '(' then some .parenExpansion
  else if c = '{' then some .braceExpansion
  else none

def closer? : Mode → Option Char
  | .delimiter | .word => none
  | .singleQuote => some '\''
  | .doubleQuote => some '"'
  | .backtick => some '\x60'
  | .parenExpansion => some ')'
  | .braceExpansion => some '}'

/-- Whether a backslash takes the next character in a mode. -/
def escapes : Mode → Bool
  | .singleQuote => false
  | _ => true

/-- Whether a dollar may start an expansion in a mode. -/
def expands : Mode → Bool
  | .singleQuote | .backtick => false
  | _ => true

def opensQuote (mode : Mode) (c : Char) : Bool :=
  match mode with
  | .singleQuote | .backtick => false
  | .doubleQuote => c == '\x60'
  | .delimiter | .word | .parenExpansion | .braceExpansion => isQuoteOpener c

end Mode

/-- What the last character of a scan left open. -/
inductive Pending where
  | nothing
  | escape
  | dollar
  | separators
  deriving DecidableEq, Repr

structure Scan where
  mode : Mode
  /-- The modes to return to, the innermost first. -/
  enclosing : List Mode
  pending : Pending
  deriving DecidableEq, Repr

/-- What one character does to the words of a line. -/
structure Move where
  /-- Whether the open word ends before the character. -/
  closes : Bool
  /-- Whether the character joins the open word. -/
  keeps : Bool
  next : Scan
  deriving DecidableEq, Repr

namespace Scan

def start : Scan := ⟨.delimiter, [], .nothing⟩

def enter (scan : Scan) (mode : Mode) : Scan :=
  ⟨mode, scan.mode :: scan.enclosing, .nothing⟩

def leave (scan : Scan) : Scan :=
  match scan.enclosing with
  | [] => ⟨.word, [], .nothing⟩
  | mode :: rest => ⟨mode, rest, .nothing⟩

/-- The control after a character that joins the open word. -/
def take (scan : Scan) (c : Char) : Scan :=
  if c = '\\' ∧ scan.mode.escapes then { scan with pending := .escape }
  else if c = '$' ∧ scan.mode.expands then { scan with pending := .dollar }
  else if scan.mode.closer? = some c then scan.leave
  else if scan.mode.opensQuote c then scan.enter (Mode.ofQuote c)
  else { scan with pending := .nothing }

def topLevelMove (classes : Classes) (scan : Scan) (c : Char) : Move :=
  if scan.pending = .separators ∧ classes.isSeparator c then ⟨false, true, scan⟩
  else if classes.isDelimiter c then ⟨scan.mode == .word, false, start⟩
  else if classes.isSeparator c then ⟨scan.mode == .word, true, ⟨.word, [], .separators⟩⟩
  else ⟨scan.pending == .separators, true, ({ scan with mode := .word } : Scan).take c⟩

/-- A move of a scan whose last character left no escape and no expansion open. -/
def plainMove (classes : Classes) (scan : Scan) (c : Char) : Move :=
  if scan.mode.isTopLevel then topLevelMove classes scan c
  else ⟨false, true, scan.take c⟩

def move (classes : Classes) (scan : Scan) (c : Char) : Move :=
  match scan.pending, Mode.ofBracket? c with
  | .escape, _ => ⟨false, true, { scan with pending := .nothing }⟩
  | .dollar, some mode => ⟨false, true, scan.enter mode⟩
  | _, _ => plainMove classes scan c

def run (classes : Classes) (scan : Scan) : Text → Scan
  | [] => scan
  | c :: rest => run classes (scan.move classes c).next rest

end Scan

/-!
## The words of a line

A line is split up to a cursor into raw words: quotes and escapes stay in
them.  The list is never empty, and its last word is the one under the
cursor, possibly empty.
-/

def consFirst (c : Char) : List Text → List Text
  | [] => [[c]]
  | word :: rest => (c :: word) :: rest

/-- The words of a text, the first continuing the word that the scan left open. -/
def wordsFrom (classes : Classes) (scan : Scan) : Text → List Text
  | [] => [[]]
  | c :: rest =>
      let move := scan.move classes c
      let words := wordsFrom classes move.next rest
      let kept := if move.keeps then consFirst c words else words
      if move.closes then [] :: kept else kept

def words (classes : Classes) (text : Text) : List Text :=
  wordsFrom classes Scan.start text

/-- The part of a line that a cursor has passed. -/
def beforeCursor (line : Text) (cursor : Nat) : Text :=
  Text.takeBytes cursor line

def split (classes : Classes) (line : Text) (cursor : Nat) : List Text :=
  words classes (beforeCursor line cursor)

/-!
## The word under the cursor

The words of a line as completion sees them: the words before the cursor, the
word under it, and how much of that word is typed text.  Right after a run of
separators nothing of the next word is typed yet.
-/

/-- The words of a line, the last of them under the cursor. -/
structure Cursor where
  before : List Text
  current : Text
  offset : Nat
  /-- Whether the word under the cursor is a run of separators. -/
  afterSeparators : Bool
  deriving DecidableEq, Repr

namespace Cursor

/-- Words with a cursor behind the last; no words are one empty word. -/
def ofWords (classes : Classes) (words : List Text) (offset : Nat) : Cursor :=
  let current := words.getLast?.getD []
  ⟨words.dropLast, current, offset, classes.isSeparatorRun current⟩

def ofLine (classes : Classes) (line : Text) (offset : Nat) : Cursor :=
  ofWords classes (split classes line offset) (Text.clamp line offset)

def words (cursor : Cursor) : List Text :=
  cursor.before ++ [cursor.current]

def previous? (cursor : Cursor) : Option Text :=
  cursor.before.getLast?

/-- The raw text that completion extends. -/
def typed (cursor : Cursor) : Text :=
  if cursor.afterSeparators then [] else cursor.current

def typedLiteral (cursor : Cursor) : Text :=
  Word.literal cursor.typed

/-- The byte offset at which a completion replaces the line. -/
def start (cursor : Cursor) : Nat :=
  cursor.offset - cursor.typed.byteLength

end Cursor

/-!
## The listing of a line

One line for each word: its index, the raw word and its literal value, the
two quoted, with tabs between the three.
-/

def listingLine (index : Nat) (word : Text) : Text :=
  List.intercalate ['\t'] [Text.ofNat index, Text.quoted word, Text.quoted (Word.literal word)]

def listingLines (index : Nat) : List Text → List Text
  | [] => []
  | word :: rest => listingLine index word :: listingLines (index + 1) rest

def listing (classes : Classes) (line : Text) (cursor : Nat) : Text :=
  Text.joinLines (listingLines 0 (split classes line cursor))

end SerialCompletion.Line
