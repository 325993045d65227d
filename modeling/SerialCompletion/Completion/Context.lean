import SerialCompletion.Catalogue.Options
import SerialCompletion.Line.Scan

/-!
# Positions and contexts

The words before the cursor lead to a position in the argument list, and the
position says what is being typed under the cursor.
-/

namespace SerialCompletion.Completion

open Catalogue

/-!
## Positions in an argument list

The words before the cursor lead to a position: before the program name,
among the arguments, where an option waits for its value, behind the equals
sign of an option, or behind the end of the options.  An unknown option or a
stray word leaves the position as it is.
-/

/-- Where in an argument list the next word stands. -/
inductive Position where
  | start
  | arguments
  | expectValue (kind : ArgumentKind)
  /-- An option and an equals sign wait for the value. -/
  | afterEquals (kind : ArgumentKind)
  /-- Only operands may follow. -/
  | operands
  deriving DecidableEq, Repr

namespace Position

def afterArgument (word : Text) : Position :=
  if word = endOfOptions then .operands
  else
    match findOption? word with
    | none => .arguments
    | some entry => if entry.argument.takesValue then .expectValue entry.argument else .arguments

def next (position : Position) (word : Text) : Position :=
  match position with
  | .start => .arguments
  | .operands => .operands
  | .expectValue kind => if word = ['='] then .afterEquals kind else .arguments
  | .afterEquals _ => .arguments
  | .arguments => afterArgument word

def after (position : Position) (words : List Text) : Position :=
  words.foldl next position

def ofWords (words : List Text) : Position :=
  after .start words

end Position

/-!
## Completion contexts

What is being typed under the cursor, with the text that candidates have to
match: the raw text for option names and mapping lists, the literal value for
fixed values and devices.
-/

open Line

/-- What is being typed under the cursor. -/
inductive Context where
  | optionName (typed : Text)
  | value (kind : ArgumentKind) (typed : Text)
  | mapList (raw : Text)
  | device (typed : Text)
  | file
  | command
  | nothing
  deriving DecidableEq, Repr

namespace Context

def ofArgument (kind : ArgumentKind) (raw literal : Text) : Context :=
  match kind with
  | .mapList => .mapList raw
  | .file => .file
  | .command => .command
  | .flag | .free => .nothing
  | .baud | .flow | .parity | .dataBits | .stopBits => .value kind literal

def ofPosition (position : Position) (cursor : Cursor) : Context :=
  match position with
  | .start => .nothing
  | .arguments =>
      if cursor.afterSeparators then .nothing
      else if cursor.typed.head? = some '-' then .optionName cursor.typed
      else .device cursor.typedLiteral
  | .operands => .device cursor.typedLiteral
  | .expectValue kind | .afterEquals kind => ofArgument kind cursor.typed cursor.typedLiteral

def ofCursor (cursor : Cursor) : Context :=
  ofPosition (Position.ofWords cursor.before) cursor

end Context

end SerialCompletion.Completion
