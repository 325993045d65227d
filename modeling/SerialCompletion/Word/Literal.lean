import SerialCompletion.Text.Basic

/-!
# The literal value of a raw word

Quotes are dropped and a backslash gives its next character, except inside
single quotes, where every character stands for itself.  A backslash at the
end of the word is kept.  Expansions are not evaluated: their text is copied.
-/

namespace SerialCompletion.Word

inductive Quotation where
  | outside
  | single
  | double
  deriving DecidableEq, Repr

/-- How the next character of a word is read. -/
structure Reading where
  quotation : Quotation
  escaped : Bool
  deriving DecidableEq, Repr

namespace Reading

def start : Reading := ⟨.outside, false⟩

/-- The text that a character gives. -/
def output (reading : Reading) (c : Char) : Text :=
  if reading.escaped then [c]
  else
    match reading.quotation with
    | .single => if c = '\'' then [] else [c]
    | .outside => if c = '\\' ∨ c = '\'' ∨ c = '"' then [] else [c]
    | .double => if c = '\\' ∨ c = '"' then [] else [c]

def next (reading : Reading) (c : Char) : Reading :=
  if reading.escaped then ⟨reading.quotation, false⟩
  else
    match reading.quotation with
    | .single => if c = '\'' then ⟨.outside, false⟩ else ⟨.single, false⟩
    | .outside =>
        if c = '\\' then ⟨.outside, true⟩
        else if c = '\'' then ⟨.single, false⟩
        else if c = '"' then ⟨.double, false⟩
        else ⟨.outside, false⟩
    | .double =>
        if c = '\\' then ⟨.double, true⟩
        else if c = '"' then ⟨.outside, false⟩
        else ⟨.double, false⟩

def run (reading : Reading) : Text → Reading
  | [] => reading
  | c :: rest => run (reading.next c) rest

/-- The text that the end of a word gives: an escape with nothing to take. -/
def finish (reading : Reading) : Text :=
  if reading.escaped then ['\\'] else []

end Reading

def literalFrom (reading : Reading) : Text → Text
  | [] => reading.finish
  | c :: rest => reading.output c ++ literalFrom (reading.next c) rest

def literal (word : Text) : Text :=
  literalFrom Reading.start word

/-!
## The entries of a list word

A list word names several values, separated by commas or white space, and
may be quoted as a whole or in part.  Values that it names already are not
offered again.
-/

/-- Whether a character separates the entries of a list word. -/
def isEntryBreak (c : Char) : Bool :=
  c == ',' || Text.isBlank c

def entriesOf (value : Text) : List Text :=
  (value.splitOnP isEntryBreak).filter fun entry => !entry.isEmpty

def entries (raw : Text) : List Text :=
  entriesOf (literal raw)

/-- The known values that a raw list word does not name, in their order. -/
def remaining (raw : Text) (known : List Text) : List Text :=
  known.filter fun value => !(entries raw).contains value

end SerialCompletion.Word
