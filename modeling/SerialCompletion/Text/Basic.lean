/-!
# Text and byte offsets

Text is a list of characters.  Lines and offsets come from an editor that
counts the bytes of the UTF-8 form, so a byte offset is a measure on text:
`clamp` takes any offset to the last character boundary that it reaches.
-/

namespace SerialCompletion

/-- Text as its characters in order. -/
abbrev Text := List Char

instance : Coe String Text := ⟨String.toList⟩

namespace Text

/-- The number of bytes in the UTF-8 form of a text. -/
def byteLength : Text → Nat
  | [] => 0
  | c :: rest => c.utf8Size + byteLength rest

/-- The longest beginning of a text that fits into a number of bytes. -/
def takeBytes : Nat → Text → Text
  | _, [] => []
  | limit, c :: rest =>
      if c.utf8Size ≤ limit then c :: takeBytes (limit - c.utf8Size) rest else []

/-- What follows the longest beginning that fits into a number of bytes. -/
def dropBytes : Nat → Text → Text
  | _, [] => []
  | limit, c :: rest =>
      if c.utf8Size ≤ limit then dropBytes (limit - c.utf8Size) rest else c :: rest

/-- The last character boundary at or before an offset. -/
def clamp (text : Text) (offset : Nat) : Nat :=
  byteLength (takeBytes offset text)

/-- Whether an offset stands between two characters, or at either end. -/
def isBoundary (text : Text) (offset : Nat) : Bool :=
  clamp text offset == offset

/-- The text between two offsets, when both are boundaries in order. -/
def between? (text : Text) (start stop : Nat) : Option Text :=
  if isBoundary text start && isBoundary text stop && start ≤ stop then
    some (dropBytes start (takeBytes stop text))
  else none

/-- Cut a text right after its last mark; the first part is empty without one. -/
def cutAfterLast (mark : Char) : Text → Text × Text
  | [] => ([], [])
  | c :: rest =>
      match cutAfterLast mark rest with
      | ([], tail) => if c = mark then ([c], tail) else ([], c :: tail)
      | (head, tail) => (c :: head, tail)

def joinLines (lines : List Text) : Text :=
  List.intercalate ['\n'] lines

def ofNat (number : Nat) : Text :=
  Nat.toDigits 10 number

def decimalDigit? (c : Char) : Option Nat :=
  if '0' ≤ c ∧ c ≤ '9' then some (c.toNat - '0'.toNat) else none

def digitsFrom (base value : Nat) : List Nat → Nat
  | [] => value
  | digit :: rest => digitsFrom base (base * value + digit) rest

/-- The number that a nonempty run of decimal digits writes. -/
def toNat? (text : Text) : Option Nat :=
  if text.isEmpty then none
  else (text.mapM decimalDigit?).map (digitsFrom 10 0)

def beginningWith (typed : Text) (texts : List Text) : List Text :=
  texts.filter fun text => typed.isPrefixOf text

/-- Whether a text is another one or stands before it.  The first code points that differ decide,
as the first bytes that differ would. -/
def notAfter : Text → Text → Bool
  | [], _ => true
  | _ :: _, [] => false
  | c :: first, d :: second => if c = d then notAfter first second else c.toNat < d.toNat

def sorted (texts : List Text) : List Text :=
  texts.mergeSort notAfter

end Text

end SerialCompletion

namespace SerialCompletion.Text

/-!
## White space

The characters with the Unicode property `White_Space`.  They separate the
entries of a list word, and a program name made of them alone is no name.
-/

def isBlank (c : Char) : Bool :=
  ('\t' ≤ c && c ≤ '\r') || c == ' ' || c == '\u0085' || c == '\u00a0' || c == '\u1680' ||
    ('\u2000' ≤ c && c ≤ '\u200a') || c == '\u2028' || c == '\u2029' || c == '\u202f' ||
    c == '\u205f' || c == '\u3000'

end SerialCompletion.Text
