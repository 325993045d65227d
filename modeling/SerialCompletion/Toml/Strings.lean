import SerialCompletion.Text.Basic
import SerialCompletion.Toml.Value

/-!
# TOML strings

A string has four forms: basic or literal, on one line or on several.  Only
the basic forms know escapes.  Every text is read back from the form in which
it is written.
-/

namespace SerialCompletion.Toml

/-!
## Reading

Each reader starts behind the opening quotes and gives the content and the
text behind the closing quotes.
-/

/-- What a reader gives: a result and the text that it left. -/
abbrev Read (α : Type) := Except Fault (α × Text)

def Read.cons (c : Char) (read : Read Text) : Read Text :=
  read.map fun (content, rest) => (c :: content, rest)

/-- Whether a character is a control character other than the tab. -/
def isControl (c : Char) : Bool :=
  (c < ' ' && c != '\t') || c == '\x7f'

def hexValue? (c : Char) : Option Nat :=
  if '0' ≤ c ∧ c ≤ '9' then some (c.toNat - '0'.toNat)
  else if 'a' ≤ c ∧ c ≤ 'f' then some (c.toNat - 'a'.toNat + 10)
  else if 'A' ≤ c ∧ c ≤ 'F' then some (c.toNat - 'A'.toNat + 10)
  else none

/-- The character with a number, if there is one. -/
def charOf? (number : Nat) : Option Char :=
  if number < 0xd800 ∨ (0xdfff < number ∧ number < 0x110000) then some (Char.ofNat number)
  else none

inductive Escape where
  | char (c : Char)
  | digits (count : Nat)
  deriving DecidableEq, Repr

def escape? (c : Char) : Option Escape :=
  if c = 'b' then some (.char '\x08')
  else if c = 't' then some (.char '\t')
  else if c = 'n' then some (.char '\n')
  else if c = 'f' then some (.char '\x0c')
  else if c = 'r' then some (.char '\r')
  else if c = 'e' then some (.char '\x1b')
  else if c = '"' then some (.char '"')
  else if c = '\\' then some (.char '\\')
  else if c = 'x' then some (.digits 2)
  else if c = 'u' then some (.digits 4)
  else if c = 'U' then some (.digits 8)
  else none

/-- Where inside a basic string the next character stands. -/
inductive Within where
  | plain
  | escape
  /-- Among the digits of an escape, with the number that they have written so far. -/
  | digits (left value : Nat)
  /-- Behind a backslash and blanks, before the end of the line. -/
  | lineEnd
  /-- Behind a line that a backslash ended, before the next visible character. -/
  | margin
  deriving DecidableEq, Repr

/-- The end of a string on several lines: up to two more quotes belong to its content. -/
def closing (quote : Char) (rest : Text) : Text × Text :=
  let extra := (rest.take 2).takeWhile (· == quote)
  (extra, rest.drop extra.length)

/--
The last of the content and the rest of the text, where the next character
closes a string on one line or on several.
-/
def close? (lines : Bool) (quote c : Char) (rest : Text) : Option (Text × Text) :=
  if c ≠ quote then none
  else if !lines then some ([], rest)
  else if rest.take 2 = [quote, quote] then some (closing quote (rest.drop 2))
  else none

def isReturn (c : Char) (rest : Text) : Bool :=
  c == '\r' && rest.head? == some '\n'

/-- Whether a character may stand in a string, given the text behind it. -/
def isAllowed (lines : Bool) (c : Char) (rest : Text) : Bool :=
  !isControl c || (lines && (c == '\n' || isReturn c rest))

/-- Whether a character is a blank, or the first of the two that end a line. -/
def isLineBlank (c : Char) (rest : Text) : Bool :=
  c == ' ' || c == '\t' || isReturn c rest

def basicBody (lines : Bool) : Within → Text → Read Text
  | _, [] => .error .unexpectedEnd
  | .plain, c :: rest =>
      match close? lines '"' c rest with
      | some ending => .ok ending
      | none =>
          if c = '\\' then basicBody lines .escape rest
          else if isAllowed lines c rest then Read.cons c (basicBody lines .plain rest)
          else .error (.unexpected c)
  | .escape, c :: rest =>
      match escape? c with
      | some (.char meant) => Read.cons meant (basicBody lines .plain rest)
      | some (.digits count) => basicBody lines (.digits count 0) rest
      | none =>
          if lines && c == '\n' then basicBody lines .margin rest
          else if lines && isLineBlank c rest then basicBody lines .lineEnd rest
          else .error .badEscape
  | .digits left value, c :: rest =>
      match hexValue? c with
      | none => .error .badEscape
      | some digit =>
          if 1 < left then basicBody lines (.digits (left - 1) (16 * value + digit)) rest
          else
            match charOf? (16 * value + digit) with
            | none => .error .badEscape
            | some meant => Read.cons meant (basicBody lines .plain rest)
  | .lineEnd, c :: rest =>
      if c = '\n' then basicBody lines .margin rest
      else if isLineBlank c rest then basicBody lines .lineEnd rest
      else .error .badEscape
  | .margin, c :: rest =>
      if c = '\n' ∨ isLineBlank c rest then basicBody lines .margin rest
      else
        match close? lines '"' c rest with
        | some ending => .ok ending
        | none =>
            if c = '\\' then basicBody lines .escape rest
            else if isAllowed lines c rest then Read.cons c (basicBody lines .plain rest)
            else .error (.unexpected c)

def literalBody (lines : Bool) : Text → Read Text
  | [] => .error .unexpectedEnd
  | c :: rest =>
      match close? lines '\'' c rest with
      | some ending => .ok ending
      | none =>
          if isAllowed lines c rest then Read.cons c (literalBody lines rest)
          else .error (.unexpected c)

/-- Drop the line end right behind the opening quotes of a string on several lines. -/
def dropFirstLineEnd : Text → Text
  | '\n' :: rest => rest
  | '\r' :: '\n' :: rest => rest
  | text => text

def quotedString : Text → Read Text
  | '"' :: '"' :: '"' :: rest => basicBody true .plain (dropFirstLineEnd rest)
  | '"' :: rest => basicBody false .plain rest
  | '\'' :: '\'' :: '\'' :: rest => literalBody true (dropFirstLineEnd rest)
  | '\'' :: rest => literalBody false rest
  | c :: _ => .error (.unexpected c)
  | [] => .error .unexpectedEnd

/-!
## Writing

A string is written in the first form that needs no escapes but tabs: between
double quotes, between single quotes, on several lines between double quotes,
on several lines between single quotes.  A string that fits none of them is
written between double quotes with escapes, on several lines if it has a line
feed.  A line feed follows the opening quotes of the forms on several lines
when the string has one itself.
-/

def needsEscape (c : Char) : Bool :=
  (c < ' ' && c != '\t' && c != '\n') || c == '\x7f'

/-- The length of the longest run of a character, the first run continuing one. -/
def longestRun (mark : Char) (run : Nat) : Text → Nat
  | [] => run
  | c :: rest =>
      if c = mark then longestRun mark (run + 1) rest else max run (longestRun mark 0 rest)

inductive StringForm where
  | basic
  | literal
  | basicLines
  | literalLines
  deriving DecidableEq, Repr

namespace StringForm

def ofText (text : Text) : StringForm :=
  let controls := text.any needsEscape
  let lineFeeds := text.contains '\n'
  let backslashes := text.contains '\\'
  let doubleQuotes := longestRun '"' 0 text
  let singleQuotes := longestRun '\'' 0 text
  if !controls && !backslashes && !lineFeeds && doubleQuotes == 0 then .basic
  else if !controls && !lineFeeds && singleQuotes == 0 then .literal
  else if !controls && !backslashes && doubleQuotes ≤ 2 then .basicLines
  else if !controls && singleQuotes ≤ 2 then .literalLines
  else if lineFeeds then .basicLines
  else .basic

def quotes : StringForm → Text
  | .basic => ['"']
  | .literal => ['\'']
  | .basicLines => ['"', '"', '"']
  | .literalLines => ['\'', '\'', '\'']

def onLines : StringForm → Bool
  | .basic | .literal => false
  | .basicLines | .literalLines => true

end StringForm

def basicChar (c : Char) : Text :=
  if c = '\x08' then ['\\', 'b']
  else if c = '\t' then ['\\', 't']
  else if c = '\n' then ['\\', 'n']
  else if c = '\x0c' then ['\\', 'f']
  else if c = '\r' then ['\\', 'r']
  else if c = '\\' then ['\\', '\\']
  else if c < ' ' ∨ c = '\x7f' then
    ['\\', 'u', '0', '0', (Nat.digitChar (c.toNat / 16)).toUpper,
      (Nat.digitChar (c.toNat % 16)).toUpper]
  else [c]

/--
The content of a basic string behind some quotes.  On one line every quote is
escaped, on several lines the third in a row.
-/
def basicContent (lines : Bool) (quotes : Nat) : Text → Text
  | [] => []
  | c :: rest =>
      if c = '"' then
        if lines ∧ quotes < 2 then c :: basicContent lines (quotes + 1) rest
        else '\\' :: c :: basicContent lines 0 rest
      else if lines ∧ c = '\n' then c :: basicContent lines 0 rest
      else basicChar c ++ basicContent lines 0 rest

def StringForm.content (form : StringForm) (text : Text) : Text :=
  match form with
  | .basic => basicContent false 0 text
  | .basicLines => basicContent true 0 text
  | .literal | .literalLines => text

def writeString (text : Text) : Text :=
  let form := StringForm.ofText text
  let opening : Text := if form.onLines && text.contains '\n' then ['\n'] else []
  form.quotes ++ opening ++ form.content text ++ form.quotes

end SerialCompletion.Toml
