import SerialCompletion.Toml.Strings

/-!
# Reading TOML documents

A document is read line by line into statements, and the statements build
its tables.  Values nest at most eighty deep.  The readers of nested values
count down a bound on their steps that is taken from the length of the text,
so the bound is never met.
-/

namespace SerialCompletion.Toml

/-! ## Digits -/

def digitIn? (base : Nat) (c : Char) : Option Nat :=
  (hexValue? c).filter (· < base)

/-- The digits of a number in which single underscores may stand between digits. -/
def groupedDigits? (base : Nat) (text : Text) : Option (List Nat) := do
  let groups := text.splitOnP (· == '_')
  guard (groups.all fun group => !group.isEmpty)
  groups.flatten.mapM (digitIn? base)

def grouped? (base : Nat) (text : Text) : Option Nat :=
  (groupedDigits? base text).map (Text.digitsFrom base 0)

/-- A decimal number, which starts with a zero only if it is zero. -/
def decimal? (text : Text) : Option Nat :=
  if text.head? = some '0' ∧ text ≠ ['0'] then none else grouped? 10 text

def signed (text : Text) : Bool × Text :=
  match text with
  | '-' :: rest => (true, rest)
  | '+' :: rest => (false, rest)
  | _ => (false, text)

/-! ## Integers -/

/-- An integer: signed decimal, or unsigned in one of the bases 16, 8 and 2. -/
def integer? (lexeme : Text) : Option Int :=
  match lexeme with
  | '0' :: 'x' :: digits => (grouped? 16 digits).map Int.ofNat
  | '0' :: 'o' :: digits => (grouped? 8 digits).map Int.ofNat
  | '0' :: 'b' :: digits => (grouped? 2 digits).map Int.ofNat
  | _ =>
      let (negative, digits) := signed lexeme
      (decimal? digits).map fun number => if negative then -Int.ofNat number else Int.ofNat number

/-- Whether an integer fits into 128 bits, signed or not. -/
def isSized (number : Int) : Bool :=
  match number with
  | .ofNat magnitude => magnitude < Nat.pow 2 128
  | .negSucc magnitude => magnitude < Nat.pow 2 127

/-! ## Floats -/

/-- A number in decimal notation: its digits, and the power of ten that they count. -/
structure Decimal where
  digits : Nat
  /-- How many digits there are without leading zeros. -/
  width : Nat
  power : Int

def exponent? (text : Text) : Option Int :=
  let (negative, digits) := signed text
  (grouped? 10 digits).map fun number => if negative then -Int.ofNat number else Int.ofNat number

/-- A finite float without its sign: a decimal number with a fraction, an exponent or both. -/
def finiteFloat? (text : Text) : Option Decimal := do
  let (mantissa, tail) := text.span fun c => c != 'e' && c != 'E'
  let (whole, fraction) := mantissa.span (· != '.')
  guard (!(tail.isEmpty && fraction.isEmpty))
  let _ ← decimal? whole
  let wholeDigits ← groupedDigits? 10 whole
  let fractionDigits ← if fraction.isEmpty then some [] else groupedDigits? 10 fraction.tail
  let power ← if tail.isEmpty then some 0 else exponent? tail.tail
  let digits := (wholeDigits ++ fractionDigits).dropWhile (· == 0)
  return ⟨Text.digitsFrom 10 0 digits, digits.length, power - fractionDigits.length⟩

/-- Whether a decimal number lies within the finite doubles after rounding. -/
def Decimal.isFinite (number : Decimal) : Bool :=
  let magnitude := number.power + number.width
  if number.digits = 0 ∨ magnitude < 309 then true
  else if 309 < magnitude then false
  else
    number.digits * Nat.pow 10 number.power.toNat <
      (Nat.pow 2 1024 - Nat.pow 2 970) * Nat.pow 10 (-number.power).toNat

/-- Whether a lexeme is an infinity or no number, with or without a sign. -/
def isSpecialFloat (lexeme : Text) : Bool :=
  let (_, name) := signed lexeme
  name == ['i', 'n', 'f'] || name == ['n', 'a', 'n']

/-! ## Moments -/

def twoDigits? (first second : Char) : Option Nat :=
  grouped? 10 [first, second]

def daysIn (year month : Nat) : Nat :=
  if month = 2 then
    if year % 4 = 0 ∧ (year % 100 ≠ 0 ∨ year % 400 = 0) then 29 else 28
  else if month = 4 ∨ month = 6 ∨ month = 9 ∨ month = 11 then 30
  else 31

def date? : Text → Option Text
  | y₁ :: y₂ :: y₃ :: y₄ :: '-' :: m₁ :: m₂ :: '-' :: d₁ :: d₂ :: rest => do
      let century ← twoDigits? y₁ y₂
      let year ← twoDigits? y₃ y₄
      let month ← twoDigits? m₁ m₂
      let day ← twoDigits? d₁ d₂
      guard (1 ≤ month ∧ month ≤ 12 ∧ 1 ≤ day ∧ day ≤ daysIn (100 * century + year) month)
      return rest
  | _ => none

def fraction? : Text → Option Text
  | '.' :: rest => do
      guard ((rest.head?.bind (digitIn? 10)).isSome)
      return rest.dropWhile fun c => (digitIn? 10 c).isSome
  | text => some text

def seconds? : Text → Option Text
  | ':' :: s₁ :: s₂ :: rest => do
      guard ((← twoDigits? s₁ s₂) ≤ 60)
      fraction? rest
  | text => some text

def time? : Text → Option Text
  | h₁ :: h₂ :: ':' :: m₁ :: m₂ :: rest => do
      guard ((← twoDigits? h₁ h₂) ≤ 23)
      guard ((← twoDigits? m₁ m₂) ≤ 59)
      seconds? rest
  | _ => none

/-- Whether a text is the distance from universal time, or empty. -/
def isOffset : Text → Bool
  | [] | ['Z'] | ['z'] => true
  | [sign, h₁, h₂, ':', m₁, m₂] =>
      (sign == '+' || sign == '-') &&
        (twoDigits? h₁ h₂).any (· ≤ 23) && (twoDigits? m₁ m₂).any (· ≤ 59)
  | _ => false

def isMomentBreak (c : Char) : Bool :=
  c == 'T' || c == 't' || c == ' '

/-- Whether a lexeme is a date, a time, or a date with a time. -/
def isMoment (lexeme : Text) : Bool :=
  match date? lexeme with
  | some [] => true
  | some (c :: rest) => isMomentBreak c && (time? rest).any isOffset
  | none => time? lexeme == some []

/-! ## Lexemes -/

def isScalarChar (c : Char) : Bool :=
  c.isAlphanum || c == '+' || c == '-' || c == '_' || c == '.' || c == ':'

/-- The lexeme in front of a text: a time may stand behind a date and one space. -/
def lexeme (text : Text) : Text × Text :=
  match text.span isScalarChar with
  | (first, ' ' :: c :: rest) =>
      if date? first = some [] ∧ (digitIn? 10 c).isSome then
        let (second, behind) := (c :: rest).span isScalarChar
        (first ++ [' '] ++ second, behind)
      else (first, ' ' :: c :: rest)
  | parts => parts

def scalarOf (lexeme : Text) : Except Fault Value :=
  if lexeme = "true".toList then .ok (.boolean true)
  else if lexeme = "false".toList then .ok (.boolean false)
  else
    match integer? lexeme, finiteFloat? (signed lexeme).2 with
    | some number, _ =>
        if isSized number then .ok (.integer number) else .error (.outOfRange lexeme)
    | none, some number =>
        if number.isFinite then .ok (.float lexeme) else .error (.outOfRange lexeme)
    | none, none =>
        if isSpecialFloat lexeme then .ok (.float lexeme)
        else if isMoment lexeme then .ok (.moment lexeme)
        else .error (.badScalar lexeme)

def scalar (text : Text) : Read Value :=
  match lexeme text, text with
  | ([], _), [] => .error .unexpectedEnd
  | ([], _), c :: _ => .error (.unexpected c)
  | (found, rest), _ => (scalarOf found).map (·, rest)

/-! ## Blanks, comments and line ends -/

def skipBlanks (text : Text) : Text :=
  text.dropWhile fun c => c == ' ' || c == '\t'

/-- The text behind blanks, comments and line ends; the flag tells that a comment is open. -/
def skipFiller (comment : Bool) : Text → Except Fault Text
  | [] => .ok []
  | c :: rest =>
      if c = '\n' then skipFiller false rest
      else if isReturn c rest then skipFiller false rest
      else if comment then
        if isControl c then .error (.unexpected c) else skipFiller true rest
      else if c = ' ' ∨ c = '\t' then skipFiller false rest
      else if c = '#' then skipFiller true rest
      else .ok (c :: rest)

/-- The text of a comment checked, and what follows it from the end of its line. -/
def skipComment : Text → Except Fault Text
  | [] => .ok []
  | c :: rest =>
      if c = '\n' ∨ isReturn c rest then .ok (c :: rest)
      else if isControl c then .error (.unexpected c)
      else skipComment rest

/-- The text behind the end of a line, which a comment may precede. -/
def lineEnd (text : Text) : Except Fault Text := do
  let behind ← match skipBlanks text with
    | '#' :: rest => skipComment rest
    | rest => .ok rest
  match behind with
  | [] => return []
  | '\n' :: rest => return rest
  | '\r' :: '\n' :: rest => return rest
  | c :: _ => throw (.unexpected c)

def expect (c : Char) : Text → Except Fault Text
  | [] => .error .unexpectedEnd
  | found :: rest => if found = c then .ok rest else .error (.unexpected found)

/-! ## Keys -/

def isKeyChar (c : Char) : Bool :=
  c.isAlphanum || c == '_' || c == '-'

/-- One key, bare or quoted on one line. -/
def simpleKey (text : Text) : Except Fault (Text × Text) :=
  match text with
  | '"' :: rest => basicBody false .plain rest
  | '\'' :: rest => literalBody false rest
  | _ =>
      match text.span isKeyChar, text with
      | ([], _), [] => .error .unexpectedEnd
      | ([], _), c :: _ => .error (.unexpected c)
      | (key, rest), _ => .ok (key, rest)

def dottedKey (bound : Nat) (text : Text) : Except Fault (List Text × Text) :=
  match bound with
  | 0 => .error .unexpectedEnd
  | bound + 1 => do
      let (key, behind) ← simpleKey (skipBlanks text)
      match skipBlanks behind with
      | '.' :: rest =>
          let (keys, rest) ← dottedKey bound rest
          return (key :: keys, rest)
      | rest => return ([key], rest)

/-! ## Values -/

/-- How deeply arrays and inline tables may nest. -/
def deepestNesting : Nat := 80

mutual

def value (bound depth : Nat) (text : Text) : Except Fault (Value × Text) :=
  match bound with
  | 0 => .error .unexpectedEnd
  | bound + 1 =>
      match text with
      | '[' :: rest =>
          match depth with
          | 0 => .error .nestedTooDeeply
          | depth + 1 => (items bound depth rest).map fun (found, rest) => (.array found, rest)
      | '{' :: rest =>
          match depth with
          | 0 => .error .nestedTooDeeply
          | depth + 1 =>
              (members bound depth [] rest).map fun (found, rest) => (.table .inline found, rest)
      | '"' :: _ | '\'' :: _ =>
          (quotedString text).map fun (content, rest) => (.text content, rest)
      | _ => scalar text

def items (bound depth : Nat) (text : Text) : Except Fault (List Value × Text) :=
  match bound with
  | 0 => .error .unexpectedEnd
  | bound + 1 => do
      match ← skipFiller false text with
      | ']' :: rest => return ([], rest)
      | start =>
          let (item, behind) ← value bound depth start
          match ← skipFiller false behind with
          | ',' :: rest =>
              let (others, rest) ← items bound depth rest
              return (item :: others, rest)
          | rest => return ([item], ← expect ']' rest)

def members (bound depth : Nat) (entries : Entries) (text : Text) : Except Fault (Entries × Text) :=
  match bound with
  | 0 => .error .unexpectedEnd
  | bound + 1 => do
      match ← skipFiller false text with
      | '}' :: rest => return (entries, rest)
      | start =>
          let (keys, behind) ← dottedKey (start.length + 1) start
          let (found, behind) ← value bound depth (skipBlanks (← expect '=' behind))
          let extended ← entries.insert found keys
          match ← skipFiller false behind with
          | ',' :: rest => members bound depth extended rest
          | rest => return (extended, ← expect '}' rest)

end

def topValue (text : Text) : Except Fault (Value × Text) :=
  value (2 * text.length + 2) deepestNesting text

/-! ## Statements -/

inductive Statement where
  | pair (keys : List Text) (value : Value)
  | header (keys : List Text)
  /-- A header in double brackets, which begins a further table under its name. -/
  | memberHeader (keys : List Text)
  deriving Repr

def headerKeys (text : Text) : Except Fault (List Text × Text) := do
  let (keys, rest) ← dottedKey (text.length + 1) text
  return (keys, ← expect ']' rest)

def statement (text : Text) : Except Fault (Statement × Text) :=
  match text with
  | '[' :: '[' :: rest => do
      let (keys, rest) ← headerKeys rest
      return (.memberHeader keys, ← expect ']' rest)
  | '[' :: rest => do
      let (keys, rest) ← headerKeys rest
      return (.header keys, rest)
  | _ => do
      let (keys, rest) ← dottedKey (text.length + 1) text
      let (found, rest) ← topValue (skipBlanks (← expect '=' rest))
      return (.pair keys found, rest)

def statements (bound : Nat) (text : Text) : Except Fault (List Statement) :=
  match bound with
  | 0 => .error .unexpectedEnd
  | bound + 1 => do
      match ← skipFiller false text with
      | [] => return []
      | start =>
          let (found, rest) ← statement start
          return found :: (← statements bound (← lineEnd rest))

/-! ## Documents -/

/-- The tables that some statements have built, and the header that further keys are under. -/
structure Building where
  root : Entries
  header : List Text

def Building.openTable (building : Building) (keys : List Text)
    (make : Text → Entries → Except Fault Entries) : Except Fault Building := do
  let root ← building.root.changeUnder (make (keys.getLast?.getD [])) keys.dropLast
  return ⟨root, keys⟩

def Building.add (building : Building) : Statement → Except Fault Building
  | .header keys => building.openTable keys Entries.defineTable
  | .memberHeader keys => building.openTable keys Entries.beginMember
  | .pair keys found => do
      let root ← building.root.changeUnder (fun entries => entries.insert found keys)
        building.header
      return { building with root }

def Entries.ofStatements (parsed : List Statement) : Except Fault Entries :=
  (parsed.foldlM Building.add ⟨[], []⟩).map Building.root

def skipMark : Text → Text
  | '\ufeff' :: rest => rest
  | text => text

def read (text : Text) : Except Fault Entries := do
  let start := skipMark text
  Entries.ofStatements (← statements (start.length + 1) start)

end SerialCompletion.Toml
