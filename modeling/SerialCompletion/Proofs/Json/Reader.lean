import SerialCompletion.Toml.Strings

/-!
# Reading JSON

A reader of JSON texts, which knows nothing of how they came about.  A text is
cut into tokens, character by character, and the tokens lead through the
arrays and objects that are still open.  Strings are decoded, pairs of escaped
code units included; a number stays as it is written.
-/

namespace SerialCompletion.Json

inductive Value where
  | null
  | boolean (flag : Bool)
  | number (numeral : Text)
  | text (content : Text)
  | array (items : List Value)
  | object (members : List (Text × Value))
  deriving Repr

/-! ## Strings -/

inductive Within where
  | plain
  | escape
  /-- Among the four digits of a code unit, with the value of those that stand in front.  A first
  half may wait for the code unit to make up a pair with it. -/
  | digits (first : Option Nat) (left value : Nat)
  | half (first : Nat)
  /-- Behind the first half of a pair and a backslash. -/
  | halfEscape (first : Nat)
  deriving DecidableEq, Repr

def namedChar? (c : Char) : Option Char :=
  if c = '"' ∨ c = '\\' ∨ c = '/' then some c
  else if c = 'b' then some '\x08'
  else if c = 'f' then some '\x0c'
  else if c = 'n' then some '\n'
  else if c = 'r' then some '\r'
  else if c = 't' then some '\t'
  else none

def contentOf? (code : Nat) : Option (Text × Within) :=
  (Toml.charOf? code).map fun c => ([c], .plain)

/-- The content that a code unit gives, alone or as the second half of a pair. -/
def codeUnit? (first : Option Nat) (unit : Nat) : Option (Text × Within) :=
  match first with
  | none => if 0xd800 ≤ unit ∧ unit < 0xdc00 then some ([], .half unit) else contentOf? unit
  | some first =>
      if 0xdc00 ≤ unit ∧ unit < 0xe000 then
        contentOf? (0x10000 + 0x400 * (first - 0xd800) + (unit - 0xdc00))
      else none

/-- The content that a character of a string gives, and where the next one stands. -/
def Within.next? (within : Within) (c : Char) : Option (Text × Within) :=
  match within with
  | .plain =>
      if c = '\\' then some ([], .escape) else if c < ' ' then none else some ([c], .plain)
  | .escape =>
      if c = 'u' then some ([], .digits none 4 0)
      else (namedChar? c).map fun meant => ([meant], .plain)
  | .digits first left value =>
      match Toml.hexValue? c with
      | none => none
      | some digit =>
          if 1 < left then some ([], .digits first (left - 1) (16 * value + digit))
          else codeUnit? first (16 * value + digit)
  | .half first => if c = '\\' then some ([], .halfEscape first) else none
  | .halfEscape first => if c = 'u' then some ([], .digits (some first) 4 0) else none

/-! ## Tokens -/

inductive Token where
  | mark (c : Char)
  | text (content : Text)
  | word (written : Text)
  deriving DecidableEq, Repr

def isSpace (c : Char) : Bool :=
  c == ' ' || c == '\t' || c == '\n' || c == '\r'

def isMark (c : Char) : Bool :=
  c == '[' || c == ']' || c == '\x7b' || c == '\x7d' || c == ',' || c == ':'

def isWordChar (c : Char) : Bool :=
  c.isAlphanum || c == '+' || c == '-' || c == '.'

/-- Where among the tokens the next character stands. -/
inductive Lexing where
  | between
  | word (front : Text)
  | string (within : Within) (front : Text)
  deriving DecidableEq, Repr

namespace Lexing

def afterOpening? (c : Char) : Option (List Token × Lexing) :=
  if isSpace c then some ([], .between)
  else if isMark c then some ([.mark c], .between)
  else if c = '"' then some ([], .string .plain [])
  else if isWordChar c then some ([], .word [c])
  else none

/-- The tokens that a character completes, and where the next one stands. -/
def next? (lexing : Lexing) (c : Char) : Option (List Token × Lexing) :=
  match lexing with
  | .between => afterOpening? c
  | .word front =>
      if isWordChar c then some ([], .word (front ++ [c]))
      else (afterOpening? c).map fun (tokens, next) => (.word front :: tokens, next)
  | .string within front =>
      if within = .plain ∧ c = '"' then some ([.text front], .between)
      else (within.next? c).map fun (content, next) => ([], .string next (front ++ content))

def finish? : Lexing → Option (List Token)
  | .between => some []
  | .word front => some [.word front]
  | .string _ _ => none

def tokens? (lexing : Lexing) : Text → Option (List Token)
  | [] => lexing.finish?
  | c :: rest =>
      match lexing.next? c with
      | none => none
      | some (tokens, next) => (next.tokens? rest).map (tokens ++ ·)

end Lexing

/-! ## Numbers and names -/

def behindDigits? (text : Text) : Option Text :=
  match text.span Char.isDigit with
  | ([], _) => none
  | (_ :: _, rest) => some rest

/-- The text behind the whole part of a number, in which nothing follows a leading zero. -/
def behindWhole? : Text → Option Text
  | '0' :: rest => some rest
  | text => behindDigits? text

def behindFraction? : Text → Option Text
  | '.' :: rest => behindDigits? rest
  | text => some text

def behindExponent? : Text → Option Text
  | [] => some []
  | c :: rest =>
      if c = 'e' ∨ c = 'E' then
        match rest with
        | '+' :: digits | '-' :: digits => behindDigits? digits
        | digits => behindDigits? digits
      else some (c :: rest)

def isNumeral (text : Text) : Bool :=
  let unsigned := if text.head? = some '-' then text.drop 1 else text
  ((behindWhole? unsigned).bind behindFraction?).bind behindExponent? == some []

def scalar? (word : Text) : Option Value :=
  if word = "null" then some .null
  else if word = "true" then some (.boolean true)
  else if word = "false" then some (.boolean false)
  else if isNumeral word then some (.number word)
  else none

/-! ## Values -/

/-- An array or an object that is open, behind some of what it holds. -/
inductive Frame where
  | items (read : List Value)
  | member (read : List (Text × Value)) (name : Text)
  deriving Repr

/-- What stands in front of the next token. -/
inductive Stage where
  /-- Nothing of the value that comes next. -/
  | value
  | name (read : List (Text × Value))
  /-- An object up to the name of a member. -/
  | colon (read : List (Text × Value)) (name : Text)
  /-- A whole value. -/
  | behind (found : Value)
  deriving Repr

structure Parsing where
  frames : List Frame
  stage : Stage
  deriving Repr

/-- Put a value into what is open around it, for a comma or the end of it. -/
def Frame.take? (outer : List Frame) (found : Value) (c : Char) : Frame → Option Parsing
  | .items read =>
      if c = ',' then some ⟨.items (read ++ [found]) :: outer, .value⟩
      else if c = ']' then some ⟨outer, .behind (.array (read ++ [found]))⟩
      else none
  | .member read name =>
      if c = ',' then some ⟨outer, .name (read ++ [(name, found)])⟩
      else if c = '\x7d' then some ⟨outer, .behind (.object (read ++ [(name, found)]))⟩
      else none

namespace Parsing

def start : Parsing := ⟨[], .value⟩

/-- Read a token where a value comes next, or the end of an array without items. -/
def nextValue? (frames : List Frame) : Token → Option Parsing
  | .mark '[' => some ⟨.items [] :: frames, .value⟩
  | .mark '\x7b' => some ⟨frames, .name []⟩
  | .mark ']' =>
      match frames with
      | .items [] :: outer => some ⟨outer, .behind (.array [])⟩
      | _ => none
  | .mark _ => none
  | .text content => some ⟨frames, .behind (.text content)⟩
  | .word written => (scalar? written).map fun found => ⟨frames, .behind found⟩

def next? (parsing : Parsing) (token : Token) : Option Parsing :=
  match parsing.stage, token with
  | .value, token => nextValue? parsing.frames token
  | .name [], .mark '\x7d' => some ⟨parsing.frames, .behind (.object [])⟩
  | .name read, .text name => some ⟨parsing.frames, .colon read name⟩
  | .colon read name, .mark ':' => some ⟨.member read name :: parsing.frames, .value⟩
  | .behind found, .mark c =>
      match parsing.frames with
      | [] => none
      | frame :: outer => frame.take? outer found c
  | _, _ => none

def result? : Parsing → Option Value
  | ⟨[], .behind found⟩ => some found
  | _ => none

def read? (parsing : Parsing) (text : Text) : Option Parsing :=
  (Lexing.between.tokens? text).bind fun tokens => tokens.foldlM next? parsing

end Parsing

def read? (text : Text) : Option Value :=
  (Parsing.start.read? text).bind Parsing.result?

/-! ## Parts of values -/

namespace Value

def boolean? : Value → Option Bool
  | .boolean flag => some flag
  | _ => none

def size? : Value → Option Nat
  | .number numeral => Text.toNat? numeral
  | _ => none

def text? : Value → Option Text
  | .text content => some content
  | _ => none

def texts? : Value → Option (List Text)
  | .array items => items.mapM text?
  | _ => none

def member? (name : Text) : Value → Option Value
  | .object members => members.lookup name
  | _ => none

end Value

end SerialCompletion.Json
