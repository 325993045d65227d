import SerialCompletion.Completion.Offer

/-!
# Reading arguments

Words are read from left to right at the level of the program and, behind the
name of a command, at the level of that command.  A known option is an option
wherever it stands; behind `--` every word is an operand.  The value of an
option is checked when the next option or operand begins or the words end.
-/

namespace SerialCompletion.CommandLine

/-!
## Invocations

What one call of the program asks for: options that hold for every command,
and at most one command with its own options.
-/

inductive Command where
  | complete (point : Option Nat) (format : Completion.Format) (line : Text)
  | split (point : Option Nat) (line : Text)
  | glue (shell : Text) (program : Option Text)
  /-- Try completion in a line editor. -/
  | interactive
  | settings (display check : Bool)
  | version
  deriving DecidableEq, Repr

structure Invocation where
  settingsFile : Option Text
  quiet : Bool
  verbose : Bool
  veryVerbose : Bool
  /-- What to do; the line editor without it. -/
  command : Option Command
  deriving DecidableEq, Repr

/-- Why no invocation came about. -/
inductive Refusal where
  | missingArgument
  | unknownArgument
  | badNumber
  | invalidValue
  | conflict
  | tooManyValues
  | unknownCommand
  | helpRequested
  | versionRequested
  deriving DecidableEq, Repr

/-!
## Options and operands of the program

The program itself and each of its commands take options and at most one
operand.  The options of the program hold for its commands too, except the
one that asks for the version.
-/

inductive Setting where
  | settingsFile
  | quiet
  | verbose
  | veryVerbose
  | help
  | version
  | point
  | format
  | program
  | display
  | check
  deriving DecidableEq, Repr

structure OptionRule where
  setting : Setting
  long : Text
  short : Option Char
  takesValue : Bool
  deriving DecidableEq, Repr

inductive CommandName where
  | complete
  | split
  | glue
  | interactive
  | settings
  | version
  deriving DecidableEq, Repr

/-- What may stand behind the program name or behind a command. -/
structure Level where
  options : List OptionRule
  takesOperand : Bool
  /-- Whether the operand may look like an option that is not known. -/
  operandMayDash : Bool
  takesCommand : Bool
  deriving DecidableEq, Repr

def commonOptions : List OptionRule :=
  [⟨.settingsFile, "config", some 'c', true⟩,
    ⟨.quiet, "quiet", some 'q', false⟩,
    ⟨.verbose, "verbose", some 'v', false⟩,
    ⟨.veryVerbose, "vv", none, false⟩,
    ⟨.help, "help", some 'h', false⟩]

def pointOption : OptionRule := ⟨.point, "point", none, true⟩

def Level.program : Level where
  options := commonOptions ++ [⟨.version, "version", some 'V', false⟩]
  takesOperand := false
  operandMayDash := false
  takesCommand := true

def Level.ofOptions (own : List OptionRule) : Level where
  options := commonOptions ++ own
  takesOperand := false
  operandMayDash := false
  takesCommand := false

def Level.ofLine (own : List OptionRule) : Level :=
  { Level.ofOptions own with takesOperand := true, operandMayDash := true }

namespace CommandName

def word : CommandName → Text
  | .complete => "complete"
  | .split => "split"
  | .glue => "init"
  | .interactive => "try"
  | .settings => "config"
  | .version => "version"

def all : List CommandName := [.complete, .split, .glue, .interactive, .settings, .version]

def ofWord? (text : Text) : Option CommandName :=
  all.find? fun command => command.word == text

def level : CommandName → Level
  | .complete => .ofLine [pointOption, ⟨.format, "format", none, true⟩]
  | .split => .ofLine [pointOption]
  | .glue => { Level.ofOptions [⟨.program, "command", none, true⟩] with takesOperand := true }
  | .settings =>
      .ofOptions [⟨.display, "show", none, false⟩, ⟨.check, "validate", none, false⟩]
  | .interactive | .version => .ofOptions []

end CommandName

def helpWord : Text := "help"

namespace Level

def long? (level : Level) (name : Text) : Option OptionRule :=
  level.options.find? fun rule => rule.long == name

def short? (level : Level) (letter : Char) : Option OptionRule :=
  level.options.find? fun rule => rule.short == some letter

end Level

/-! ## Words -/

/-- What the words of one level have given so far. -/
structure Given where
  /-- The options with their checked values, in order. -/
  values : List (Setting × Text)
  operand : Option Text
  /-- An option whose value is not checked yet, with the value if it has come. -/
  waiting : Option (OptionRule × Option Text)
  /-- Whether all further words are operands. -/
  operandsOnly : Bool
  deriving DecidableEq, Repr

/-- The byte offset that a word writes: decimal digits, with a plus sign or without. -/
def offset? (word : Text) : Option Nat :=
  let digits := if word.head? = some '+' then word.tail else word
  (Text.toNat? digits).filter (· < UInt64.size)

def format? (word : Text) : Option Completion.Format :=
  if word = "bash".toList then some .bash
  else if word = "json".toList then some .json
  else if word = "plain".toList then some .plain
  else none

def Setting.refusal? (setting : Setting) (value : Text) : Option Refusal :=
  match setting with
  | .settingsFile => if value.isEmpty then some .invalidValue else none
  | .point => if (offset? value).isNone then some .badNumber else none
  | .format => if (format? value).isNone then some .invalidValue else none
  | _ => none

namespace Given

def nothing : Given := ⟨[], none, none, false⟩

def has (given : Given) (setting : Setting) : Bool :=
  given.values.any fun entry => entry.1 == setting

def value? (given : Given) (setting : Setting) : Option Text :=
  (given.values.find? fun entry => entry.1 == setting).map Prod.snd

def expectsValue (given : Given) : Bool :=
  match given.waiting with
  | some (_, none) => true
  | _ => false

def add (given : Given) (setting : Setting) (value : Text) : Except Refusal Given :=
  if given.has setting then .error .conflict
  else
    match setting.refusal? value with
    | some refusal => .error refusal
    | none => .ok { given with values := given.values ++ [(setting, value)] }

/-- Check the option that waits. -/
def settle (given : Given) : Except Refusal Given :=
  match given.waiting with
  | none => .ok given
  | some (_, none) => .error .invalidValue
  | some (rule, some value) => add { given with waiting := none } rule.setting value

def readOption (given : Given) (rule : OptionRule) (attached : Option Text) :
    Except Refusal Given :=
  match rule.takesValue, attached with
  | true, some value => do (← given.settle).add rule.setting value
  | true, none => return { ← given.settle with waiting := some (rule, none) }
  | false, some _ => throw .tooManyValues
  | false, none => do
      let given ← given.settle
      match rule.setting with
      | .help => throw .helpRequested
      | .version => throw .versionRequested
      | setting => given.add setting []

/-- Read the letters behind one dash. -/
def readLetters (level : Level) (given : Given) : Text → Except Refusal Given
  | [] => .ok given
  | letter :: rest =>
      match level.short? letter with
      | none => .error .unknownArgument
      | some rule =>
          if rule.takesValue then
            given.readOption rule <|
              if rest.isEmpty then none
              else some (if rest.head? = some '=' then rest.tail else rest)
          else do readLetters level (← given.readOption rule none) rest

def isOpen (level : Level) (given : Given) : Bool :=
  level.takesOperand && given.operand.isNone

def strayWord (level : Level) (given : Given) (word : Text) : Refusal :=
  if !level.takesCommand then .unknownArgument
  else if given.operandsOnly && ((CommandName.ofWord? word).isSome || word == helpWord) then
    .unknownArgument
  else .unknownCommand

def readOperand (level : Level) (given : Given) (word : Text) : Except Refusal Given :=
  if isOpen level given then return { ← given.settle with operand := some word }
  else throw (strayWord level given word)

/-- Read a word that is no option: the value of the option before it, or an operand. -/
def readPlain (level : Level) (given : Given) (word : Text) : Except Refusal Given :=
  match given.waiting with
  | some (rule, none) => .ok { given with waiting := some (rule, some word) }
  | _ => given.readOperand level word

def mayDash (level : Level) (given : Given) : Bool :=
  level.operandMayDash && given.isOpen level

/-- Read a word behind which the level stays the same. -/
def readWord (level : Level) (given : Given) (word : Text) : Except Refusal Given :=
  if given.operandsOnly then given.readOperand level word
  else
    match word with
    | ['-', '-'] => .ok { given with operandsOnly := true }
    | '-' :: '-' :: name =>
        let (long, attached) := name.span (· != '=')
        match level.long? long with
        | some rule =>
            given.readOption rule (if attached.isEmpty then none else some attached.tail)
        | none =>
            if given.mayDash level then given.readPlain level word else .error .unknownArgument
    | '-' :: letter :: letters =>
        if given.mayDash level && (letter :: letters).any fun c => (level.short? c).isNone then
          given.readPlain level word
        else given.readLetters level (letter :: letters)
    | _ => given.readPlain level word

/-- The refusal that a request for help on some words comes to. -/
def helpOn : List Text → Refusal
  | [] => .helpRequested
  | [word] =>
      if (CommandName.ofWord? word).isSome || word == helpWord then .helpRequested
      else .unknownCommand
  | _ :: _ :: _ => .unknownCommand

/-- Read words up to their end, or up to the name of a command and the words behind it. -/
def readWords (level : Level) (given : Given) :
    List Text → Except Refusal (Given × Option (CommandName × List Text))
  | [] => .ok (given, none)
  | word :: rest =>
      if level.takesCommand && !given.operandsOnly && !given.expectsValue then
        match CommandName.ofWord? word with
        | some command => .ok (given, some (command, rest))
        | none =>
            if word == helpWord then .error (helpOn rest)
            else do readWords level (← given.readWord level word) rest
      else do readWords level (← given.readWord level word) rest

end Given

def Command.ofGiven (name : CommandName) (given : Given) : Except Refusal Command :=
  match name, given.operand with
  | .complete, some line =>
      .ok (.complete ((given.value? .point).bind offset?)
        (((given.value? .format).bind format?).getD .bash) line)
  | .split, some line => .ok (.split ((given.value? .point).bind offset?) line)
  | .glue, some shell => .ok (.glue shell (given.value? .program))
  | .complete, none | .split, none | .glue, none => .error .missingArgument
  | .interactive, _ => .ok .interactive
  | .settings, _ => .ok (.settings (given.has .display) (given.has .check))
  | .version, _ => .ok .version

def Invocation.ofGiven (outer inner : Given) (command : Option Command) : Invocation where
  settingsFile := inner.value? .settingsFile <|> outer.value? .settingsFile
  quiet := outer.has .quiet || inner.has .quiet
  verbose := outer.has .verbose || inner.has .verbose
  veryVerbose := outer.has .veryVerbose || inner.has .veryVerbose
  command := command

def Invocation.ofWords (words : List Text) : Except Refusal Invocation := do
  match ← Given.nothing.readWords Level.program words with
  | (outer, none) => return ofGiven (← outer.settle) Given.nothing none
  | (outer, some (name, rest)) =>
      let (inner, _) ← Given.nothing.readWords name.level rest
      let inner ← inner.settle
      let command ← Command.ofGiven name inner
      return ofGiven (← outer.settle) inner (some command)

end SerialCompletion.CommandLine
