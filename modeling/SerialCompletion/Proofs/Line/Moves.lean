import SerialCompletion.Line.Scan

/-!
# Moves of the scan

The scans that a line can lead to, and everything that a move does to one of
them.  Outside quotes and expansions nothing is remembered; inside, a word
lies at the bottom of the enclosing modes and above it lie only modes that
other modes may be entered from.  Theorems about lines open the splitter here
and argue from the cases of `Scan.Moves`.
-/

namespace SerialCompletion.Line

def Mode.nests : Mode → Bool
  | .doubleQuote | .parenExpansion | .braceExpansion => true
  | .delimiter | .word | .singleQuote | .backtick => false

def Mode.allows : Mode → Pending → Bool
  | _, .nothing => true
  | mode, .escape => mode.escapes
  | mode, .dollar => mode.expands
  | mode, .separators => mode == .word

theorem isQuoteOpener_iff {c : Char} :
    isQuoteOpener c = true ↔ c = '\'' ∨ c = '"' ∨ c = '\x60' := by
  simp [isQuoteOpener, or_assoc]

theorem Mode.eq_of_ofBracket? {c : Char} {mode : Mode} (bracket : ofBracket? c = some mode) :
    c = '(' ∧ mode = .parenExpansion ∨ c = '{' ∧ mode = .braceExpansion := by
  unfold ofBracket? at bracket
  split at bracket
  case isTrue paren => exact .inl ⟨paren, (Option.some.inj bracket).symm⟩
  case isFalse =>
    split at bracket
    case isTrue brace => exact .inr ⟨brace, (Option.some.inj bracket).symm⟩
    case isFalse => cases bracket

/-- What is open holds no claim on a character: a dollar only when no bracket follows. -/
inductive Pending.Idle (c : Char) : Pending → Prop where
  | nothing : Pending.Idle c .nothing
  | dollar (follows : Mode.ofBracket? c = none) : Pending.Idle c .dollar

theorem Pending.Idle.ne_separators {c : Char} {pending : Pending} (idle : pending.Idle c) :
    pending ≠ .separators := by
  cases idle <;> exact Pending.noConfusion

theorem Pending.Idle.ne_escape {c : Char} {pending : Pending} (idle : pending.Idle c) :
    pending ≠ .escape := by
  cases idle <;> exact Pending.noConfusion

namespace Scan

inductive Enclosing : List Mode → Prop where
  | word : Enclosing [.word]
  | inner {mode : Mode} {outer : List Mode} (nests : mode.nests = true)
      (inside : Enclosing outer) : Enclosing (mode :: outer)

/-- The scans that a line can lead to. -/
inductive WellFormed : Scan → Prop where
  | between : WellFormed ⟨.delimiter, [], .nothing⟩
  | word (pending : Pending) : WellFormed ⟨.word, [], pending⟩
  | nested {mode : Mode} {enclosing : List Mode} {pending : Pending}
      (inside : mode.isTopLevel = false) (stack : Enclosing enclosing)
      (allowed : mode.allows pending = true) : WellFormed ⟨mode, enclosing, pending⟩

inductive Takes (mode : Mode) (enclosing : List Mode) (c : Char) : Scan → Prop where
  | escape (same : c = '\\') (escapes : mode.escapes = true) :
      Takes mode enclosing c ⟨mode, enclosing, .escape⟩
  | dollar (same : c = '$') (expands : mode.expands = true) :
      Takes mode enclosing c ⟨mode, enclosing, .dollar⟩
  | leave (closes : mode.closer? = some c) :
      Takes mode enclosing c (Scan.leave ⟨mode, enclosing, .nothing⟩)
  | enter (opens : mode.opensQuote c = true) :
      Takes mode enclosing c ⟨Mode.ofQuote c, mode :: enclosing, .nothing⟩
  | plain (noEscape : ¬ (c = '\\' ∧ mode.escapes = true)) (noDollar : ¬ (c = '$' ∧ mode.expands = true))
      (noCloser : mode.closer? ≠ some c) (noOpener : mode.opensQuote c = false) :
      Takes mode enclosing c ⟨mode, enclosing, .nothing⟩

theorem take_takes (mode : Mode) (enclosing : List Mode) (pending : Pending) (c : Char) :
    Takes mode enclosing c (Scan.take ⟨mode, enclosing, pending⟩ c) := by
  unfold Scan.take
  split
  case isTrue escape => exact .escape escape.1 escape.2
  case isFalse noEscape =>
    split
    case isTrue dollar => exact .dollar dollar.1 dollar.2
    case isFalse noDollar =>
      split
      case isTrue closes => exact .leave closes
      case isFalse noCloser =>
        split
        case isTrue opens => exact .enter opens
        case isFalse noOpener =>
          exact .plain noEscape noDollar noCloser (Bool.eq_false_iff.mpr noOpener)

/-- What was open before a character does not matter to the control after it. -/
theorem take_pending (mode : Mode) (enclosing : List Mode) (pending : Pending) (c : Char) :
    Scan.take ⟨mode, enclosing, pending⟩ c = Scan.take ⟨mode, enclosing, .nothing⟩ c :=
  rfl

/-- What the first character behind a gap does: whether it is kept, and the control after it. -/
inductive Begins (classes : Classes) (c : Char) : Bool → Scan → Prop where
  | delimiter (delimits : classes.isDelimiter c = true) : Begins classes c false start
  | separator (noDelimiter : classes.isDelimiter c = false) (separates : classes.isSeparator c = true) :
      Begins classes c true ⟨.word, [], .separators⟩
  | ordinary (noDelimiter : classes.isDelimiter c = false) (noSeparator : classes.isSeparator c = false) :
      Begins classes c true (Scan.take ⟨.word, [], .nothing⟩ c)

/-- Everything that a character can do to a well-formed scan. -/
inductive Moves (classes : Classes) (c : Char) : Scan → Move → Prop where
  | first {keeps : Bool} {next : Scan} (begins : Begins classes c keeps next) :
      Moves classes c start ⟨false, keeps, next⟩
  | escaped (mode : Mode) (enclosing : List Mode) :
      Moves classes c ⟨mode, enclosing, .escape⟩ ⟨false, true, ⟨mode, enclosing, .nothing⟩⟩
  | expands (mode : Mode) (enclosing : List Mode) {inner : Mode}
      (bracket : Mode.ofBracket? c = some inner) :
      Moves classes c ⟨mode, enclosing, .dollar⟩ ⟨false, true, ⟨inner, mode :: enclosing, .nothing⟩⟩
  /-- A character inside a quote or an expansion. -/
  | nested {mode : Mode} (enclosing : List Mode) {pending : Pending}
      (inside : mode.isTopLevel = false) (idle : pending.Idle c) :
      Moves classes c ⟨mode, enclosing, pending⟩ ⟨false, true, Scan.take ⟨mode, enclosing, .nothing⟩ c⟩
  | ordinary {pending : Pending} (idle : pending.Idle c)
      (noDelimiter : classes.isDelimiter c = false) (noSeparator : classes.isSeparator c = false) :
      Moves classes c ⟨.word, [], pending⟩ ⟨false, true, Scan.take ⟨.word, [], .nothing⟩ c⟩
  | run (separates : classes.isSeparator c = true) :
      Moves classes c ⟨.word, [], .separators⟩ ⟨false, true, ⟨.word, [], .separators⟩⟩
  /-- A character that ends a word, and then does what it does behind a gap. -/
  | ends {pending : Pending} {keeps : Bool} {next : Scan} (idle : pending.Idle c)
      (breaks : classes.isDelimiter c = true ∨ classes.isSeparator c = true)
      (begins : Begins classes c keeps next) :
      Moves classes c ⟨.word, [], pending⟩ ⟨true, keeps, next⟩
  /-- A character that ends a run of separators, and then does what it does behind a gap. -/
  | endsRun {keeps : Bool} {next : Scan} (noSeparator : classes.isSeparator c = false)
      (begins : Begins classes c keeps next) :
      Moves classes c ⟨.word, [], .separators⟩ ⟨true, keeps, next⟩

/-! ## The cases are complete -/

section Cases

variable {classes : Classes} {mode : Mode} {pending : Pending} {c : Char} {keeps : Bool} {next : Scan}

theorem exists_begins (classes : Classes) (c : Char) : ∃ keeps next, Begins classes c keeps next := by
  cases delimits : classes.isDelimiter c with
  | true => exact ⟨_, _, .delimiter delimits⟩
  | false =>
      cases separates : classes.isSeparator c with
      | true => exact ⟨_, _, .separator delimits separates⟩
      | false => exact ⟨_, _, .ordinary delimits separates⟩

theorem Begins.move (begins : Begins classes c keeps next) :
    start.move classes c = ⟨false, keeps, next⟩ := by
  cases begins with
  | delimiter delimits =>
      simp [Scan.move, start, plainMove, Mode.isTopLevel, topLevelMove, delimits]
  | separator noDelimiter separates =>
      simp [Scan.move, start, plainMove, Mode.isTopLevel, topLevelMove, noDelimiter, separates]
  | ordinary noDelimiter noSeparator =>
      simp [Scan.move, start, plainMove, Mode.isTopLevel, topLevelMove, noDelimiter, noSeparator]

theorem move_idle (scan : Scan) (idle : scan.pending.Idle c) :
    scan.move classes c = scan.plainMove classes c := by
  obtain ⟨mode, enclosing, pending⟩ := scan
  cases idle with
  | nothing => simp [Scan.move]
  | dollar follows => simp [Scan.move, follows]

theorem move_nested (enclosing : List Mode) (inside : mode.isTopLevel = false) (idle : pending.Idle c) :
    Scan.move classes ⟨mode, enclosing, pending⟩ c =
      ⟨false, true, Scan.take ⟨mode, enclosing, .nothing⟩ c⟩ := by
  rw [move_idle _ idle]
  simp [plainMove, inside, take_pending]

theorem move_expands (mode : Mode) (enclosing : List Mode) {inner : Mode}
    (bracket : Mode.ofBracket? c = some inner) :
    Scan.move classes ⟨mode, enclosing, .dollar⟩ c =
      ⟨false, true, ⟨inner, mode :: enclosing, .nothing⟩⟩ := by
  simp [Scan.move, bracket, Scan.enter]

theorem move_ordinary (idle : pending.Idle c) (noDelimiter : classes.isDelimiter c = false)
    (noSeparator : classes.isSeparator c = false) :
    Scan.move classes ⟨.word, [], pending⟩ c =
      ⟨false, true, Scan.take ⟨.word, [], .nothing⟩ c⟩ := by
  have noRun := idle.ne_separators
  rw [move_idle _ idle]
  simp [plainMove, Mode.isTopLevel, topLevelMove, noRun, noDelimiter, noSeparator, take_pending]

theorem move_ends (idle : pending.Idle c)
    (breaks : classes.isDelimiter c = true ∨ classes.isSeparator c = true)
    (begins : Begins classes c keeps next) :
    Scan.move classes ⟨.word, [], pending⟩ c = ⟨true, keeps, next⟩ := by
  have noRun := idle.ne_separators
  rw [move_idle _ idle]
  cases begins with
  | delimiter delimits => simp [plainMove, Mode.isTopLevel, topLevelMove, noRun, delimits]
  | separator noDelimiter separates =>
      simp [plainMove, Mode.isTopLevel, topLevelMove, noRun, noDelimiter, separates]
  | ordinary noDelimiter noSeparator => simp [noDelimiter, noSeparator] at breaks

theorem move_run (separates : classes.isSeparator c = true) :
    Scan.move classes ⟨.word, [], .separators⟩ c = ⟨false, true, ⟨.word, [], .separators⟩⟩ := by
  simp [Scan.move, plainMove, Mode.isTopLevel, topLevelMove, separates]

theorem move_endsRun (noSeparator : classes.isSeparator c = false)
    (begins : Begins classes c keeps next) :
    Scan.move classes ⟨.word, [], .separators⟩ c = ⟨true, keeps, next⟩ := by
  cases begins with
  | delimiter delimits =>
      simp [Scan.move, plainMove, Mode.isTopLevel, topLevelMove, noSeparator, delimits]
  | separator noDelimiter separates => rw [noSeparator] at separates; cases separates
  | ordinary noDelimiter _ =>
      simp [Scan.move, plainMove, Mode.isTopLevel, topLevelMove, noSeparator, noDelimiter, take_pending]

theorem moves_word (idle : pending.Idle c) :
    Moves classes c ⟨.word, [], pending⟩ (Scan.move classes ⟨.word, [], pending⟩ c) := by
  obtain ⟨keeps, next, begins⟩ := exists_begins classes c
  cases begins with
  | delimiter delimits =>
      rw [move_ends idle (.inl delimits) (.delimiter delimits)]
      exact .ends idle (.inl delimits) (.delimiter delimits)
  | separator noDelimiter separates =>
      rw [move_ends idle (.inr separates) (.separator noDelimiter separates)]
      exact .ends idle (.inr separates) (.separator noDelimiter separates)
  | ordinary noDelimiter noSeparator =>
      rw [move_ordinary idle noDelimiter noSeparator]
      exact .ordinary idle noDelimiter noSeparator

theorem moves_separators (classes : Classes) (c : Char) :
    Moves classes c ⟨.word, [], .separators⟩ (Scan.move classes ⟨.word, [], .separators⟩ c) := by
  cases separates : classes.isSeparator c with
  | true =>
      rw [move_run separates]
      exact .run separates
  | false =>
      obtain ⟨keeps, next, begins⟩ := exists_begins classes c
      rw [move_endsRun separates begins]
      exact .endsRun separates begins

end Cases

/-- The inversion of a move: a well-formed scan moves in one of the listed ways. -/
theorem WellFormed.moves {scan : Scan} (formed : scan.WellFormed) (classes : Classes) (c : Char) :
    Moves classes c scan (scan.move classes c) := by
  cases formed with
  | between =>
      obtain ⟨keeps, next, begins⟩ := exists_begins classes c
      change Moves classes c start (start.move classes c)
      rw [begins.move]
      exact .first begins
  | word pending =>
      cases pending with
      | nothing => exact moves_word .nothing
      | escape => exact .escaped _ _
      | separators => exact moves_separators classes c
      | dollar =>
          cases bracket : Mode.ofBracket? c with
          | none => exact moves_word (.dollar bracket)
          | some inner =>
              rw [move_expands _ _ bracket]
              exact .expands _ _ bracket
  | @nested mode enclosing pending inside stack allowed =>
      cases pending with
      | nothing =>
          rw [move_nested _ inside .nothing]
          exact .nested _ inside .nothing
      | escape => exact .escaped _ _
      | separators =>
          have same : mode = .word := by simpa [Mode.allows] using allowed
          rw [same] at inside
          cases inside
      | dollar =>
          cases bracket : Mode.ofBracket? c with
          | none =>
              rw [move_nested _ inside (.dollar bracket)]
              exact .nested _ inside (.dollar bracket)
          | some inner =>
              rw [move_expands _ _ bracket]
              exact .expands _ _ bracket

/-! ## Well-formed scans stay well-formed -/

section Modes

variable {mode : Mode} {c : Char}

theorem ne_delimiter_of_inside (inside : mode.isTopLevel = false) : mode ≠ .delimiter := by
  rintro rfl
  cases inside

theorem inside_of_nests (nests : mode.nests = true) : mode.isTopLevel = false := by
  cases mode with
  | doubleQuote | parenExpansion | braceExpansion => rfl
  | delimiter | word | singleQuote | backtick => cases nests

theorem ofQuote_inside (c : Char) : (Mode.ofQuote c).isTopLevel = false := by
  unfold Mode.ofQuote
  split
  · rfl
  · split <;> rfl

theorem ofBracket?_inside (bracket : Mode.ofBracket? c = some mode) : mode.isTopLevel = false := by
  rcases Mode.eq_of_ofBracket? bracket with ⟨-, rfl⟩ | ⟨-, rfl⟩ <;> rfl

theorem nests_of_opensQuote (opens : mode.opensQuote c = true) :
    mode.isTopLevel = true ∨ mode.nests = true := by
  cases mode <;> simp_all [Mode.opensQuote, Mode.nests, Mode.isTopLevel]

theorem nests_of_expands (expands : mode.expands = true) :
    mode.isTopLevel = true ∨ mode.nests = true := by
  cases mode <;> simp_all [Mode.expands, Mode.nests, Mode.isTopLevel]

end Modes

section Stack

variable {mode : Mode} {enclosing : List Mode} {pending : Pending} {c : Char}

/-- What a scan inside a word leaves open may change to anything that its mode allows. -/
theorem WellFormed.withPending (formed : WellFormed ⟨mode, enclosing, pending⟩)
    (some : mode ≠ .delimiter) (other : Pending) (allowed : mode.allows other = true) :
    WellFormed ⟨mode, enclosing, other⟩ := by
  cases formed with
  | between => exact absurd rfl some
  | word pending => exact .word other
  | nested inside stack _ => exact .nested inside stack allowed

theorem WellFormed.allows (formed : WellFormed ⟨mode, enclosing, pending⟩) :
    mode.allows pending = true := by
  cases formed with
  | between => rfl
  | word pending => cases pending <;> rfl
  | nested _ _ allowed => exact allowed

theorem WellFormed.enter (formed : WellFormed ⟨mode, enclosing, pending⟩) (some : mode ≠ .delimiter)
    (opens : mode.isTopLevel = true ∨ mode.nests = true) {inner : Mode}
    (inside : inner.isTopLevel = false) : WellFormed ⟨inner, mode :: enclosing, .nothing⟩ := by
  cases formed with
  | between => exact absurd rfl some
  | word pending => exact .nested inside .word rfl
  | nested outside stack allowed =>
      rw [outside] at opens
      exact .nested inside (.inner (opens.resolve_left Bool.false_ne_true) stack) rfl

/-- Leaving a quote or an expansion comes back into the word or to a mode that nests. -/
theorem Enclosing.leave (stack : Enclosing enclosing) :
    (Scan.leave ⟨mode, enclosing, pending⟩).WellFormed ∧
      (Scan.leave ⟨mode, enclosing, pending⟩).mode ≠ .delimiter := by
  cases stack with
  | word => exact ⟨.word _, Mode.noConfusion⟩
  | inner nests above =>
      have inside := inside_of_nests nests
      exact ⟨.nested inside above rfl, ne_delimiter_of_inside inside⟩

/-- A character that joins the open word keeps the scan well-formed and inside the word. -/
theorem WellFormed.takes {next : Scan} (formed : WellFormed ⟨mode, enclosing, pending⟩)
    (some : mode ≠ .delimiter) (taken : Takes mode enclosing c next) :
    next.WellFormed ∧ next.mode ≠ .delimiter ∧ next.pending ≠ .separators := by
  cases taken with
  | escape same escapes => exact ⟨formed.withPending some _ escapes, some, Pending.noConfusion⟩
  | dollar same expands => exact ⟨formed.withPending some _ expands, some, Pending.noConfusion⟩
  | leave closes =>
      cases formed with
      | between => exact absurd rfl some
      | word pending => cases closes
      | nested inside stack allowed =>
          refine ⟨stack.leave.1, stack.leave.2, ?_⟩
          cases stack <;> exact Pending.noConfusion
  | enter opens =>
      have inside := ofQuote_inside c
      exact ⟨formed.enter some (nests_of_opensQuote opens) inside, ne_delimiter_of_inside inside,
        Pending.noConfusion⟩
  | plain _ _ _ _ => exact ⟨formed.withPending some _ rfl, some, Pending.noConfusion⟩

theorem WellFormed.take (formed : WellFormed ⟨mode, enclosing, pending⟩) (some : mode ≠ .delimiter)
    (c : Char) :
    (Scan.take ⟨mode, enclosing, .nothing⟩ c).WellFormed ∧
      (Scan.take ⟨mode, enclosing, .nothing⟩ c).mode ≠ .delimiter ∧
      (Scan.take ⟨mode, enclosing, .nothing⟩ c).pending ≠ .separators :=
  formed.takes some (take_takes mode enclosing .nothing c)

end Stack

theorem WellFormed.ne_delimiter {mode : Mode} {enclosing : List Mode} {pending : Pending}
    (formed : WellFormed ⟨mode, enclosing, pending⟩) (remembers : pending ≠ .nothing) :
    mode ≠ .delimiter := by
  cases formed with
  | between => exact absurd rfl remembers
  | word => exact Mode.noConfusion
  | nested inside => exact ne_delimiter_of_inside inside

theorem Begins.separates {classes : Classes} {c : Char} {next : Scan}
    (begins : Begins classes c true next)
    (breaks : classes.isDelimiter c = true ∨ classes.isSeparator c = true) :
    classes.isSeparator c = true := by
  cases begins with
  | separator _ separates => exact separates
  | ordinary noDelimiter noSeparator => simp [noDelimiter, noSeparator] at breaks

theorem Begins.wellFormed {classes : Classes} {c : Char} {keeps : Bool} {next : Scan}
    (begins : Begins classes c keeps next) : next.WellFormed := by
  cases begins with
  | delimiter => exact .between
  | separator => exact .word _
  | ordinary => exact ((WellFormed.word .nothing).take Mode.noConfusion c).1

/-- One move keeps a scan well-formed. -/
theorem WellFormed.move {scan : Scan} (formed : scan.WellFormed) (classes : Classes) (c : Char) :
    (scan.move classes c).next.WellFormed := by
  have moves := formed.moves classes c
  generalize scan.move classes c = move at moves
  cases moves with
  | first begins => exact begins.wellFormed
  | escaped mode enclosing =>
      cases formed with
      | word => exact .word _
      | nested inside stack allowed => exact .nested inside stack rfl
  | expands mode enclosing bracket =>
      have inside := ofBracket?_inside bracket
      cases formed with
      | word => exact .nested inside .word rfl
      | nested outside stack allowed =>
          exact (WellFormed.nested outside stack allowed).enter (ne_delimiter_of_inside outside)
            (nests_of_expands allowed) inside
  | nested enclosing inside idle => exact (formed.take (ne_delimiter_of_inside inside) c).1
  | ordinary => exact (formed.take Mode.noConfusion c).1
  | run => exact .word _
  | ends idle breaks begins => exact begins.wellFormed
  | endsRun noSeparator begins => exact begins.wellFormed

/-- Every text leads from a well-formed scan to another. -/
theorem WellFormed.run {scan : Scan} (formed : scan.WellFormed) (classes : Classes) (text : Text) :
    (scan.run classes text).WellFormed := by
  induction text generalizing scan with
  | nil => exact formed
  | cons c rest ih => exact ih (formed.move classes c)

end Scan

end SerialCompletion.Line
