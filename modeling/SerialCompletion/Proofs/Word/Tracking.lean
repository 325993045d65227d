import Mathlib.Data.List.Infix
import SerialCompletion.Proofs.Line.Grammar
import SerialCompletion.Proofs.Word.Reading

/-!
# Splitting and reading in step

The scan of a line and the reading of a word are two automata that know
nothing of each other.  As long as a line opens quotes only, and neither
backticks nor expansions, they stand in the same quotes behind every
character.  A word that has ended therefore leaves the reading where a word
begins, and the literal value of a line is made of its gaps and of the literal
values of its words.
-/

namespace SerialCompletion.Word

open Line

/-! ## The quotes of a scan -/

/-- The quotes in which a scan stands; backticks and expansions are none to a reading. -/
def quotation? : Mode → Option Quotation
  | .delimiter | .word => some .outside
  | .singleQuote => some .single
  | .doubleQuote => some .double
  | .backtick | .parenExpansion | .braceExpansion => none

/-- Whether no beginning of a text leads a scan into backticks or into an expansion. -/
def OnlyQuotes (classes : Classes) (scan : Scan) (text : Text) : Prop :=
  ∀ front, front <+: text → (quotation? (scan.run classes front).mode).isSome = true

/-- The quotes in which a scan and a reading stand together inside a word: at most one pair is open. -/
inductive StandsInside : Mode → List Mode → Quotation → Prop where
  | word : StandsInside .word [] .outside
  | single : StandsInside .singleQuote [.word] .single
  | double : StandsInside .doubleQuote [.word] .double

inductive Stands : Mode → List Mode → Quotation → Prop where
  | between : Stands .delimiter [] .outside
  | inside {mode : Mode} {enclosing : List Mode} {quotation : Quotation}
      (stands : StandsInside mode enclosing quotation) : Stands mode enclosing quotation

namespace Stands

variable {mode : Mode} {enclosing : List Mode} {quotation : Quotation}

theorem quotation_iff (stands : Stands mode enclosing quotation) :
    (quotation = .single ↔ mode = .singleQuote) ∧ (quotation = .double ↔ mode = .doubleQuote) ∧
      (quotation = .outside ↔ mode.isTopLevel = true) := by
  cases stands with
  | between => decide
  | inside stands => cases stands <;> decide

theorem inside_of_ne (stands : Stands mode enclosing quotation) (some : mode ≠ .delimiter) :
    StandsInside mode enclosing quotation := by
  cases stands with
  | between => exact absurd rfl some
  | inside stands => exact stands

theorem eq_outside (stands : Stands mode [] quotation) : quotation = .outside := by
  cases stands with
  | between => rfl
  | inside stands =>
      cases stands
      rfl

end Stands

/-- A scan and a reading in the same quotes, with the same claim on the next character. -/
structure Tracks (scan : Scan) (reading : Reading) : Prop where
  stands : Stands scan.mode scan.enclosing reading.quotation
  escaped : reading.escaped = (scan.pending == .escape)

section Steps

variable {classes : Classes} {scan next : Scan} {reading : Reading} {mode : Mode}
  {enclosing : List Mode} {quotation : Quotation} {c : Char} {keeps : Bool}

theorem OnlyQuotes.behind {rest : Text} (only : OnlyQuotes classes scan (c :: rest)) :
    OnlyQuotes classes (scan.move classes c).next rest :=
  fun front begins => only (c :: front) (List.cons_prefix_cons.mpr ⟨rfl, begins⟩)

/-- A character that breaks the line has no meaning to a reading between quotes. -/
theorem next_of_breaks (spares : classes.SparesSpecial)
    (breaks : classes.isDelimiter c = true ∨ classes.isSeparator c = true) :
    Reading.start.next c = Reading.start ∧ Reading.start.output c = [c] := by
  have ordinary (special : Char) (reserved : special ∈ Region.word.special) : c ≠ special := by
    rintro rfl
    have spared := spares c reserved
    simp [spared] at breaks
  have noEscape : c ≠ '\\' := ordinary '\\' (by decide)
  have noSingle : c ≠ '\'' := ordinary '\'' (by decide)
  have noDouble : c ≠ '"' := ordinary '"' (by decide)
  simp [Reading.next, Reading.output, Reading.start, noEscape, noSingle, noDouble]

namespace StandsInside

theorem tracks (stands : StandsInside mode enclosing quotation) :
    Tracks ⟨mode, enclosing, .nothing⟩ ⟨quotation, false⟩ :=
  ⟨.inside stands, rfl⟩

theorem escape (stands : StandsInside mode enclosing quotation) (escapes : mode.escapes = true) :
    Tracks ⟨mode, enclosing, .escape⟩ (Reading.next ⟨quotation, false⟩ '\\') := by
  cases stands with
  | single => cases escapes
  | word => exact ⟨.inside .word, rfl⟩
  | double => exact ⟨.inside .double, rfl⟩

theorem dollar (stands : StandsInside mode enclosing quotation) :
    Tracks ⟨mode, enclosing, .dollar⟩ (Reading.next ⟨quotation, false⟩ '$') := by
  have stays : Reading.next ⟨quotation, false⟩ '$' = ⟨quotation, false⟩ := by
    cases quotation <;> rfl
  rw [stays]
  exact ⟨.inside stands, rfl⟩

theorem leave (stands : StandsInside mode enclosing quotation) (closes : mode.closer? = some c) :
    Tracks (Scan.leave ⟨mode, enclosing, .nothing⟩) (Reading.next ⟨quotation, false⟩ c) := by
  cases stands with
  | word => cases closes
  | single | double =>
      cases closes
      exact word.tracks

/-- Only a single or a double quote can have opened, for a backtick is none to a reading. -/
theorem enter (stands : StandsInside mode enclosing quotation) (opens : mode.opensQuote c = true)
    (only : (quotation? (Mode.ofQuote c)).isSome = true) :
    Tracks ⟨Mode.ofQuote c, mode :: enclosing, .nothing⟩ (Reading.next ⟨quotation, false⟩ c) := by
  cases stands with
  | single => cases opens
  | word =>
      rcases isQuoteOpener_iff.mp opens with rfl | rfl | rfl
      · exact single.tracks
      · exact double.tracks
      · cases only
  | double =>
      obtain rfl : c = '\x60' := eq_of_beq opens
      cases only

theorem plain (stands : StandsInside mode enclosing quotation)
    (noEscape : ¬ (c = '\\' ∧ mode.escapes = true)) (noCloser : mode.closer? ≠ some c)
    (noOpener : mode.opensQuote c = false) :
    Tracks ⟨mode, enclosing, .nothing⟩ (Reading.next ⟨quotation, false⟩ c) := by
  have stays : Reading.next ⟨quotation, false⟩ c = ⟨quotation, false⟩ := by
    cases stands with
    | word => simp_all [Reading.next, Mode.opensQuote, isQuoteOpener, Mode.escapes]
    | single =>
        have noQuote : c ≠ '\'' := fun same => noCloser (congrArg some same.symm)
        simp [Reading.next, noQuote]
    | double =>
        have noQuote : c ≠ '"' := fun same => noCloser (congrArg some same.symm)
        have noSlash : c ≠ '\\' := fun same => noEscape ⟨same, rfl⟩
        simp [Reading.next, noQuote, noSlash]
  rw [stays]
  exact stands.tracks

/-- A character that joins the open word keeps both in the same quotes. -/
theorem take (stands : StandsInside mode enclosing quotation)
    (only : (quotation? (Scan.take ⟨mode, enclosing, .nothing⟩ c).mode).isSome = true) :
    Tracks (Scan.take ⟨mode, enclosing, .nothing⟩ c) (Reading.next ⟨quotation, false⟩ c) := by
  have takes := Scan.take_takes mode enclosing .nothing c
  generalize Scan.take ⟨mode, enclosing, .nothing⟩ c = next at takes only
  cases takes with
  | escape same escapes =>
      subst same
      exact stands.escape escapes
  | dollar same =>
      subst same
      exact stands.dollar
  | leave closes => exact stands.leave closes
  | enter opens => exact stands.enter opens only
  | plain noEscape _ noCloser noOpener => exact stands.plain noEscape noCloser noOpener

end StandsInside

theorem tracks_start : Tracks Scan.start Reading.start :=
  ⟨.between, rfl⟩

theorem tracks_begins (spares : classes.SparesSpecial) (begins : Scan.Begins classes c keeps next)
    (only : (quotation? next.mode).isSome = true) : Tracks next (Reading.start.next c) := by
  cases begins with
  | delimiter delimits =>
      rw [(next_of_breaks spares (.inl delimits)).1]
      exact tracks_start
  | separator noDelimiter separates =>
      rw [(next_of_breaks spares (.inr separates)).1]
      exact ⟨.inside .word, rfl⟩
  | ordinary => exact StandsInside.word.take only

namespace Tracks

theorem eq_unescaped {pending : Pending} (tracks : Tracks ⟨mode, enclosing, pending⟩ reading)
    (unescaped : pending ≠ .escape) : reading = ⟨reading.quotation, false⟩ := by
  have noEscape : reading.escaped = false := tracks.escaped.trans (beq_false_of_ne unescaped)
  rw [← noEscape]

theorem eq_start {pending : Pending} (tracks : Tracks ⟨mode, [], pending⟩ reading)
    (unescaped : pending ≠ .escape) : reading = Reading.start := by
  rw [tracks.eq_unescaped unescaped, tracks.stands.eq_outside]
  rfl

/-- One character keeps the scan and the reading in the same quotes. -/
theorem move (tracks : Tracks scan reading) (formed : scan.WellFormed)
    (spares : classes.SparesSpecial)
    (only : (quotation? (scan.move classes c).next.mode).isSome = true) :
    Tracks (scan.move classes c).next (reading.next c) := by
  have moves := formed.moves classes c
  generalize scan.move classes c = move at moves only
  cases moves with
  | first begins =>
      rw [tracks.eq_start Pending.noConfusion]
      exact tracks_begins spares begins only
  | escaped mode enclosing =>
      obtain ⟨stands, escaped⟩ := tracks
      have taken : reading.next c = ⟨reading.quotation, false⟩ := by
        rw [Reading.next, escaped]
        rfl
      rw [taken]
      exact ⟨stands, rfl⟩
  | @expands mode enclosing inner bracket =>
      rcases Mode.eq_of_ofBracket? bracket with ⟨-, rfl⟩ | ⟨-, rfl⟩ <;> cases only
  | nested enclosing inside idle =>
      rw [tracks.eq_unescaped idle.ne_escape]
      exact (tracks.stands.inside_of_ne (Scan.ne_delimiter_of_inside inside)).take only
  | ordinary idle =>
      rw [tracks.eq_unescaped idle.ne_escape]
      exact (tracks.stands.inside_of_ne Mode.noConfusion).take only
  | run separates =>
      rw [tracks.eq_start Pending.noConfusion, (next_of_breaks spares (.inr separates)).1]
      exact ⟨.inside .word, rfl⟩
  | ends idle breaks begins =>
      rw [tracks.eq_start idle.ne_escape]
      exact tracks_begins spares begins only
  | endsRun noSeparator begins =>
      rw [tracks.eq_start Pending.noConfusion]
      exact tracks_begins spares begins only

/-- Where a word ends, and where a character is dropped, the reading stands where a word begins. -/
theorem start_of_breaks (tracks : Tracks scan reading) (formed : scan.WellFormed) {closes : Bool}
    (made : scan.move classes c = ⟨closes, keeps, next⟩) (breaks : closes = true ∨ keeps = false) :
    reading = Reading.start := by
  have moves := formed.moves classes c
  rw [made] at moves
  cases moves with
  | first => exact tracks.eq_start Pending.noConfusion
  | escaped | expands | nested | ordinary | run => simp at breaks
  | ends idle => exact tracks.eq_start idle.ne_escape
  | endsRun => exact tracks.eq_start Pending.noConfusion

/-- A dropped character leaves the scan behind a gap, and so the reading where a word begins. -/
theorem start_of_drops {closes : Bool} (tracks : Tracks next (reading.next c)) (formed : scan.WellFormed)
    (made : scan.move classes c = ⟨closes, false, next⟩) : reading.next c = Reading.start := by
  have moves := formed.moves classes c
  rw [made] at moves
  cases moves with
  | first begins | ends _ _ begins | endsRun _ begins =>
      cases begins
      exact tracks.eq_start Pending.noConfusion

end Tracks

end Steps

/-! ## The words of a line -/

/-- Words that end where a word may begin, and a last one behind which a scan is in step. -/
inductive InStep (last : Scan) : Reading → List Text → Prop where
  | last {reading : Reading} {word : Text} (tracks : Tracks last (reading.run word)) :
      InStep last reading [word]
  | cons {reading : Reading} {word : Text} {rest : List Text}
      (returns : reading.run word = Reading.start) (behind : InStep last Reading.start rest) :
      InStep last reading (word :: rest)

namespace InStep

variable {classes : Classes} {scan last : Scan} {reading : Reading} {words : List Text} {c : Char}

theorem consFirst (inStep : InStep last (reading.next c) words) :
    InStep last reading (consFirst c words) := by
  cases inStep with
  | last tracks => exact .last tracks
  | cons returns behind => exact .cons returns behind

/-- The words that a scan splits off are in step with a reading that tracks it. -/
theorem wordsFrom (spares : classes.SparesSpecial) (text : Text) (formed : scan.WellFormed)
    (tracks : Tracks scan reading) (only : OnlyQuotes classes scan text) :
    InStep (scan.run classes text) reading (wordsFrom classes scan text) := by
  induction text generalizing scan reading with
  | nil => exact .last tracks
  | cons c rest ih =>
      have behind := only.behind
      have step := tracks.move formed spares (behind [] List.nil_prefix)
      have tail := ih (formed.move classes c) step behind
      rw [Scan.run_cons]
      rcases made : scan.move classes c with ⟨_ | _, _ | _, next⟩
      all_goals rw [made] at step tail
      · rw [wordsFrom_of_drops rest made, tracks.start_of_breaks formed made (.inr rfl)]
        rwa [step.start_of_drops formed made] at tail
      · rw [wordsFrom_of_joins rest made]
        exact tail.consFirst
      · rw [wordsFrom_of_ends rest made, tracks.start_of_breaks formed made (.inl rfl)]
        rw [step.start_of_drops formed made] at tail
        exact .cons rfl tail
      · rw [wordsFrom_of_turns rest made]
        rw [tracks.start_of_breaks formed made (.inl rfl)] at tail ⊢
        exact .cons rfl tail.consFirst

theorem exists_last (inStep : InStep last Reading.start words) :
    ∃ earlier word, words = earlier ++ [word] ∧ Tracks last (Reading.start.run word) ∧
      ∀ word ∈ earlier, Reading.start.run word = Reading.start := by
  generalize start : Reading.start = reading at inStep
  induction inStep with
  | last tracks =>
      subst start
      exact ⟨[], _, rfl, tracks, by simp⟩
  | @cons _ first rest returns _ ih =>
      subst start
      obtain ⟨earlier, word, split, tracks, others⟩ := ih rfl
      exact ⟨first :: earlier, word, congrArg (first :: ·) split, tracks,
        List.forall_mem_cons.mpr ⟨returns, others⟩⟩

end InStep

/-! ## Values in parts -/

section Values

variable {classes : Classes} {gap : Text} {tiles : List Tile}

theorem returns_gap (spares : classes.SparesSpecial)
    (delimits : ∀ c ∈ gap, classes.isDelimiter c = true) : Returns Reading.start gap gap := by
  have each (c : Char) (member : c ∈ gap) : Returns Reading.start [c] [c] := by
    obtain ⟨next, output⟩ := next_of_breaks spares (.inl (delimits c member))
    exact ⟨congrArg (· ++ []) output, next⟩
  have whole := Returns.flatMap each
  rwa [List.flatMap_singleton'] at whole

/-- The value of a tile: its gap as it stands and the literal value of its word. -/
def tileValue (tile : Tile) : Text :=
  tile.gap ++ literal tile.word

/-- Tiles whose words have ended give their values one behind the other. -/
theorem returns_cover (spares : classes.SparesSpecial)
    (gaps : ∀ tile ∈ tiles, ∀ c ∈ tile.gap, classes.isDelimiter c = true)
    (ended : ∀ tile ∈ tiles, Reading.start.run tile.word = Reading.start) :
    Returns Reading.start (cover tiles) (tiles.flatMap tileValue) := by
  induction tiles with
  | nil => exact .nil _
  | cons tile tiles ih =>
      obtain ⟨gap, gaps⟩ := List.forall_mem_cons.mp gaps
      obtain ⟨word, others⟩ := List.forall_mem_cons.mp ended
      exact ((returns_gap spares gap).append (returns_of_run word)).append (ih gaps others)

/-- The literal value of a covered text, when every word but the last has ended. -/
theorem literal_cover {last : Tile} (spares : classes.SparesSpecial)
    (gaps : ∀ tile ∈ tiles ++ [last], ∀ c ∈ tile.gap, classes.isDelimiter c = true)
    (ended : ∀ tile ∈ tiles, Reading.start.run tile.word = Reading.start) :
    literal (cover (tiles ++ [last])) = (tiles ++ [last]).flatMap tileValue := by
  obtain ⟨before, lastGap⟩ := List.forall_mem_append.mp gaps
  have front := returns_cover spares before ended
  have gap := returns_gap spares (List.forall_mem_singleton.mp lastGap)
  have parts : cover (tiles ++ [last]) = cover tiles ++ (last.gap ++ last.word) := by
    simp [cover, Tile.text]
  rw [parts, literal_append_of_returns front, literal_append_of_returns gap, List.flatMap_append]
  simp [tileValue]

end Values

/--
Splitting and reading know the same quotes.  Let a line, up to a cursor, open
no backticks and no expansion.  Its literal value is made of the gaps and of
the literal values of the words, in their order.  Every word that has ended
leaves the reading outside quotes and without an escape, so its literal value
stands in front of that of any text behind it.  And behind the last word the
reading stands in single quotes, in double quotes or outside exactly when the
splitter does.
-/
theorem literal_split {classes : Classes} (spares : classes.SparesSpecial) (line : Text) (offset : Nat)
    (only : OnlyQuotes classes Scan.start (beforeCursor line offset)) :
    let text := beforeCursor line offset
    let words := split classes line offset
    let mode := (Scan.start.run classes text).mode
    (∃ tiles : List Tile, tiles.map Tile.word = words ∧ Tiling classes text tiles) ∧
      (∀ tiles : List Tile, tiles.map Tile.word = words → Tiling classes text tiles →
        literal text = tiles.flatMap fun tile => tile.gap ++ literal tile.word) ∧
      (∀ word ∈ words.dropLast, Reading.start.run word = Reading.start ∧
        ∀ more, literal (word ++ more) = literal word ++ literal more) ∧
      ∃ last, words.getLast? = some last ∧
        ((Reading.start.run last).quotation = .single ↔ mode = .singleQuote) ∧
        ((Reading.start.run last).quotation = .double ↔ mode = .doubleQuote) ∧
        ((Reading.start.run last).quotation = .outside ↔ mode.isTopLevel = true) := by
  intro text words mode
  obtain ⟨earlier, last, read, tracks, ended⟩ :=
    (InStep.wordsFrom spares text .between tracks_start only).exists_last
  change words = earlier ++ [last] at read
  refine ⟨?_, ?_, ?_, last, ?_, ?_⟩
  · obtain ⟨closed, tile, tiled⟩ := tiledTo_words classes text
    exact ⟨_, tiled.words_eq, tiled.tiling⟩
  · intro tiles wordsEq tiling
    obtain ⟨closed, tile, rfl⟩ := (List.eq_nil_or_concat' tiles).resolve_left tiling.ne_nil
    have closedEq : closed.map Tile.word = earlier := by
      rw [read, List.map_append] at wordsEq
      exact (List.append_inj' wordsEq rfl).1
    rw [tiling.text_eq]
    refine literal_cover spares (fun tile member => (tiling.sound tile member).gap_delimiters) ?_
    intro tile member
    exact ended tile.word (closedEq ▸ List.mem_map_of_mem member)
  · intro word member
    rw [read, List.dropLast_concat] at member
    have returns := ended word member
    exact ⟨returns, literal_append_of_returns (returns_of_run returns)⟩
  · rw [read, List.getLast?_concat]
  · exact tracks.stands.quotation_iff

/-- An escape in each kind of quoting, and a last word that is open at the cursor. -/
theorem literal_split_open :
    let line : Text := "a\\ \"b\\\"\"=  'c d"
    let read : List Text := ["a\\ \"b\\\"\"", "=", "'c "]
    Classes.standard.SparesSpecial ∧
      OnlyQuotes .standard Scan.start (beforeCursor line 14) ∧
      split .standard line 14 = read ∧
      (∃ tiles : List Tile, tiles.map Tile.word = read ∧
        literal (beforeCursor line 14) = tiles.flatMap fun tile => tile.gap ++ literal tile.word) ∧
      (Scan.start.run .standard (beforeCursor line 14)).mode = .singleQuote ∧
      (Reading.start.run "'c ").quotation = .single := by
  intro line read
  have quoting : Classes.standard.SparesQuoting := by decide
  have only : OnlyQuotes .standard Scan.start (beforeCursor line 14) := by
    have all : ∀ front ∈ (beforeCursor line 14).inits,
        (quotation? (Scan.start.run .standard front).mode).isSome = true := by decide +kernel
    exact fun front begins => all front ((List.mem_inits _ _).mpr begins)
  have splits : split .standard line 14 = read := by decide +kernel
  have mode : (Scan.start.run .standard (beforeCursor line 14)).mode = .singleQuote := by
    decide +kernel
  obtain ⟨⟨tiles, wordsEq, tiling⟩, values, _, last, lastEq, single, _⟩ :=
    literal_split quoting.special line 14 only
  refine ⟨quoting.special, only, splits, ⟨tiles, ?_, values tiles wordsEq tiling⟩, mode, ?_⟩
  · rw [wordsEq, splits]
  · rw [splits] at lastEq
    cases lastEq
    exact single.mpr mode

end SerialCompletion.Word
