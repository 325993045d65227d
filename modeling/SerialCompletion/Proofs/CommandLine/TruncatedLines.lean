import SerialCompletion.CommandLine.Program
import SerialCompletion.Proofs.Line.Growth
import SerialCompletion.Proofs.Text.Bytes

/-!
# Lines that end at the cursor

Splitting, listing and completion look at the part of a line that the cursor
has passed, and at the boundary to which the cursor is clamped.  Both are the
same in every line that begins with this part.  So nothing behind the cursor
changes an answer, and a shell may pass its line up to the cursor and leave
the cursor out.
-/

namespace SerialCompletion.CommandLine

open Completion Files Line

section Answers

variable (classes : Classes) (line behind : Text) (offset : Nat)

theorem split_truncated :
    split classes (Text.takeBytes offset line ++ behind) (Text.clamp line offset) =
      split classes line offset := by
  rw [split, split, beforeCursor, beforeCursor, Text.clamp, Text.takeBytes_byteLength_append]

theorem listing_truncated :
    listing classes (Text.takeBytes offset line ++ behind) (Text.clamp line offset) =
      listing classes line offset := by
  rw [listing, listing, split_truncated]

/-- What completion sees under a cursor does not depend on what is behind it. -/
theorem ofLine_truncated :
    Cursor.ofLine classes (Text.takeBytes offset line ++ behind) (Text.clamp line offset) =
      Cursor.ofLine classes line offset := by
  rw [Cursor.ofLine, Cursor.ofLine, split_truncated, Text.clamp_takeBytes_append]

theorem offer_truncated (source : Source) :
    Completer.offer ⟨classes, source⟩ (Text.takeBytes offset line ++ behind) (Text.clamp line offset) =
      Completer.offer ⟨classes, source⟩ line offset := by
  rw [Completer.offer, Completer.offer, ofLine_truncated]

end Answers

section Runs

variable {m : Type → Type} [Monad m] (access : Access m) (home line : Text) (offset : Nat)

/-- Completing a line up to the cursor at its end gives what completing at the cursor gives. -/
theorem runComplete_truncated (settings : Settings) (format : Format) :
    runComplete access settings none format (Text.takeBytes offset line) =
      runComplete access settings (some offset) format line := by
  have same (completer : Completer) :
      completer.offer (Text.takeBytes offset line) (Text.clamp line offset) =
        completer.offer line offset := by
    have truncated := offer_truncated completer.classes line [] offset completer.source
    rwa [List.append_nil] at truncated
  unfold runComplete
  congr 1
  funext entries
  have offered := same (settings.completer (entries.map Entry.name))
  rw [Text.clamp] at offered
  simp only [Option.getD_none, Option.getD_some, offered]

/-- A run with another command that does the same with every settings is the same run. -/
theorem run_of_perform (invocation : Invocation) {first second : Command}
    (same : ∀ settings,
      Invocation.perform access home { invocation with command := some first } settings =
        Invocation.perform access home { invocation with command := some second } settings) :
    Invocation.run access home { invocation with command := some first } =
      Invocation.run access home { invocation with command := some second } := by
  unfold Invocation.run
  simp only [same]
  rfl

theorem run_complete_truncated (invocation : Invocation) (format : Format) :
    Invocation.run access home
        { invocation with command := some (.complete none format (Text.takeBytes offset line)) } =
      Invocation.run access home
        { invocation with command := some (.complete (some offset) format line) } := by
  apply run_of_perform
  intro settings
  exact runComplete_truncated access line offset settings format

theorem run_split_truncated (invocation : Invocation) :
    Invocation.run access home
        { invocation with command := some (.split none (Text.takeBytes offset line)) } =
      Invocation.run access home
        { invocation with command := some (.split (some offset) line) } := by
  apply run_of_perform
  intro settings
  have listed := listing_truncated settings.lexer line [] offset
  rw [List.append_nil, Text.clamp] at listed
  simp only [Invocation.perform, Option.getD_none, Option.getD_some, listed]

end Runs

/--
An answer sees exactly the line up to the boundary at or before the cursor.
Clamping gives the greatest boundary of the line that the cursor has reached.
The line up to there may go on in any way: with the cursor at the boundary it
is split, listed and completed as the line is with its own cursor.  And a run
that is given the line up to the cursor and no offset, as the shells ask for
it, is the run that is given the line and the offset.
-/
theorem answers_up_to_cursor (classes : Classes) (source : Source) (line : Text) (offset : Nat) :
    let boundary := Text.clamp line offset
    let passed := Text.takeBytes boundary line
    IsGreatest {position | (⟨position⟩ : String.Pos.Raw).IsValid (String.ofList line) ∧
        position ≤ min offset (String.ofList line).utf8ByteSize} boundary ∧
      (∀ behind,
        split classes (passed ++ behind) boundary = split classes line offset ∧
          listing classes (passed ++ behind) boundary = listing classes line offset ∧
          Completer.offer ⟨classes, source⟩ (passed ++ behind) boundary =
            Completer.offer ⟨classes, source⟩ line offset) ∧
      ∀ (m : Type → Type) [Monad m] (access : Access m) (home : Text) (invocation : Invocation),
        (∀ format,
          Invocation.run access home { invocation with command := some (.complete none format passed) } =
            Invocation.run access home
              { invocation with command := some (.complete (some offset) format line) }) ∧
        Invocation.run access home { invocation with command := some (.split none passed) } =
          Invocation.run access home { invocation with command := some (.split (some offset) line) } := by
  intro boundary passed
  have passedEq : passed = Text.takeBytes offset line := Text.takeBytes_clamp line offset
  rw [passedEq]
  constructor
  · exact Text.clamp_isGreatest line offset
  constructor
  · intro behind
    constructor
    · exact split_truncated classes line behind offset
    constructor
    · exact listing_truncated classes line behind offset
    · exact offer_truncated classes line behind offset source
  · intro m _ access home invocation
    constructor
    · intro format
      exact run_complete_truncated access home line offset invocation format
    · exact run_split_truncated access home line offset invocation

end SerialCompletion.CommandLine
