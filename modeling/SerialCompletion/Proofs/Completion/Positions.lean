import SerialCompletion.Completion.Context
import SerialCompletion.Proofs.Catalogue.Names

/-!
# Steps of a position

The position after some words is reached word by word, and each step is
settled by the position before it.  Only an option that waits for its value
makes anything of an equals sign.  Where a value may stand, a fixed value is
taken for one or for a stray word, and never for an option.
-/

namespace SerialCompletion.Completion.Position

open Catalogue

variable {position : Position} {kind : ArgumentKind} {word : Text}

theorem ofWords_concat (words : List Text) (word : Text) :
    ofWords (words ++ [word]) = (ofWords words).next word := by
  simp [ofWords, after]

theorem afterArgument_ne_afterEquals (word : Text) (kind : ArgumentKind) :
    afterArgument word ≠ .afterEquals kind := by
  unfold afterArgument
  split
  · exact Position.noConfusion
  · split
    · exact Position.noConfusion
    · split <;> exact Position.noConfusion

theorem next_eq_afterEquals_iff :
    position.next word = .afterEquals kind ↔ position = .expectValue kind ∧ word = ['='] := by
  cases position with
  | start | operands | afterEquals => simp [next]
  | arguments => simp [next, afterArgument_ne_afterEquals]
  | expectValue expected =>
      simp only [next]
      split <;> simp_all

/-! ## Words of the tables -/

theorem next_spelling {entry : OptionEntry} (listed : entry ∈ options) {spelling : Text}
    (spelled : spelling ∈ entry.spellings) :
    next .arguments spelling =
      if entry.argument.takesValue then .expectValue entry.argument else .arguments := by
  have noEnd : spelling ≠ endOfOptions := by
    have different : ∀ entry ∈ options, endOfOptions ∉ entry.spellings := by decide +kernel
    rintro rfl
    exact different entry listed spelled
  rw [next, afterArgument, if_neg noEnd, findOption?_of_mem_spellings listed spelled]

/-- Whether the next word may be the value of an option or a stray word. -/
def TakesWords : Position → Prop
  | .start | .operands => False
  | .arguments | .expectValue _ | .afterEquals _ => True

/-- A word without a dash is no option and does not end the options. -/
theorem afterArgument_of_noDash (noDash : '-' ∉ word) : afterArgument word = .arguments := by
  have noEnd : word ≠ endOfOptions := by
    rintro rfl
    exact noDash (by decide)
  rw [afterArgument, if_neg noEnd, findOption?_eq_none noDash]

theorem next_fixedValue (takes : position.TakesWords) (member : word ∈ kind.fixedValues?.getD []) :
    position.next word = .arguments := by
  cases position with
  | start | operands => exact takes.elim
  | arguments => exact afterArgument_of_noDash (noDash_fixedValues kind word member)
  | expectValue expected =>
      have noEquals : '=' ∉ word := IsName.not_mem (.inr (.inl ⟨kind, member⟩)) (by decide)
      refine if_neg ?_
      rintro rfl
      exact noEquals List.mem_cons_self
  | afterEquals expected => rfl

end SerialCompletion.Completion.Position

namespace SerialCompletion.Completion.Context

open Catalogue Line

/-!
## Contexts behind a run of separators

Right after a run of separators nothing of the next word is typed.  The run is
a word as well, and read as one it leads to a position.  Where that position
is behind the equals sign of an option, the context is the empty argument of
the option.  Everywhere else the run is a stray one, and the context is empty
only among the arguments and where nothing is known about the value: an option
that waits for its value and the end of the options do not notice the run.
-/

variable {classes : Classes} {words : List Text} {run : Text} {offset : Nat}

theorem ofWords_run (isRun : classes.isSeparatorRun run = true) :
    Cursor.ofWords classes (words ++ [run]) offset = ⟨words, run, offset, true⟩ := by
  simp [Cursor.ofWords, isRun]

/-- The context behind a run is settled by the position in front of the run. -/
theorem ofPosition_run (position : Position) (words : List Text) (run : Text) (offset : Nat) :
    ofPosition position ⟨words, run, offset, true⟩ =
      match position with
      | .start | .arguments => .nothing
      | .operands => .device []
      | .expectValue kind | .afterEquals kind => ofArgument kind [] [] := by
  cases position <;> rfl

theorem ofArgument_eq_nothing_iff (kind : ArgumentKind) (raw literal : Text) :
    ofArgument kind raw literal = .nothing ↔ kind = .flag ∨ kind = .free := by
  cases kind <;> simp [ofArgument]

/--
A run of separators that leads behind the equals sign of an option has the
context of the option's empty argument.  Any other run has the empty context
exactly when it stands among the arguments, or in front of a value of which
nothing is known.
-/
theorem ofCursor_run (isRun : classes.isSeparatorRun run = true) :
    (∀ kind, Position.ofWords (words ++ [run]) = .afterEquals kind →
      ofCursor (Cursor.ofWords classes (words ++ [run]) offset) = ofArgument kind [] []) ∧
    ((∀ kind, Position.ofWords (words ++ [run]) ≠ .afterEquals kind) →
      (ofCursor (Cursor.ofWords classes (words ++ [run]) offset) = .nothing ↔
        Position.ofWords words = .start ∨ Position.ofWords words = .arguments ∨
          ∃ kind, (kind = .flag ∨ kind = .free) ∧
            (Position.ofWords words = .expectValue kind ∨
              Position.ofWords words = .afterEquals kind))) := by
  simp only [ofWords_run isRun, ofCursor, ofPosition_run, Position.ofWords_concat]
  generalize Position.ofWords words = position
  constructor
  · intro kind equals
    rw [(Position.next_eq_afterEquals_iff.mp equals).1]
  · intro _
    cases position with
    | start | arguments | operands => simp
    | expectValue expected | afterEquals expected => simp [ofArgument_eq_nothing_iff]

/-- An equals sign behind an option, and a redirection among the arguments. -/
theorem ofCursor_run_baud :
    Classes.standard.isSeparatorRun ['='] = true ∧
      Position.ofWords ["picocom", "--baud", "="] = .afterEquals .baud ∧
      ofCursor (Cursor.ofWords .standard ["picocom", "--baud", "="] 15) = .value .baud [] ∧
      Classes.standard.isSeparatorRun ['>', '>'] = true ∧
      ofCursor (Cursor.ofWords .standard ["picocom", "/dev/ttyS0", ">>"] 20) = .nothing := by
  have equals : Classes.standard.isSeparatorRun ['='] = true := by decide
  have redirects : Classes.standard.isSeparatorRun ['>', '>'] = true := by decide
  have position : Position.ofWords ["picocom", "--baud", "="] = .afterEquals .baud := by decide +kernel
  refine ⟨equals, position, ?_, redirects, ?_⟩
  · exact (@ofCursor_run _ ["picocom", "--baud"] _ 15 equals).1 .baud position
  · refine ((@ofCursor_run _ ["picocom", "/dev/ttyS0"] _ 20 redirects).2 ?_).mpr (.inr (.inl ?_))
    · intro kind
      rw [Position.ofWords_concat, Ne, Position.next_eq_afterEquals_iff]
      rintro ⟨_, run⟩
      cases run
    · decide +kernel

/-- A redirection behind an option is offered the values of the option, which will not take them. -/
theorem ofCursor_run_stray :
    let cursor := Cursor.ofLine .standard "picocom --baud>" 15
    Classes.standard.isSeparatorRun cursor.current = true ∧
      Position.ofWords cursor.words = .arguments ∧ ofCursor cursor = .value .baud [] := by
  decide +kernel

end SerialCompletion.Completion.Context
