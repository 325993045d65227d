import SerialCompletion.CommandLine.Program
import SerialCompletion.Proofs.Settings.Storage
import SerialCompletion.Proofs.Settings.Validity

/-!
# Runs work with valid settings

A run takes the settings that it loads if they are valid, and else the standard
ones, and then only sets the log level, which validation does not look at.  So
the settings of a run are valid, whatever its arguments and the settings file
are, and loading is the only step that can fail before a command.  A command
that reads a line reads it by the classes of valid settings.

Files are those of an arbitrary world: a type of states, and operations that may
change the state and answer anything.
-/

namespace SerialCompletion.CommandLine

open Completion Files Line

/-! ## The settings of a run -/

section Effective

variable (invocation : Invocation) (home : Text) (loaded : Settings)

theorem validOrStandard_eq :
    validOrStandard home loaded = if loaded.fault? = none then loaded else .standard home := by
  unfold validOrStandard
  split
  case h_1 valid => rw [if_pos valid]
  case h_2 fault found => rw [if_neg (by simp [found])]

theorem fault?_validOrStandard : (validOrStandard home loaded).fault? = none := by
  rw [validOrStandard_eq]
  split
  case isTrue valid => exact valid
  case isFalse => exact Settings.fault?_standard home

theorem fault?_effective : (invocation.effective home loaded).fault? = none :=
  (Settings.fault?_withLogging _ _).trans (fault?_validOrStandard home loaded)

/-- What a run takes is what it loaded, or the standard settings, with a log level of its own. -/
theorem effective_eq :
    invocation.effective home loaded =
      let base := if loaded.fault? = none then loaded else .standard home
      { base with
        logging := { base.logging with level := invocation.logLevel base.logging.level } } := by
  rw [Invocation.effective, validOrStandard_eq]
  rfl

end Effective

/-! ## The steps of a run -/

/-- What a command that reads a line writes, when the line is split by some classes. -/
inductive Command.Answers (classes : Classes) : Command → Text → Prop where
  | complete (point : Option Nat) (format : Format) (line : Text) (source : Source) {text : Text}
      (rendered :
        (Completer.offer ⟨classes, source⟩ line (point.getD line.byteLength)).render format = text) :
      Answers classes (.complete point format line) (if text.isEmpty then [] else writeLines [text])
  | split (point : Option Nat) (line : Text) :
      Answers classes (.split point line)
        (writeLines [listing classes line (point.getD line.byteLength)])

def Command.ReadsLine : Command → Prop
  | .complete .. | .split .. => True
  | _ => False

section Steps

variable {World : Type} {access : Access (StateM World)} {home : Text} {invocation : Invocation}
  {world after opened : World} {settings : Settings} {notes : List Text} {failure : Failure}

theorem run_of_unloaded
    (unloaded : (invocation.loadSettings access home).run world = (.error failure, after)) :
    (invocation.run access home).run world = (.failed [] failure, after) := by
  rw [Invocation.run, StateT.run_bind, unloaded]
  rfl

theorem run_of_unopened
    (loaded : (invocation.loadSettings access home).run world = (.ok (settings, notes), after))
    (unopened : (openLog access settings).run after = (.error failure, opened)) :
    (invocation.run access home).run world =
      ((Outcome.failed [] failure).withNotes notes, opened) := by
  rw [Invocation.run, StateT.run_bind, loaded]
  change StateT.run (openLog access settings >>= _) after = _
  rw [StateT.run_bind, unopened]
  rfl

theorem run_of_opened
    (loaded : (invocation.loadSettings access home).run world = (.ok (settings, notes), after))
    (ready : (openLog access settings).run after = (.ok (), opened)) :
    (invocation.run access home).run world =
      let performed := (invocation.perform access home settings).run opened
      (performed.1.withNotes notes, performed.2) := by
  rw [Invocation.run, StateT.run_bind, loaded]
  change StateT.run (openLog access settings >>= _) after = _
  rw [StateT.run_bind, ready]
  rfl

/-- A command that reads a line answers by the classes of the settings that it is done with. -/
theorem exists_answers_of_readsLine {command : Command} (asked : invocation.command = some command)
    (reads : command.ReadsLine) :
    ∃ text, command.Answers settings.lexer text ∧
      ((invocation.perform access home settings).run world).1 = .success text := by
  unfold Invocation.perform
  rw [asked]
  cases command with
  | complete point format line => exact ⟨_, .complete point format line _ rfl, rfl⟩
  | split point line => exact ⟨_, .split point line, rfl⟩
  | glue | interactive | settings | version => exact reads.elim

theorem run_of_readsLine {command : Command}
    (loaded : ((invocation.loadSettings access home).run world) = (.ok (settings, notes), after))
    (asked : invocation.command = some command) (reads : command.ReadsLine) :
    match ((openLog access settings).run after).1 with
    | .error failure =>
        ((invocation.run access home).run world).1 = (Outcome.failed [] failure).withNotes notes
    | .ok () => ∃ text, command.Answers settings.lexer text ∧
        ((invocation.run access home).run world).1 = (Outcome.success text).withNotes notes := by
  rcases ready : (openLog access settings).run after with ⟨_ | _, opened⟩
  · rw [run_of_unopened loaded ready]
  · obtain ⟨text, answers, written⟩ : ∃ text, command.Answers settings.lexer text ∧
        ((invocation.perform access home settings).run opened).1 = .success text :=
      exists_answers_of_readsLine asked reads
    refine ⟨text, answers, ?_⟩
    rw [run_of_opened loaded ready, ← written]

end Steps

/--
Every run works with valid settings.  Whatever the arguments are and whatever
the files hold, the settings of a run fail to load exactly when reading them
from the file fails, and with the same failure.  Otherwise they are valid, and
but for the log level they are the ones in the file if these are valid and the
standard ones if not.  So a command that reads a line splits it by classes that
have a delimiter, share no character and hold no quote, backslash or dollar,
which gives every character exactly one role.
-/
theorem runs_with_valid_settings {World : Type} (access : Access (StateM World)) (home : Text)
    (invocation : Invocation) (world : World) :
    let loaded := ((Settings.load access home invocation.settingsFile).run world).1
    let answer := (invocation.loadSettings access home).run world
    let outcome := ((invocation.run access home).run world).1
    (∀ failure, answer.1 = .error failure ↔ loaded = .error failure) ∧
      (∀ failure, answer.1 = .error failure → outcome = .failed [] failure) ∧
      ∀ settings notes, answer.1 = .ok (settings, notes) →
        settings.fault? = none ∧
          (∃ found, loaded = .ok found ∧
            let base := if found.fault? = none then found else Settings.standard home
            settings = { base with
              logging := { base.logging with
                level := invocation.logLevel base.logging.level } }) ∧
          (settings.lexer.delimiters ≠ [] ∧
            (∀ c ∈ settings.lexer.separators, c ∉ settings.lexer.delimiters) ∧
            (∀ c ∈ reservedChars,
              c ∉ settings.lexer.delimiters ∧ c ∉ settings.lexer.separators) ∧
            ∀ c, ∃! role, settings.lexer.Plays c role) ∧
          ∀ command, invocation.command = some command → command.ReadsLine →
            match ((openLog access settings).run answer.2).1 with
            | .error failure => outcome = (Outcome.failed [] failure).withNotes notes
            | .ok () => ∃ text, command.Answers settings.lexer text ∧
                outcome = (Outcome.success text).withNotes notes := by
  intro loaded answer outcome
  have answered : answer.1 =
      loaded.map fun found => (invocation.effective home found, warnings found) := rfl
  refine ⟨fun failure => ?_, fun failure unloaded => ?_, fun settings notes ready => ?_⟩
  · rw [answered]
    cases loaded <;> simp [Except.map]
  · exact congrArg Prod.fst (run_of_unloaded (Prod.ext unloaded rfl))
  · obtain ⟨found, read, same⟩ : ∃ found, loaded = .ok found ∧
        (invocation.effective home found, warnings found) = (settings, notes) := by
      rw [answered] at ready
      generalize loaded = loaded at ready
      cases loaded with
      | error failure => cases ready
      | ok found => exact ⟨found, rfl, Except.ok.inj ready⟩
    obtain ⟨rfl, rfl⟩ := Prod.mk.inj same
    have valid := fault?_effective invocation home found
    refine ⟨valid, ⟨found, read, effective_eq invocation home found⟩, ?_, ?_⟩
    · obtain ⟨some, apart, spared⟩ := Classes.sets_of_valid (Settings.fault?_lexer valid)
      refine ⟨some, apart, spared, ?_⟩
      exact ((Classes.fault?_eq_none_iff_roles _).mp (Settings.fault?_lexer valid)).2
    · intro command asked reads
      exact run_of_readsLine (Prod.ext ready rfl) asked reads

/--
A file whose separators delimit leaves the standard settings, its log level
dropped with the rest.  A valid one gives its own settings, with the log level
that was asked for, and one that is missing fails the run.
-/
theorem runs_with_valid_settings_files :
    let document (separators : Text) : Text :=
      "[lexer]\nseparators = \"".toList ++ separators ++ "\"\n[logging]\nlevel = \"error\"\n".toList
    let files : List (Text × Node) :=
      [("shared", .file (document "= ")), ("apart", .file (document ":"))]
    let tree : Tree := ⟨.directory [("cwd", .directory files)], ["cwd"]⟩
    let command : Command := .split none "a =b"
    let invocation (path : Text) (veryVerbose : Bool) : Invocation :=
      ⟨some path, false, false, veryVerbose, some command⟩
    let works (path : Text) (veryVerbose : Bool) (settings : Settings) : Prop :=
      ∃ notes, (((invocation path veryVerbose).loadSettings Tree.access "home").run tree).1 =
          .ok (settings, notes) ∧
        settings.fault? = none ∧ ∃ text, command.Answers settings.lexer text ∧
          (((invocation path veryVerbose).run Tree.access "home").run tree).1 =
            (Outcome.success text).withNotes notes
    works "shared" false (.standard "home") ∧
      works "apart" true
        { Settings.standard "home" with
          lexer := ⟨Classes.standard.delimiters, ":"⟩, logging := ⟨.trace, none, false⟩ } ∧
      (((invocation "gone" false).run Tree.access "home").run tree).1 =
        .failed [] (.settings (.fileNotFound "gone")) := by
  intro document files tree command invocation works
  have taken (path : Text) (veryVerbose : Bool) (settings : Settings)
      (found : (((invocation path veryVerbose).loadSettings Tree.access "home").run tree).1.toOption.map
        Prod.fst = some settings) (unlogged : settings.logging.filePath = none) :
      works path veryVerbose settings := by
    obtain ⟨_, _, valid⟩ :=
      runs_with_valid_settings Tree.access "home" (invocation path veryVerbose) tree
    unfold works
    generalize ((invocation path veryVerbose).loadSettings Tree.access "home").run tree = answer
      at found valid ⊢
    obtain ⟨_ | ⟨taken, notes⟩, after⟩ := answer
    · cases found
    obtain rfl : taken = settings := Option.some.inj found
    have opened : ((openLog Tree.access taken).run after).1 = .ok () := by
      rw [openLog, unlogged]
      rfl
    obtain ⟨accepted, _, _, answers⟩ := valid taken notes rfl
    have answered := answers command rfl trivial
    rw [opened] at answered
    exact ⟨notes, rfl, accepted, answered⟩
  refine ⟨taken _ _ _ (by decide +kernel) rfl, taken _ _ _ (by decide +kernel) rfl, ?_⟩
  obtain ⟨unloaded, fails, _⟩ :=
    runs_with_valid_settings Tree.access "home" (invocation "gone" false) tree
  exact fails _ ((unloaded _).mpr (congrArg Prod.fst (Settings.run_load_of_absent (by decide))))

end SerialCompletion.CommandLine
