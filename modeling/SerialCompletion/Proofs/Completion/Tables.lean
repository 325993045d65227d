import SerialCompletion.Proofs.Completion.Directories
import SerialCompletion.Proofs.Completion.Narrowing
import SerialCompletion.Proofs.Completion.Spans

/-!
# Candidates out of tables

Options, fixed values and devices are whole texts of a table, and a candidate
takes the place of the typed text.  An option goes on with the typed text as it
is written, and a value or a device with its literal value.  The two agree
where an option is offered, for no option is written with a quote or a
backslash.  So every candidate keeps the literal value that was typed, and
every text of the table that does so is offered, once and in the order of the
table.
-/

namespace SerialCompletion.Completion

open Catalogue Line

/-! ## The text that is matched -/

namespace Context

variable {position : Position} {cursor : Cursor} {kind : ArgumentKind} {matched : Text}

theorem optionName_eq_typed (context : ofPosition position cursor = .optionName matched) :
    matched = cursor.typed := by
  cases arises context
  rfl

/-- Only an argument with fixed values is completed as a value. -/
theorem value_eq_typed (context : ofPosition position cursor = .value kind matched) :
    matched = Word.literal cursor.typed ∧ ∃ values, kind.fixedValues? = some values := by
  cases arises context with
  | value waits fixed => exact ⟨rfl, _, fixed⟩

theorem device_eq_typed (context : ofPosition position cursor = .device matched) :
    matched = Word.literal cursor.typed := by
  cases arises context
  rfl

end Context

theorem literal_eq_of_optionName {typed name : Text} (listed : name ∈ optionNames)
    (begins : typed <+: name) : Word.literal typed = typed := by
  apply Word.literal_of_bare
  intro c member
  have within : c ∈ name := begins.subset member
  by_contra special
  rw [Word.isBare, Bool.not_eq_true, Bool.not_eq_false', Bool.or_eq_true, Bool.or_eq_true,
    beq_iff_eq, beq_iff_eq, beq_iff_eq] at special
  rcases special with (rfl | rfl) | rfl <;> exact IsName.not_mem (.inl listed) (by decide) within

/-- What the host completes by itself stands in for candidates and is added to none. -/
theorem candidates_eq_nil_of_fallback {source : Source} {start : Nat} {context : Context}
    (fallback : (offerFor source start context).hints.fallback ≠ none) :
    (offerFor source start context).candidates = [] := by
  cases context with
  | optionName | value | mapList | nothing => exact absurd rfl fallback
  | file | command => rfl
  | device typed =>
      rw [offerFor_device_candidates]
      cases devices : source.devices typed with
      | nil => rfl
      | cons path paths =>
          simp only [offerFor, devices] at fallback
          exact absurd rfl fallback

/-! ## What is picked from a table -/

/-- The candidates that a table gives for a typed text: those of its texts that begin with a
text, once and in the order of the table, and all with the literal value that is typed. -/
structure Picked (typed matched : Text) (table candidates : List Text) : Prop where
  candidates_eq : candidates = Text.beginningWith matched table
  begins : ∀ candidate ∈ candidates, Word.literal typed <+: candidate
  distinct : candidates.Nodup

namespace Picked

variable {typed : Text} {table : List Text}

theorem of_literal (distinct : table.Nodup) :
    Picked typed (Word.literal typed) table (Text.beginningWith (Word.literal typed) table) where
  candidates_eq := rfl
  begins _ member := List.isPrefixOf_iff_prefix.mp (List.mem_filter.mp member).2
  distinct := distinct.filter _

theorem of_options (typed : Text) :
    Picked typed typed optionNames (Text.beginningWith typed optionNames) where
  candidates_eq := rfl
  begins _ member := by
    obtain ⟨listed, begins⟩ := List.mem_filter.mp member
    rw [List.isPrefixOf_iff_prefix] at begins
    rw [literal_eq_of_optionName listed begins]
    exact begins
  distinct := (nodup_of_isTable isTable_optionNames).filter _

end Picked

/--
The offer is what the tables hold for the typed text.  Whatever the line is,
wherever the cursor stands and however words are split, the text from the start
of the offer to the clamped cursor decides.  Option names are offered if they
begin with this text, and the fixed values of an argument and the devices of a
directory if they begin with its literal value.  All of these are offered, each
once and in the order of the table, and none changes the literal value that was
typed.  Devices are the paths of the names in the directory that begin like
one, in the order of their bytes.  The host is left to complete by itself only
where nothing is offered.
-/
theorem offer_picks (classes : Classes) (directory : Text) (beginnings : List Text)
    {names : List Text} (distinct : names.Nodup) (line : Text) (offset : Nat) :
    let devices := devicePaths directory beginnings names
    let offer := Completer.offer ⟨classes, .picocom devices⟩ line offset
    let context := Context.ofCursor (Cursor.ofLine classes line offset)
    ∃ typed, Text.between? line offer.start (Text.clamp line offset) = some typed ∧
      (∀ matched, context = .optionName matched →
        Picked typed typed optionNames offer.candidates) ∧
      (∀ kind matched, context = .value kind matched →
        ∃ values, kind.fixedValues? = some values ∧
          Picked typed (Word.literal typed) values offer.candidates) ∧
      (∀ matched, context = .device matched →
        Picked typed (Word.literal typed) devices offer.candidates ∧
          (offer.candidates.Pairwise fun first second => Text.bytes first < Text.bytes second) ∧
          ∀ path, path ∈ offer.candidates ↔
            Word.literal typed <+: path ∧
              ∃ name ∈ names, (∃ beginning ∈ beginnings, beginning <+: name) ∧
                path = Files.joinPath directory name) ∧
      (offer.hints.fallback ≠ none → offer.candidates = []) := by
  intro devices offer context
  let cursor := Cursor.ofLine classes line offset
  have contextEq : context = .ofPosition (Position.ofWords cursor.before) cursor := rfl
  have offerEq : offer = offerFor (.picocom devices) cursor.start context := rfl
  have candidates : offer.candidates = Text.beginningWith context.matched (context.pool devices) :=
    offerFor_candidates devices cursor.start context
  obtain ⟨front, follows⟩ := Cursor.exists_follows classes line offset
  have between : Text.between? line offer.start (Text.clamp line offset) = some cursor.typed := by
    rw [Completer.offer_start]
    exact follows.between?_start
  refine ⟨cursor.typed, between, ?_, ?_, ?_, candidates_eq_nil_of_fallback⟩
  · intro matched given
    rw [candidates, given]
    rw [contextEq] at given
    rw [Context.matched, Context.optionName_eq_typed given]
    exact .of_options cursor.typed
  · intro kind matched given
    rw [candidates, given]
    rw [contextEq] at given
    obtain ⟨matchedEq, values, fixed⟩ := Context.value_eq_typed given
    refine ⟨values, fixed, ?_⟩
    have noRepetition := nodup_of_isTable (isTable_fixedValues kind)
    rw [fixed] at noRepetition
    rw [Context.matched, matchedEq, Context.pool, fixed]
    exact .of_literal noRepetition
  · intro matched given
    rw [candidates, given]
    rw [contextEq] at given
    rw [Context.matched, Context.device_eq_typed given]
    refine ⟨.of_literal (nodup_devicePaths distinct), (pairwise_devicePaths distinct).filter _, ?_⟩
    intro path
    rw [Text.beginningWith, List.mem_filter, List.isPrefixOf_iff_prefix, and_comm]
    exact and_congr_right fun _ => mem_devicePaths

/-- Two of three names in a directory, behind an open quote with which no device begins. -/
theorem offer_picks_ttyUSB :
    let names : List Text := ["ttyUSB1", "null", "ttyUSB0"]
    let devices := devicePaths "/dev" ["ttyUSB"] names
    let line : Text := "picocom '/dev/tty"
    let quoted : Text := "'/dev/tty"
    let offer := Completer.offer ⟨.standard, .picocom devices⟩ line line.byteLength
    names.Nodup ∧
      Context.ofCursor (Cursor.ofLine .standard line line.byteLength) = .device "/dev/tty" ∧
      Text.between? line offer.start (Text.clamp line line.byteLength) = some quoted ∧
      Picked quoted (Word.literal quoted) devices offer.candidates ∧
      offer.candidates = [("/dev/ttyUSB0" : Text), "/dev/ttyUSB1"] := by
  intro names devices line quoted offer
  have distinct : names.Nodup := by decide +kernel
  have context : Context.ofCursor (Cursor.ofLine .standard line line.byteLength) =
      .device "/dev/tty" := by
    decide +kernel
  have replaced : Text.between? line offer.start (Text.clamp line line.byteLength) = some quoted := by
    rw [Completer.offer_start]
    decide +kernel
  obtain ⟨typed, between, -, -, picked, -⟩ :=
    offer_picks .standard "/dev" ["ttyUSB"] distinct line line.byteLength
  have typedEq : typed = quoted := Option.some.inj (between.symm.trans replaced)
  rw [typedEq] at picked
  have found : (names.filter (isDeviceName ["ttyUSB"])).map (Files.joinPath "/dev") =
      ["/dev/ttyUSB1", "/dev/ttyUSB0"] := by
    decide +kernel
  have listed : devices = [("/dev/ttyUSB0" : Text), "/dev/ttyUSB1"] := by
    simp only [devices, devicePaths, Text.sorted, found]
    simp [List.mergeSort, List.MergeSort.Internal.splitInTwo, Text.notAfter]
  have whole : Picked quoted (Word.literal quoted) devices offer.candidates := (picked _ context).1
  refine ⟨distinct, context, replaced, whole, ?_⟩
  rw [whole.candidates_eq, listed]
  decide +kernel

end SerialCompletion.Completion
