import Mathlib.Logic.ExistsUnique
import SerialCompletion.Proofs.Completion.Positions

/-!
# The grammar of argument lists

Behind the program name an argument list is a sequence of complete arguments
and a remainder that the end of the list cuts off.  Every list of words can be
read in this way, and in no other.  A complete argument leads the position back
among the arguments, so the position behind the list is the one that the
remainder leaves open.
-/

namespace SerialCompletion.Completion

open Catalogue

/-- Whether a word spells an option that takes a value of a kind. -/
def AsksFor (word : Text) (kind : ArgumentKind) : Prop :=
  ∃ entry ∈ options, word ∈ entry.spellings ∧ entry.argument = kind ∧ kind.takesValue = true

instance (word : Text) (kind : ArgumentKind) : Decidable (AsksFor word kind) :=
  List.decidableBEx _ _

inductive Argument where
  /-- A word that takes no value: a flag, an operand or an unknown option. -/
  | single (word : Text) (noEnd : word ≠ endOfOptions) (asksNothing : ∀ kind, ¬ AsksFor word kind)
  | valued (spelling : Text) (kind : ArgumentKind) (asks : AsksFor spelling kind) (value : Text)
      (noEquals : value ≠ ['='])
  | assigned (spelling : Text) (kind : ArgumentKind) (asks : AsksFor spelling kind) (value : Text)

def Argument.words : Argument → List Text
  | .single word _ _ => [word]
  | .valued spelling _ _ value _ => [spelling, value]
  | .assigned spelling _ _ value => [spelling, ['='], value]

inductive Remainder where
  | nothing
  | expecting (spelling : Text) (kind : ArgumentKind) (asks : AsksFor spelling kind)
  | assigning (spelling : Text) (kind : ArgumentKind) (asks : AsksFor spelling kind)
  | operands (rest : List Text)

namespace Remainder

def words : Remainder → List Text
  | .nothing => []
  | .expecting spelling _ _ => [spelling]
  | .assigning spelling _ _ => [spelling, ['=']]
  | .operands rest => endOfOptions :: rest

def position : Remainder → Position
  | .nothing => .arguments
  | .expecting _ kind _ => .expectValue kind
  | .assigning _ kind _ => .afterEquals kind
  | .operands _ => .operands

end Remainder

/-- The words behind the program name, as complete arguments and a remainder. -/
structure ArgumentList where
  arguments : List Argument
  remainder : Remainder

def ArgumentList.words (list : ArgumentList) : List Text :=
  list.arguments.flatMap Argument.words ++ list.remainder.words

/-! ## Words that ask for a value -/

section Asking

variable {word : Text} {kind other : ArgumentKind}

theorem AsksFor.findOption? (asks : AsksFor word kind) :
    ∃ entry, findOption? word = some entry ∧ entry.argument = kind := by
  obtain ⟨entry, listed, spelled, same, _⟩ := asks
  exact ⟨entry, findOption?_of_mem_spellings listed spelled, same⟩

theorem AsksFor.unique (asks : AsksFor word kind) (again : AsksFor word other) : kind = other := by
  obtain ⟨entry, found, rfl⟩ := asks.findOption?
  obtain ⟨same, foundAgain, rfl⟩ := again.findOption?
  rw [found] at foundAgain
  cases foundAgain
  rfl

theorem asksFor_of_findOption? {entry : OptionEntry} (found : findOption? word = some entry)
    (takes : entry.argument.takesValue = true) : AsksFor word entry.argument := by
  have spelled : entry.spellings.contains word = true :=
    List.find?_some (p := fun entry : OptionEntry => entry.spellings.contains word) found
  exact ⟨entry, List.mem_of_find?_eq_some found, List.contains_iff_mem.mp spelled, rfl, takes⟩

theorem AsksFor.ne_endOfOptions (asks : AsksFor word kind) : word ≠ endOfOptions := by
  have none : Catalogue.findOption? endOfOptions = none := by decide +kernel
  rintro rfl
  obtain ⟨entry, found, _⟩ := asks.findOption?
  rw [none] at found
  cases found

theorem AsksFor.ne_flag (asks : AsksFor word kind) : kind ≠ .flag := by
  obtain ⟨_, _, _, _, takes⟩ := asks
  rintro rfl
  cases takes

theorem AsksFor.next (asks : AsksFor word kind) :
    Position.next .arguments word = .expectValue kind := by
  obtain ⟨entry, listed, spelled, rfl, takes⟩ := asks
  rw [Position.next_spelling listed spelled, takes]
  rfl

/-- A word that asks for nothing and does not end the options leaves the position as it is. -/
theorem next_of_asksNothing (noEnd : word ≠ endOfOptions)
    (asksNothing : ∀ kind, ¬ AsksFor word kind) : Position.next .arguments word = .arguments := by
  rw [Position.next, Position.afterArgument, if_neg noEnd]
  cases found : Catalogue.findOption? word with
  | none => rfl
  | some entry => exact if_neg fun takes => asksNothing _ (asksFor_of_findOption? found takes)

end Asking

/-! ## The position behind a list -/

section Positions

theorem Position.after_append (position : Position) (first second : List Text) :
    position.after (first ++ second) = (position.after first).after second :=
  List.foldl_append

theorem Position.after_operands (words : List Text) : Position.operands.after words = .operands := by
  induction words with
  | nil => rfl
  | cons word rest ih => exact ih

/-- A complete argument leads back among the arguments. -/
theorem Argument.after_words (argument : Argument) :
    Position.arguments.after argument.words = .arguments := by
  cases argument with
  | single word noEnd asksNothing => exact next_of_asksNothing noEnd asksNothing
  | valued spelling kind asks value noEquals =>
      change (Position.next .arguments spelling).next value = .arguments
      rw [asks.next]
      exact if_neg noEquals
  | assigned spelling kind asks value =>
      change ((Position.next .arguments spelling).next ['=']).next value = .arguments
      rw [asks.next]
      rfl

theorem Remainder.after_words (remainder : Remainder) :
    Position.arguments.after remainder.words = remainder.position := by
  cases remainder with
  | nothing => rfl
  | expecting spelling kind asks => exact asks.next
  | assigning spelling kind asks =>
      change (Position.next .arguments spelling).next ['='] = _
      rw [asks.next]
      rfl
  | operands rest => exact Position.after_operands rest

/-- The position behind an argument list is the one that its remainder leaves open. -/
theorem ArgumentList.after_words (list : ArgumentList) :
    Position.arguments.after list.words = list.remainder.position := by
  obtain ⟨arguments, remainder⟩ := list
  induction arguments with
  | nil => exact remainder.after_words
  | cons argument rest ih =>
      change Position.arguments.after
        ((argument :: rest).flatMap Argument.words ++ remainder.words) = _
      rw [List.flatMap_cons, List.append_assoc, Position.after_append, argument.after_words]
      exact ih

end Positions

/-! ## Every list of words can be read -/

/-- Words are a remainder, or a complete argument stands in front. -/
theorem exists_front (words : List Text) :
    (∃ remainder : Remainder, remainder.words = words) ∨
      ∃ (argument : Argument) (rest : List Text), argument.words ++ rest = words := by
  cases words with
  | nil => exact .inl ⟨.nothing, rfl⟩
  | cons word rest =>
      by_cases ends : word = endOfOptions
      · subst ends
        exact .inl ⟨.operands rest, rfl⟩
      by_cases asking : ∃ kind, AsksFor word kind
      · obtain ⟨kind, asks⟩ := asking
        cases rest with
        | nil => exact .inl ⟨.expecting word kind asks, rfl⟩
        | cons value rest =>
            by_cases equals : value = ['=']
            · subst equals
              cases rest with
              | nil => exact .inl ⟨.assigning word kind asks, rfl⟩
              | cons value rest => exact .inr ⟨.assigned word kind asks value, rest, rfl⟩
            · exact .inr ⟨.valued word kind asks value equals, rest, rfl⟩
      · exact .inr ⟨.single word ends (not_exists.mp asking), rest, rfl⟩

theorem Argument.words_ne_nil (argument : Argument) : argument.words ≠ [] := by
  cases argument <;> exact List.cons_ne_nil _ _

theorem exists_argumentList (words : List Text) : ∃ list : ArgumentList, list.words = words := by
  induction length : words.length using Nat.strongRecOn generalizing words with
  | ind count ih =>
      rcases exists_front words with ⟨remainder, rfl⟩ | ⟨argument, rest, rfl⟩
      · exact ⟨⟨[], remainder⟩, rfl⟩
      · have shorter : rest.length < count := by
          have some := List.length_pos_iff.mpr argument.words_ne_nil
          rw [← length, List.length_append]
          omega
        obtain ⟨⟨arguments, remainder⟩, rfl⟩ := ih _ shorter rest rfl
        exact ⟨⟨argument :: arguments, remainder⟩, by simp [ArgumentList.words]⟩

/-! ## No list of words can be read in two ways -/

section Unique

theorem Argument.words_append_inj {first second : Argument} {rest others : List Text}
    (same : first.words ++ rest = second.words ++ others) : first = second ∧ rest = others := by
  cases first with
  | single word noEnd asksNothing =>
      cases second with
      | single => cases same; exact ⟨rfl, rfl⟩
      | valued _ kind asks | assigned _ kind asks =>
          cases same
          exact absurd asks (asksNothing kind)
  | valued spelling kind asks value noEquals =>
      cases second with
      | single _ _ asksNothing =>
          cases same
          exact absurd asks (asksNothing kind)
      | valued _ other again =>
          cases same
          cases asks.unique again
          exact ⟨rfl, rfl⟩
      | assigned =>
          cases same
          exact absurd rfl noEquals
  | assigned spelling kind asks value =>
      cases second with
      | single _ _ asksNothing =>
          cases same
          exact absurd asks (asksNothing kind)
      | valued _ _ _ _ noEquals =>
          cases same
          exact absurd rfl noEquals
      | assigned _ other again =>
          cases same
          cases asks.unique again
          exact ⟨rfl, rfl⟩

/-- No complete argument stands in front of a remainder. -/
theorem Argument.words_append_ne (argument : Argument) (rest : List Text) (remainder : Remainder) :
    argument.words ++ rest ≠ remainder.words := by
  intro same
  cases argument with
  | single word noEnd asksNothing =>
      cases remainder with
      | nothing => cases same
      | expecting _ kind asks | assigning _ kind asks =>
          cases same
          exact asksNothing kind asks
      | operands =>
          cases same
          exact noEnd rfl
  | valued spelling kind asks value noEquals =>
      cases remainder with
      | nothing | expecting => cases same
      | assigning =>
          cases same
          exact noEquals rfl
      | operands =>
          cases same
          exact asks.ne_endOfOptions rfl
  | assigned spelling kind asks value =>
      cases remainder with
      | nothing | expecting | assigning => cases same
      | operands =>
          cases same
          exact asks.ne_endOfOptions rfl

theorem Remainder.words_injective : Function.Injective Remainder.words := by
  intro first second same
  cases first with
  | nothing =>
      cases second with
      | nothing => rfl
      | expecting | assigning | operands => cases same
  | expecting spelling kind asks =>
      cases second with
      | nothing | assigning => cases same
      | expecting _ other again =>
          cases same
          cases asks.unique again
          rfl
      | operands =>
          cases same
          exact absurd rfl asks.ne_endOfOptions
  | assigning spelling kind asks =>
      cases second with
      | nothing | expecting => cases same
      | assigning _ other again =>
          cases same
          cases asks.unique again
          rfl
      | operands =>
          cases same
          exact absurd rfl asks.ne_endOfOptions
  | operands rest =>
      cases second with
      | nothing => cases same
      | expecting _ _ asks | assigning _ _ asks =>
          cases same
          exact absurd rfl asks.ne_endOfOptions
      | operands => cases same; rfl

theorem ArgumentList.words_injective : Function.Injective ArgumentList.words := by
  rintro ⟨arguments, remainder⟩ ⟨others, other⟩ same
  induction arguments generalizing others with
  | nil =>
      cases others with
      | nil =>
          cases Remainder.words_injective same
          rfl
      | cons argument others =>
          simp only [words, List.flatMap_cons, List.append_assoc] at same
          exact absurd same.symm (argument.words_append_ne _ remainder)
  | cons argument arguments ih =>
      cases others with
      | nil =>
          simp only [words, List.flatMap_cons, List.append_assoc] at same
          exact absurd same (argument.words_append_ne _ other)
      | cons argument' others =>
          simp only [words, List.flatMap_cons, List.append_assoc] at same
          obtain ⟨rfl, behind⟩ := Argument.words_append_inj same
          cases ih others behind
          rfl

end Unique

/-! ## The position read off the words -/

theorem Position.ofWords_cons (program : Text) (rest : List Text) :
    ofWords (program :: rest) = Position.arguments.after rest :=
  rfl

theorem Position.ofWords_append (words more : List Text) :
    ofWords (words ++ more) = (ofWords words).after more :=
  after_append .start words more

theorem Position.ofWords_eq_start_iff (words : List Text) : ofWords words = .start ↔ words = [] := by
  cases words with
  | nil => exact ⟨fun _ => rfl, fun _ => rfl⟩
  | cons program rest =>
      obtain ⟨list, rfl⟩ := exists_argumentList rest
      rw [ofWords_cons, list.after_words]
      constructor
      · intro start
        cases remainder : list.remainder <;> rw [remainder] at start <;> cases start
      · intro none
        cases none

/-- No position waits for the value of a flag. -/
theorem Position.ofWords_ne_flag (words : List Text) :
    ofWords words ≠ .expectValue .flag ∧ ofWords words ≠ .afterEquals .flag := by
  cases words with
  | nil => exact ⟨Position.noConfusion, Position.noConfusion⟩
  | cons program rest =>
      obtain ⟨list, rfl⟩ := exists_argumentList rest
      rw [ofWords_cons, list.after_words]
      cases list.remainder with
      | nothing | operands => exact ⟨Position.noConfusion, Position.noConfusion⟩
      | expecting spelling kind asks =>
          refine ⟨fun flag => ?_, Position.noConfusion⟩
          cases flag
          exact asks.ne_flag rfl
      | assigning spelling kind asks =>
          refine ⟨Position.noConfusion, fun flag => ?_⟩
          cases flag
          exact asks.ne_flag rfl

/--
The position recognises the grammar of argument lists.  It is the start exactly
in front of the program name.  Behind the name, the words can be read in one
way only as complete arguments and a remainder, and the position names the
remainder: none, an option that waits for its value, an option with an equals
sign, or the end of the options.  So a word that is taken as a value is
nothing else, whatever it spells, nothing follows the end of the options but
operands, and no flag ever waits for a value.
-/
theorem ofWords_reads (words : List Text) :
    (Position.ofWords words = .start ↔ words = []) ∧
      (∀ program rest, words = program :: rest →
        (∃! list : ArgumentList, list.words = rest) ∧
        ∀ list : ArgumentList, list.words = rest →
          (Position.ofWords words = .arguments ↔ list.remainder = .nothing) ∧
          (∀ kind, Position.ofWords words = .expectValue kind ↔
            ∃ spelling asks, list.remainder = .expecting spelling kind asks) ∧
          (∀ kind, Position.ofWords words = .afterEquals kind ↔
            ∃ spelling asks, list.remainder = .assigning spelling kind asks) ∧
          (Position.ofWords words = .operands ↔ ∃ rest, list.remainder = .operands rest)) ∧
      (∀ kind value, Position.ofWords words = .expectValue kind ∧ value ≠ ['='] ∨
          Position.ofWords words = .afterEquals kind →
        Position.ofWords (words ++ [value]) = .arguments) ∧
      (Position.ofWords words = .operands →
        ∀ more, Position.ofWords (words ++ more) = .operands) ∧
      Position.ofWords words ≠ .expectValue .flag ∧ Position.ofWords words ≠ .afterEquals .flag := by
  refine ⟨Position.ofWords_eq_start_iff words, ?_, ?_, ?_, Position.ofWords_ne_flag words⟩
  · rintro program rest rfl
    refine ⟨?_, ?_⟩
    · obtain ⟨list, read⟩ := exists_argumentList rest
      exact ⟨list, read, fun other again => ArgumentList.words_injective (again.trans read.symm)⟩
    · rintro list rfl
      rw [Position.ofWords_cons, list.after_words]
      cases list.remainder with
      | nothing | operands => simp [Remainder.position]
      | expecting _ _ asks | assigning _ _ asks => simp [Remainder.position, asks]
  · rintro kind value (⟨expects, noEquals⟩ | equals)
    · rw [Position.ofWords_concat, expects]
      exact if_neg noEquals
    · rw [Position.ofWords_concat, equals]
      rfl
  · intro operands more
    rw [Position.ofWords_append, operands, Position.after_operands]

/-- The end of the options as a value, twice, and then an option that waits for its value. -/
theorem ofWords_reads_value :
    let rest : List Text := ["--imap", "--", "-b", "=", "--", "x", "--baud"]
    let words : List Text := "picocom" :: rest
    ∃ list : ArgumentList, list.words = rest ∧ list.arguments.length = 3 ∧
      Position.ofWords words = .expectValue .baud ∧
      Position.ofWords (words ++ [endOfOptions]) = .arguments := by
  intro rest words
  have asksList : AsksFor "--imap" .mapList := by decide +kernel
  have asksShort : AsksFor "-b" .baud := by decide +kernel
  have asksLong : AsksFor "--baud" .baud := by decide +kernel
  have asksNothing (kind : ArgumentKind) : ¬ AsksFor ['x'] kind := by
    intro asks
    obtain ⟨entry, found, _⟩ := asks.findOption?
    rw [findOption?_eq_none (by decide)] at found
    cases found
  let list : ArgumentList :=
    ⟨[.valued "--imap" .mapList asksList "--" (by decide), .assigned "-b" .baud asksShort "--",
      .single ['x'] (by decide) asksNothing], .expecting "--baud" .baud asksLong⟩
  have read : list.words = rest := rfl
  obtain ⟨_, reads, consumes, _⟩ := ofWords_reads words
  have expects : Position.ofWords words = .expectValue .baud :=
    (((reads "picocom" rest rfl).2 list read).2.1 .baud).mpr ⟨"--baud", asksLong, rfl⟩
  exact ⟨list, read, rfl, expects, consumes .baud endOfOptions (.inl ⟨expects, by decide⟩)⟩

end SerialCompletion.Completion
