import SerialCompletion.Proofs.Completion.Candidates
import SerialCompletion.Proofs.Completion.Positions
import SerialCompletion.Proofs.Line.Cursor
import SerialCompletion.Proofs.Line.Names

/-!
# Offers at the end of a line

An offer shows its candidates, its hints, and how much of the line a candidate
replaces.  At the end of a line all three are settled by the text behind a
break and by the position that the words in front of it lead to.  Which words
these are, and how far down the line the text stands, makes no difference.
-/

namespace SerialCompletion.Completion

open Line

/-- What an offer shows, wherever in a line it is made. -/
structure Display where
  candidates : List Text
  hints : Hints
  /-- How many bytes in front of the cursor a candidate replaces. -/
  replaced : Nat
  deriving DecidableEq, Repr

namespace Completer

def displayAtEnd (completer : Completer) (line : Text) : Display :=
  let offer := completer.offer line line.byteLength
  ⟨offer.candidates, offer.hints, line.byteLength - offer.start⟩

def display (completer : Completer) (position : Position) (cursor : Cursor) : Display :=
  let offer := offerFor completer.source cursor.start (Context.ofPosition position cursor)
  ⟨offer.candidates, offer.hints, cursor.typed.byteLength⟩

def displayBehind (completer : Completer) (position : Position) (text : Text) : Display :=
  let cursor := Cursor.ofLine completer.classes text text.byteLength
  completer.display (position.after cursor.before) cursor

end Completer

theorem offerFor_eq_of_start (source : Source) (first second : Nat) (context : Context) :
    (offerFor source first context).candidates = (offerFor source second context).candidates ∧
      (offerFor source first context).hints = (offerFor source second context).hints := by
  cases context with
  | device typed =>
      simp only [offerFor]
      split <;> exact ⟨rfl, rfl⟩
  | optionName | value | mapList | file | command | nothing => exact ⟨rfl, rfl⟩

theorem Context.ofPosition_eq_of_current (position : Position) (first second : List Text)
    (current : Text) (offset other : Nat) (run : Bool) :
    ofPosition position ⟨first, current, offset, run⟩ =
      ofPosition position ⟨second, current, other, run⟩ := by
  cases position <;> rfl

namespace Completer

variable {completer : Completer} {line front text last : Text} {earlier settled : List Text}

theorem display_eq {position : Position} {first second : Cursor}
    (context : Context.ofPosition position first = Context.ofPosition position second)
    (typed : first.typed = second.typed) :
    completer.display position first = completer.display position second := by
  obtain ⟨candidates, hints⟩ := offerFor_eq_of_start completer.source first.start second.start
    (Context.ofPosition position second)
  rw [display, display, context, candidates, hints, typed]

/-- The distance from the start of an offer to the end of the line is the length of the typed text. -/
theorem displayAtEnd_eq (completer : Completer) (line : Text) :
    completer.displayAtEnd line =
      completer.display (.ofWords (Cursor.ofLine completer.classes line line.byteLength).before)
        (Cursor.ofLine completer.classes line line.byteLength) := by
  obtain ⟨front, follows⟩ := Cursor.exists_follows completer.classes line line.byteLength
  have length := follows.start_add_typed
  have atEnd : (Cursor.ofLine completer.classes line line.byteLength).offset = line.byteLength := by
    change Text.clamp line line.byteLength = line.byteLength
    rw [Text.clamp, Text.takeBytes_byteLength]
  have distance : line.byteLength - (completer.offer line line.byteLength).start =
      (Cursor.ofLine completer.classes line line.byteLength).typed.byteLength := by
    rw [offer, offerFor_start]
    omega
  rw [displayAtEnd, distance]
  rfl

/-- What is shown at the end of a line, seen through the words of the line. -/
theorem displayAtEnd_of_words (read : words completer.classes line = earlier ++ [last]) :
    completer.displayAtEnd line =
      completer.display (.ofWords earlier)
        ⟨earlier, last, line.byteLength, completer.classes.isSeparatorRun last⟩ := by
  rw [displayAtEnd_eq, Cursor.ofLine_byteLength read]

/-- Text that is read on its own is completed as its position says. -/
theorem displayAtEnd_append
    (read : words completer.classes (front ++ text) = settled ++ words completer.classes text) :
    completer.displayAtEnd (front ++ text) = completer.displayBehind (.ofWords settled) text := by
  obtain ⟨inner, last, alone⟩ := exists_words_eq completer.classes text
  rw [alone, ← List.append_assoc] at read
  rw [displayAtEnd_of_words read, displayBehind]
  simp only [Cursor.ofLine_byteLength alone, Position.ofWords, Position.after, List.foldl_append]
  exact display_eq (Context.ofPosition_eq_of_current _ _ _ _ _ _ _) rfl

end Completer

/-!
## The forms of an option's value

The value of an option may stand behind an equals sign, behind a space, or
behind an equals sign with spaces around it.  The three lines have different
words and pass through different positions, and right behind an equals sign a
run of separators takes the place of the empty word.  All of them break where
the value begins, so the value is read on its own in each, and a value that does
not begin with a separator keeps its place at either position.
-/

open Catalogue

/-! ## Words behind an option -/

section Words

variable {classes : Classes} {before name : Text} {earlier : List Text}

/-- A name behind a break is read with what follows it. -/
theorem words_before_name (spares : classes.SparesNames) (named : IsName name)
    (breaks : Breaks classes before earlier) (text : Text) :
    words classes (before ++ name ++ text) = earlier ++ words classes (name ++ text) := by
  rw [List.append_assoc]
  exact breaks.words_append_ordinary ((spares.passes named).startsOrdinary.append text)

end Words

/-! ## Positions behind an option -/

section Positions

variable {kind : ArgumentKind} {words : List Text}

/-- Behind its equals sign an option waits for its value as it does without one, unless another
equals sign comes first. -/
theorem Position.after_expectValue {word : Text} (noEquals : word ≠ ['=']) (rest : List Text) :
    after (.expectValue kind) (word :: rest) = after (.afterEquals kind) (word :: rest) := by
  change after (next (.expectValue kind) word) rest = after .arguments rest
  rw [next, if_neg noEquals]

theorem Completer.display_afterEquals (completer : Completer) (cursor : Cursor)
    (noEquals : words.head? ≠ some ['=']) :
    completer.display (Position.after (.expectValue kind) words) cursor =
      completer.display (Position.after (.afterEquals kind) words) cursor := by
  cases words with
  | nil => rfl
  | cons word rest =>
      have other : word ≠ ['='] := fun same => noEquals (congrArg some same)
      rw [Position.after_expectValue other]

end Positions

/-! ## The value behind each form -/

section Forms

variable {source : Source} {kind : ArgumentKind} {front value : Text} {settled : List Text}

/-- Whether a text is empty, all delimiters, or goes on with no separator behind its delimiters. -/
def StartsValue (classes : Classes) (value : Text) : Prop :=
  ∀ c ∈ (value.dropWhile classes.isDelimiter).head?, classes.isSeparator c = false

instance (classes : Classes) (value : Text) : Decidable (StartsValue classes value) :=
  Option.decidableForallMem _

theorem standard_not_both {c : Char} (delimits : Classes.standard.isDelimiter c = true) :
    Classes.standard.isSeparator c = false := by
  have member : c ∈ [' ', '\t', '\n'] := List.contains_iff_mem.mp delimits
  simp only [List.mem_cons, List.not_mem_nil, or_false] at member
  rcases member with rfl | rfl | rfl <;> rfl

theorem StartsValue.head (starts : StartsValue .standard value) :
    ∀ c ∈ value.head?, Classes.standard.isSeparator c = false := by
  intro c first
  cases value with
  | nil => cases first
  | cons d rest =>
      cases first
      cases delimits : Classes.standard.isDelimiter c with
      | true => exact standard_not_both delimits
      | false =>
          apply starts
          rw [List.dropWhile_cons_of_neg (Bool.eq_false_iff.mp delimits)]
          rfl

/-- The first word of a value is not an equals sign. -/
theorem StartsValue.head?_ne (starts : StartsValue .standard value)
    {inner : List Text} {last : Text} (read : words .standard value = inner ++ [last]) :
    inner.head? ≠ some ['='] := by
  intro first
  have whole : (words .standard value).head? = some ['='] := by
    rw [read, List.head?_append, first]
    rfl
  have separates := starts '=' (head?_of_head?_words whole)
  cases separates

/-- A value is completed alike where an option waits for it and behind the equals sign. -/
theorem displayBehind_afterEquals (starts : StartsValue .standard value) :
    Completer.displayBehind ⟨.standard, source⟩ (.expectValue kind) value =
      Completer.displayBehind ⟨.standard, source⟩ (.afterEquals kind) value := by
  obtain ⟨inner, last, read⟩ := exists_words_eq .standard value
  unfold Completer.displayBehind
  simp only [Cursor.ofLine_byteLength read]
  exact Completer.display_afterEquals _ _ (starts.head?_ne read)

theorem displayAtEnd_gap {classes : Classes} (read : words classes front = settled ++ [[]]) (value : Text) :
    Completer.displayAtEnd ⟨classes, source⟩ (front ++ value) =
      Completer.displayBehind ⟨classes, source⟩ (.ofWords settled) value :=
  Completer.displayAtEnd_append (words_append_of_gap read value)

/-- A value right behind an equals sign, which an empty value leaves under the cursor. -/
theorem displayAtEnd_equals (read : words .standard front = settled ++ [['=']])
    (waits : Position.ofWords settled = .expectValue kind) (starts : StartsValue .standard value) :
    Completer.displayAtEnd ⟨.standard, source⟩ (front ++ value) =
      Completer.displayBehind ⟨.standard, source⟩ (.expectValue kind) value := by
  have run : Classes.standard.isSeparatorRun ['='] = true := by decide
  by_cases none : value = []
  · rw [none, List.append_nil, Completer.displayAtEnd_of_words read, waits]
    exact Completer.display_eq rfl rfl
  · obtain ⟨c, rest, valueEq⟩ := List.exists_cons_of_ne_nil none
    have first : value.head? = some c := by rw [valueEq]; rfl
    have ends : EndsRun .standard front value := .of_head first (starts.head c first)
    have breaks := Breaks.of_separators_last read run
    have reached : Position.ofWords (settled ++ [['=']]) = .afterEquals kind := by
      rw [Position.ofWords_concat, waits]
      rfl
    rw [Completer.displayAtEnd_append (breaks.words_append ends), reached,
      displayBehind_afterEquals starts]

end Forms

/--
The forms of an option's value are completed alike.  Let a line end behind a
gap among the arguments, and let an option follow that takes a value.  Then any
text that does not go on with a separator behind its delimiters is completed
behind an equals sign, behind a space, and behind an equals sign with spaces
around it in the same way: the candidates, the hints, and the distance from
the start of the offer to the end of the line are the same in all three lines.
-/
theorem displayAtEnd_valueForms (source : Source) {before spelling value : Text}
    {earlier : List Text} {entry : OptionEntry}
    (read : split .standard before before.byteLength = earlier ++ [[]])
    (among : Position.ofWords earlier = .arguments) (listed : entry ∈ options)
    (spelled : spelling ∈ entry.spellings) (takes : entry.argument.takesValue = true)
    (starts : StartsValue .standard value) :
    let shown := Completer.displayAtEnd ⟨.standard, source⟩
    shown (before ++ spelling ++ ['='] ++ value) = shown (before ++ spelling ++ [' '] ++ value) ∧
      shown (before ++ spelling ++ [' ', '=', ' '] ++ value) =
        shown (before ++ spelling ++ [' '] ++ value) := by
  intro shown
  rw [split_byteLength] at read
  have spares := standard_sparesNames
  have named : IsName spelling := .inl (List.mem_flatMap.mpr ⟨entry, listed, spelled⟩)
  have breaks : Breaks .standard before earlier := .of_empty_last read
  have spaced : words .standard (before ++ spelling ++ [' ']) = earlier ++ [spelling] ++ [[]] := by
    rw [words_before_name spares named breaks, words_name_space spares named, List.append_assoc]
    rfl
  have waits : Position.ofWords (earlier ++ [spelling]) = .expectValue entry.argument := by
    rw [Position.ofWords_concat, among, Position.next_spelling listed spelled, if_pos takes]
  have joined : words .standard (before ++ spelling ++ ['=']) =
      earlier ++ [spelling] ++ [['=']] := by
    rw [words_before_name spares named breaks,
      words_name_separator spares named (by decide) (by decide), List.append_assoc]
    rfl
  have apart : words .standard (before ++ spelling ++ [' ', '=', ' ']) =
      earlier ++ [spelling] ++ [['=']] ++ [[]] := by
    have behind := words_append_of_gap spaced ['=', ' ']
    have equals : words .standard ['=', ' '] = [['='], []] := by decide +kernel
    rw [equals, List.append_assoc _ [' ']] at behind
    rw [List.append_assoc _ [['=']]]
    exact behind
  have reached : Position.ofWords (earlier ++ [spelling] ++ [['=']]) = .afterEquals entry.argument := by
    rw [Position.ofWords_concat, waits]
    rfl
  have space : shown (before ++ spelling ++ [' '] ++ value) = _ := displayAtEnd_gap spaced value
  have spacedEquals : shown (before ++ spelling ++ [' ', '=', ' '] ++ value) = _ :=
    displayAtEnd_gap apart value
  rw [waits] at space
  rw [reached, ← displayBehind_afterEquals starts] at spacedEquals
  constructor
  · rw [space]
    exact displayAtEnd_equals joined waits starts
  · rw [space, spacedEquals]

/-- An empty value, and a value of several words with a quote and an expansion in it. -/
theorem displayAtEnd_valueForms_imap :
    let shown := Completer.displayAtEnd ⟨.standard, .picocom []⟩
    let before : Text := "picocom "
    let short : Text := "-y"
    let long : Text := "--imap"
    let parity : OptionEntry := ⟨"--parity", some "-y", .parity⟩
    let imap : OptionEntry := ⟨"--imap", some "-I", .mapList⟩
    let several : Text := "crlf,\"a b\"$(ls -l) --ba"
    split .standard before before.byteLength = [("picocom" : Text)] ++ [[]] ∧
      Position.ofWords ["picocom"] = .arguments ∧ parity ∈ options ∧ imap ∈ options ∧
      StartsValue .standard [] ∧ StartsValue .standard several ∧
      shown (before ++ short ++ ['='] ++ []) = shown (before ++ short ++ [' '] ++ []) ∧
      shown (before ++ short ++ [' '] ++ []) = ⟨["o", "e", "n"], ⟨false, true, none⟩, 0⟩ ∧
      shown (before ++ long ++ ['='] ++ several) = shown (before ++ long ++ [' '] ++ several) ∧
      shown (before ++ long ++ [' '] ++ several) = ⟨["--baud"], .plain, 4⟩ := by
  intro shown before short long parity imap several
  have read : split .standard before before.byteLength = [("picocom" : Text)] ++ [[]] := by
    decide +kernel
  have among : Position.ofWords ["picocom"] = .arguments := rfl
  have parityListed : parity ∈ options := by decide +kernel
  have imapListed : imap ∈ options := by decide +kernel
  have shortSpelled : short ∈ parity.spellings := by decide
  have longSpelled : long ∈ imap.spellings := by decide
  have none : StartsValue .standard [] := by decide
  have some : StartsValue .standard several := by decide +kernel
  have empty :=
    displayAtEnd_valueForms (.picocom []) read among parityListed shortSpelled rfl none
  have words :=
    displayAtEnd_valueForms (.picocom []) read among imapListed longSpelled rfl some
  refine ⟨read, among, parityListed, imapListed, none, some, empty.1, ?_, words.1, ?_⟩
  · decide +kernel
  · decide +kernel

end SerialCompletion.Completion
