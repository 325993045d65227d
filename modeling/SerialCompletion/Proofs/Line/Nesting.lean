import SerialCompletion.Proofs.Line.Breaks

/-!
# Quotes and expansions that stay open

The quote or expansion that a word opens first lies right above the word in the
enclosing modes, and only its own closer ends it.  Until that character comes,
every character joins the open word: delimiters and separators, and all quotes
and expansions that are opened and closed inside.
-/

namespace SerialCompletion.Line

namespace Scan

variable {classes : Classes} {scan : Scan} {mode outer : Mode} {enclosing : List Mode}
  {pending : Pending} {c : Char} {text : Text}

/-- Whether a scan stands, at any depth, in a mode that was entered from a bare word. -/
def Within (outer : Mode) (scan : Scan) : Prop :=
  ∃ inner, scan.mode :: scan.enclosing = inner ++ [outer, .word]

theorem exists_closer (inside : mode.isTopLevel = false) : ∃ closer, mode.closer? = some closer := by
  cases mode with
  | delimiter | word => cases inside
  | singleQuote | doubleQuote | backtick | parenExpansion | braceExpansion => exact ⟨_, rfl⟩

theorem Enclosing.exists_within (stack : Enclosing enclosing) (inside : mode.isTopLevel = false)
    (pending : Pending) :
    ∃ outer, Within outer ⟨mode, enclosing, pending⟩ ∧ outer.isTopLevel = false := by
  induction stack generalizing mode with
  | word => exact ⟨mode, ⟨[], rfl⟩, inside⟩
  | @inner outside enclosing nests above ih =>
      obtain ⟨outer, ⟨inner, same⟩, opened⟩ := ih (inside_of_nests nests)
      exact ⟨outer, ⟨mode :: inner, congrArg (mode :: ·) same⟩, opened⟩

/-- Where modes enclose a scan, one of them was entered from the word. -/
theorem WellFormed.exists_within (formed : scan.WellFormed) (opened : scan.enclosing ≠ []) :
    ∃ outer, Within outer scan ∧ outer.isTopLevel = false := by
  cases formed with
  | between | word => exact absurd rfl opened
  | nested inside stack => exact stack.exists_within inside _

namespace Within

theorem enclosing_ne_nil (within : Within outer scan) : scan.enclosing ≠ [] := by
  obtain ⟨inner, same⟩ := within
  intro none
  have length := congrArg List.length same
  rw [none, List.length_append] at length
  simp at length

theorem unique {other : Mode} (first : Within outer scan) (second : Within other scan) :
    outer = other := by
  obtain ⟨inner, same⟩ := first
  obtain ⟨others, alike⟩ := second
  have ending : [outer, .word] = [other, .word] := (List.append_inj' (same.symm.trans alike) rfl).2
  exact (List.cons.inj ending).1

/-- The innermost mode may be left, unless it is the one that was entered from the word. -/
theorem leave (within : Within outer ⟨mode, enclosing, pending⟩) (deeper : mode ≠ outer) :
    Within outer (Scan.leave ⟨mode, enclosing, pending⟩) := by
  obtain ⟨inner, same⟩ := within
  cases inner with
  | nil => exact absurd (List.cons.inj same).1 deeper
  | cons first inner =>
      have behind : enclosing = inner ++ [outer, .word] := (List.cons.inj same).2
      cases enclosing with
      | nil => exact absurd behind.symm (List.append_ne_nil_of_right_ne_nil inner (List.cons_ne_nil _ _))
      | cons next rest => exact ⟨inner, behind⟩

/-- A character of a word leaves the outermost mode only if it closes it. -/
theorem take (within : Within outer ⟨mode, enclosing, pending⟩) (other : outer.closer? ≠ some c) :
    Within outer (Scan.take ⟨mode, enclosing, .nothing⟩ c) := by
  have takes := take_takes mode enclosing .nothing c
  generalize Scan.take ⟨mode, enclosing, .nothing⟩ c = next at takes
  cases takes with
  | escape | dollar | plain => exact within
  | leave closes =>
      have deeper : mode ≠ outer := by
        rintro rfl
        exact other closes
      have freed : Within outer ⟨mode, enclosing, .nothing⟩ := within
      exact freed.leave deeper
  | enter opens =>
      obtain ⟨inner, same⟩ := within
      exact ⟨Mode.ofQuote c :: inner, congrArg (Mode.ofQuote c :: ·) same⟩

/-- Every character but the closer of the outermost mode joins the word and leaves that mode open. -/
theorem move (within : Within outer scan) (formed : scan.WellFormed) (classes : Classes)
    (other : outer.closer? ≠ some c) :
    ∃ next, scan.move classes c = ⟨false, true, next⟩ ∧ Within outer next := by
  have moves := formed.moves classes c
  generalize scan.move classes c = move at moves
  cases moves with
  | first | ordinary | run | ends | endsRun => exact absurd rfl within.enclosing_ne_nil
  | escaped mode enclosing => exact ⟨_, rfl, within⟩
  | @expands mode enclosing entered bracket =>
      obtain ⟨inner, same⟩ := within
      exact ⟨_, rfl, entered :: inner, congrArg (entered :: ·) same⟩
  | nested enclosing inside idle => exact ⟨_, rfl, within.take other⟩

/-- A text without the closer of the outermost mode joins the word and leaves that mode open. -/
theorem absorbs (within : Within outer scan) (formed : scan.WellFormed) (classes : Classes)
    (free : ∀ c ∈ text, outer.closer? ≠ some c) :
    ∃ last, Absorbs classes scan text last ∧ Within outer last := by
  induction text generalizing scan with
  | nil => exact ⟨scan, .nil scan, within⟩
  | cons c rest ih =>
      obtain ⟨first, others⟩ := List.forall_mem_cons.mp free
      obtain ⟨next, made, inside⟩ := within.move formed classes first
      have after : next.WellFormed := by
        have moved := formed.move classes c
        rwa [made] at moved
      obtain ⟨last, absorbed, still⟩ := ih inside after others
      exact ⟨last, .cons made absorbed, still⟩

end Within

end Scan

theorem words_append_of_absorbs {classes : Classes} {front text last : Text} {earlier : List Text}
    {scan : Scan} (read : words classes front = earlier ++ [last])
    (absorbed : Scan.Absorbs classes (Scan.start.run classes front) text scan) :
    words classes (front ++ text) = earlier ++ [last ++ text] := by
  rw [words_append_last read, absorbed.wordsFrom_eq]
  rfl

/--
What is open absorbs the rest.  If a text leaves quotes or expansions open, one
of them was entered from the word, and it has a closer.  Any text without that
character goes on with the last word and begins no other, whatever it delimits,
separates, quotes or expands, and the same quote or expansion stays open behind it.
-/
theorem split_append_open {classes : Classes} {front : Text}
    (opened : (Scan.start.run classes front).enclosing ≠ []) :
    let read := split classes front front.byteLength
    ∃ outer closer last, (Scan.start.run classes front).Within outer ∧
      outer.closer? = some closer ∧ read.getLast? = some last ∧
      ∀ text, closer ∉ text →
        split classes (front ++ text) (front ++ text).byteLength =
            read.dropLast ++ [last ++ text] ∧
          (Scan.start.run classes (front ++ text)).Within outer := by
  intro read
  have formed : (Scan.start.run classes front).WellFormed := Scan.WellFormed.between.run classes front
  obtain ⟨outer, within, inside⟩ := formed.exists_within opened
  obtain ⟨closer, closes⟩ := Scan.exists_closer inside
  obtain ⟨earlier, last, words_eq⟩ := exists_words_eq classes front
  have readEq : read = earlier ++ [last] := (split_byteLength classes front).trans words_eq
  refine ⟨outer, closer, last, within, closes, ?_, ?_⟩
  · rw [readEq, List.getLast?_concat]
  · intro text free
    have others : ∀ c ∈ text, outer.closer? ≠ some c := by
      intro c member same
      rw [closes] at same
      cases same
      exact free member
    obtain ⟨scan, absorbed, still⟩ := within.absorbs formed classes others
    constructor
    · rw [split_byteLength, words_append_of_absorbs words_eq absorbed, readEq, List.dropLast_concat]
    · rw [Scan.run_append, absorbed.run]
      exact still

/-- A line that ends in an expansion inside quotes, and text that opens and closes more. -/
theorem split_append_open_nested :
    let front : Text := "a \"b $(c"
    let text : Text := " 'd' \\) ) e= $\x7bf"
    (Scan.start.run .standard front).enclosing ≠ [] ∧
      (Scan.start.run .standard front).Within .doubleQuote ∧
      split .standard (front ++ text) (front ++ text).byteLength =
        ["a", "\"b $(c 'd' \\) ) e= $\x7bf"] := by
  intro front text
  have opened : (Scan.start.run .standard front).enclosing ≠ [] := by decide +kernel
  have quoted : (Scan.start.run .standard front).Within .doubleQuote :=
    ⟨[.parenExpansion], by decide +kernel⟩
  have read : split .standard front front.byteLength = ["a", "\"b $(c"] := by decide +kernel
  obtain ⟨outer, closer, last, within, closes, ends, absorbs⟩ := split_append_open opened
  cases within.unique quoted
  cases closes
  rw [read] at ends absorbs
  cases ends
  exact ⟨opened, quoted, (absorbs text (by decide)).1⟩

end SerialCompletion.Line
