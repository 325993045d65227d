import SerialCompletion.Proofs.Line.Cursor
import SerialCompletion.Proofs.Line.Grammar
import SerialCompletion.Proofs.Text.Pieces

/-!
# Lines that are put together

An empty last word, or a last word that is a run of separators, is the sign of
a break: the words of a line with more text behind a break are the words of
the line and those of the text.  The words of a line also come back from the
line that joins them by a delimiter.  Each of them is read on its own as one
word, and whatever ended it in the first line, the delimiter ends it too.
-/

namespace SerialCompletion.Line

/-! ## Lines behind lines -/

/--
Splitting goes through at a break.  If the last word of a line is empty, the
words of the line with a text behind it are the others and the words of the
text.  If the last word is a run of separators, which is what a cursor behind
it sees, and the text starts with no further separator, they are all words of
the line and the words of the text.
-/
theorem split_concat (classes : Classes) (line text : Text) :
    let read := split classes line line.byteLength
    let behind := split classes text text.byteLength
    let whole := split classes (line ++ text) (line ++ text).byteLength
    let cursor := Cursor.ofLine classes line line.byteLength
    (read.getLast? = some [] → whole = read.dropLast ++ behind) ∧
      (cursor.afterSeparators = true ↔
        ∃ run, read.getLast? = some run ∧ classes.isSeparatorRun run = true) ∧
      (cursor.afterSeparators = true → (∃ c ∈ text.head?, classes.isSeparator c = false) →
        whole = read ++ behind) := by
  intro read behind whole cursor
  obtain ⟨earlier, last, words_eq⟩ := exists_words_eq classes line
  have readEq : read = earlier ++ [last] := (split_byteLength classes line).trans words_eq
  have wholeEq : whole = words classes (line ++ text) := split_byteLength classes _
  have behindEq : behind = words classes text := split_byteLength classes text
  have pending : cursor.afterSeparators = classes.isSeparatorRun last := by
    change (Cursor.ofLine classes line line.byteLength).afterSeparators = _
    rw [Cursor.ofLine_byteLength words_eq]
  rw [readEq, wholeEq, behindEq, List.getLast?_concat, List.dropLast_concat, pending]
  refine ⟨?_, by simp, ?_⟩
  · intro empty
    cases empty
    exact words_append_of_gap words_eq text
  · intro run starts
    exact (Breaks.of_separators_last words_eq run).words_append fun _ => starts

/-- A text with an open quote behind a gap, and a value behind an equals sign. -/
theorem split_concat_value :
    let spaced : Text := "a\\  'b c'\t"
    let pending : Text := "picocom --baud="
    let whole : List Text := ["a\\ ", "'b c'", "=", "\"d "]
    let valued : List Text := ["picocom", "--baud", "=", "96", ""]
    (split .standard spaced 10).getLast? = some [] ∧
      split .standard (spaced ++ ['=', '"', 'd', ' ']) 14 = whole ∧
      (Cursor.ofLine .standard pending 15).afterSeparators = true ∧
      split .standard (pending ++ ['9', '6', ' ']) 18 = valued := by
  intro spaced pending whole valued
  have empty : (split .standard spaced 10).getLast? = some [] := by decide +kernel
  have after : (Cursor.ofLine .standard pending 15).afterSeparators = true := by decide +kernel
  have gap := (split_concat .standard spaced ['=', '"', 'd', ' ']).1 empty
  have run := (split_concat .standard pending ['9', '6', ' ']).2.2 after ⟨'9', rfl, by decide⟩
  exact ⟨empty, gap.trans (by decide +kernel), after, run.trans (by decide +kernel)⟩

/-! ## Words that are joined again -/

/-- Whether a text is read as one word up to some character, which ends it. -/
def Classes.Ended (classes : Classes) (word : Text) : Prop :=
  ∃ scan c keeps next, Scan.Absorbs classes Scan.start word scan ∧
    scan.move classes c = ⟨true, keeps, next⟩

section Joining

variable {classes : Classes} {scan next : Scan} {c d : Char} {keeps closes : Bool}
  {text word last : Text} {earlier : List Text}

/-- Where one character ends the open word, so does every delimiter that is neither a separator,
which could go on with a run, nor a bracket, which could open an expansion. -/
theorem Scan.WellFormed.move_of_ends (formed : scan.WellFormed)
    (made : scan.move classes c = ⟨true, keeps, next⟩) (delimits : classes.isDelimiter d = true)
    (noSeparator : classes.isSeparator d = false) (noBracket : Mode.ofBracket? d = none) :
    scan.move classes d = ⟨true, false, Scan.start⟩ := by
  have moves := formed.moves classes c
  rw [made] at moves
  cases moves with
  | ends idle =>
      refine Scan.move_ends ?_ (.inl delimits) (.delimiter delimits)
      cases idle with
      | nothing => exact .nothing
      | dollar => exact .dollar noBracket
  | endsRun => exact Scan.move_endsRun noSeparator (.delimiter delimits)

theorem Classes.Ended.endsAt (ended : classes.Ended word) (delimits : classes.isDelimiter d = true)
    (noSeparator : classes.isSeparator d = false) (noBracket : Mode.ofBracket? d = none) :
    classes.EndsAt word d := by
  obtain ⟨scan, c, keeps, next, absorbed, made⟩ := ended
  have formed := absorbed.wellFormed .between
  exact ⟨scan, absorbed, formed.move_of_ends made delimits noSeparator noBracket⟩

/-- A character completes the last word of a text, or no further word. -/
theorem dropLast_words_concat (read : words classes text = earlier ++ [last])
    (made : (Scan.start.run classes text).move classes c = ⟨closes, keeps, next⟩) :
    (words classes (text ++ [c])).dropLast = if closes then earlier ++ [last] else earlier := by
  rw [words_append_last read]
  cases closes <;> cases keeps
  · rw [wordsFrom_of_drops [] made]
    simp [prependFirst]
  · rw [wordsFrom_of_joins [] made]
    simp [prependFirst, consFirst]
  · rw [wordsFrom_of_ends [] made]
    simp [prependFirst]
  · rw [wordsFrom_of_turns [] made]
    simp [prependFirst, consFirst]

theorem ended_of_mem_dropLast (member : word ∈ (words classes text).dropLast) :
    classes.Ended word := by
  -- A word is ended by the character that is read last when it joins the earlier ones.
  induction text using List.reverseRecOn with
  | nil => cases member
  | append_singleton text c ih =>
      obtain ⟨front, earlier, last, ending⟩ := exists_ending classes text
      rw [ending.words_eq, List.dropLast_concat] at ih
      rcases made : (Scan.start.run classes text).move classes c with ⟨closes, keeps, next⟩
      rw [dropLast_words_concat ending.words_eq made] at member
      cases closes with
      | false => exact ih member
      | true =>
          rcases List.mem_append.mp member with before | here
          · exact ih before
          · rw [List.mem_singleton.mp here]
            exact ⟨_, c, keeps, next, ending.absorbed, made⟩

theorem Classes.Ended.words_eq (ended : classes.Ended word) : words classes word = [word] := by
  obtain ⟨scan, _, _, _, absorbed, _⟩ := ended
  exact words_of_absorbed absorbed

/-- The words of a text: those that have ended, and a last one that is read on its own as well. -/
theorem exists_ended (classes : Classes) (text : Text) :
    ∃ earlier last, words classes text = earlier ++ [last] ∧
      (∀ word ∈ earlier, classes.Ended word) ∧ words classes last = [last] := by
  obtain ⟨front, earlier, last, ending⟩ := exists_ending classes text
  refine ⟨earlier, last, ending.words_eq, ?_, words_of_absorbed ending.absorbed⟩
  intro word before
  have member : word ∈ (words classes text).dropLast := by
    rwa [ending.words_eq, List.dropLast_concat]
  exact ended_of_mem_dropLast member

/-- Words that a delimiter ends, joined by it, are the words of the joined text. -/
theorem words_join (ends : ∀ word ∈ earlier, classes.EndsAt word d)
    (alone : words classes last = [last]) :
    words classes (List.intercalate [d] (earlier ++ [last])) = earlier ++ [last] := by
  induction earlier with
  | nil => rwa [List.nil_append, List.intercalate_singleton]
  | cons word rest ih =>
      obtain ⟨first, others⟩ := List.forall_mem_cons.mp ends
      rw [List.cons_append, Text.intercalate_mark_cons word (List.concat_ne_nil last rest),
        words_of_endsAt first, ih others]

end Joining

/--
The words of a line are its normal form.  Joined by any delimiter that is
neither a separator nor an opening bracket, the words of a line up to a cursor
are split into the same words again.  Each of them, the open last one included,
is split into itself alone.
-/
theorem split_join (classes : Classes) (line : Text) (cursor : Nat) :
    let read := split classes line cursor
    (∀ d, classes.isDelimiter d = true → classes.isSeparator d = false → d ≠ '(' → d ≠ '{' →
      split classes (List.intercalate [d] read) (Text.byteLength (List.intercalate [d] read)) = read) ∧
    ∀ word ∈ read, split classes word word.byteLength = [word] := by
  intro read
  obtain ⟨earlier, last, words_eq, ended, alone⟩ := exists_ended classes (beforeCursor line cursor)
  have readEq : read = earlier ++ [last] := words_eq
  rw [readEq]
  constructor
  · intro d delimits noSeparator noParen noBrace
    have noBracket := ofBracket?_eq_none noParen noBrace
    rw [split_byteLength]
    exact words_join (fun word before => (ended word before).endsAt delimits noSeparator noBracket) alone
  · intro word member
    rw [split_byteLength]
    rcases List.mem_append.mp member with before | here
    · exact (ended word before).words_eq
    · rw [List.mem_singleton.mp here]
      exact alone

/-- A quote as a delimiter, a separator that delimits as well, and a last word in an open quote. -/
theorem split_join_quote :
    let classes : Classes := ⟨"' =", "=>"⟩
    let line : Text := "a$'b\\ c>=>d \"e 'f"
    let read : List Text := ["a$", "b\\ c", ">=>", "d", "\"e 'f"]
    classes.isDelimiter '\'' = true ∧ classes.isSeparator '\'' = false ∧
      split classes line line.byteLength = read ∧
      split classes (List.intercalate ['\''] read)
        (Text.byteLength (List.intercalate ['\''] read)) = read ∧
      split classes "\"e 'f" 6 = ["\"e 'f"] := by
  intro classes line read
  have delimits : classes.isDelimiter '\'' = true := by decide
  have noSeparator : classes.isSeparator '\'' = false := by decide
  have splits : split classes line line.byteLength = read := by decide +kernel
  obtain ⟨again, alone⟩ := split_join classes line line.byteLength
  rw [splits] at again alone
  exact ⟨delimits, noSeparator, splits,
    again '\'' delimits noSeparator (by decide) (by decide), alone "\"e 'f" (by decide)⟩

end SerialCompletion.Line
