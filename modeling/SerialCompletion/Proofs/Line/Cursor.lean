import Mathlib.Data.List.Forall2
import SerialCompletion.Proofs.Line.Breaks
import SerialCompletion.Proofs.Text.Pieces
import SerialCompletion.Proofs.Text.Quoted

/-!
# What a cursor completes

The text under a cursor that completion replaces is a text behind a break: the
last word, or nothing right after a run of separators.  The line in front of
it keeps its words whatever replaces it.
-/

namespace SerialCompletion.Line

namespace Cursor

/-- The words that a completion leaves as they are. -/
def settled (cursor : Cursor) : List Text :=
  if cursor.afterSeparators then cursor.words else cursor.before

/-- The line up to the text that a cursor completes. -/
structure Follows (classes : Classes) (line : Text) (offset : Nat) (front : Text) : Prop where
  passed : beforeCursor line offset = front ++ (ofLine classes line offset).typed
  start_eq : (ofLine classes line offset).start = front.byteLength
  breaks : Breaks classes front (ofLine classes line offset).settled
  absorbed : ∃ scan, Scan.Absorbs classes Scan.start (ofLine classes line offset).typed scan
  ordinary : (ofLine classes line offset).typed ≠ [] →
    classes.StartsOrdinary (ofLine classes line offset).typed

section Fields

variable {classes : Classes} {line last : Text} {offset : Nat} {earlier : List Text}

/-- A cursor seen through the words that it has passed. -/
theorem ofLine_eq (read : Line.words classes (beforeCursor line offset) = earlier ++ [last]) :
    ofLine classes line offset =
      ⟨earlier, last, Text.clamp line offset, classes.isSeparatorRun last⟩ := by
  change ofWords classes (Line.words classes (beforeCursor line offset)) _ = _
  rw [ofWords, read, List.dropLast_concat, List.getLast?_concat]
  rfl

theorem ofLine_byteLength (read : Line.words classes line = earlier ++ [last]) :
    ofLine classes line line.byteLength =
      ⟨earlier, last, line.byteLength, classes.isSeparatorRun last⟩ := by
  have whole : Text.takeBytes line.byteLength line = line := Text.takeBytes_byteLength line
  have passed : beforeCursor line line.byteLength = line := whole
  have boundary : Text.clamp line line.byteLength = line.byteLength := congrArg Text.byteLength whole
  rw [← passed] at read
  rw [ofLine_eq read, boundary]

/-- A character that joins the word under the cursor, behind a word that is no run. -/
theorem exists_ofLine_concat {c : Char}
    (noRun : (ofLine classes line line.byteLength).afterSeparators = false)
    (noDelimiter : classes.isDelimiter c = false) (noSeparator : classes.isSeparator c = false) :
    ∃ earlier last,
      ofLine classes line line.byteLength = ⟨earlier, last, line.byteLength, false⟩ ∧
        ofLine classes (line ++ [c]) (line ++ [c]).byteLength =
          ⟨earlier, last ++ [c], (line ++ [c]).byteLength, false⟩ := by
  obtain ⟨earlier, last, read⟩ := exists_words_eq classes line
  have cursor := ofLine_byteLength read
  have run : classes.isSeparatorRun last = false := by
    rw [cursor] at noRun
    exact noRun
  have longer : classes.isSeparatorRun (last ++ [c]) = false := by
    simp [Classes.isSeparatorRun, noSeparator]
  have cursorAfter := ofLine_byteLength (words_concat_of_ordinary read run noDelimiter noSeparator)
  rw [run] at cursor
  rw [longer] at cursorAfter
  exact ⟨earlier, last, cursor, cursorAfter⟩

theorem start_of_passed {front : Text}
    (passed : beforeCursor line offset = front ++ (ofLine classes line offset).typed) :
    (ofLine classes line offset).start = front.byteLength := by
  have length : Text.clamp line offset = (beforeCursor line offset).byteLength := rfl
  change Text.clamp line offset - (ofLine classes line offset).typed.byteLength = _
  rw [length, passed, Text.byteLength_append, Nat.add_sub_cancel_right]

theorem Follows.of_fields {front typed : Text} {settled : List Text}
    (typed_eq : (ofLine classes line offset).typed = typed)
    (settled_eq : (ofLine classes line offset).settled = settled)
    (passed : beforeCursor line offset = front ++ typed) (breaks : Breaks classes front settled)
    (absorbed : ∃ scan, Scan.Absorbs classes Scan.start typed scan)
    (ordinary : typed ≠ [] → classes.StartsOrdinary typed) :
    Follows classes line offset front := by
  subst typed_eq settled_eq
  exact ⟨passed, start_of_passed passed, breaks, absorbed, ordinary⟩

/-- Whether a cursor stands behind a run of separators, seen in the scan. -/
theorem afterSeparators_iff :
    (ofLine classes line offset).afterSeparators = true ↔
      (Scan.start.run classes (beforeCursor line offset)).pending = .separators := by
  obtain ⟨earlier, last, read⟩ := exists_words_eq classes (beforeCursor line offset)
  obtain ⟨gap, opens⟩ := exists_opens_last read
  rw [ofLine_eq read]
  exact opens.run_iff

/-- A cursor sees the same as the character boundary to which it is clamped. -/
theorem ofLine_clamp (classes : Classes) (line : Text) (offset : Nat) :
    ofLine classes line (Text.clamp line offset) = ofLine classes line offset := by
  simp only [ofLine, split, beforeCursor, Text.takeBytes_clamp, Text.clamp_clamp]

end Fields

/-- Every cursor completes the last word that it has passed, or nothing behind a run of separators. -/
theorem exists_follows (classes : Classes) (line : Text) (offset : Nat) :
    ∃ front, Follows classes line offset front := by
  obtain ⟨front, earlier, last, ending⟩ := exists_ending classes (beforeCursor line offset)
  have cursor := ofLine_eq ending.words_eq
  cases run : classes.isSeparatorRun last with
  | true =>
      have typed : (ofLine classes line offset).typed = [] := by
        rw [cursor]
        simp [Cursor.typed, run]
      have settled : (ofLine classes line offset).settled = earlier ++ [last] := by
        rw [cursor]
        simp [Cursor.settled, Cursor.words, run]
      exact ⟨_, .of_fields typed settled (List.append_nil _).symm
        (.of_separators_last ending.words_eq run) ⟨_, .nil _⟩ (absurd rfl)⟩
  | false =>
      have typed : (ofLine classes line offset).typed = last := by
        rw [cursor]
        simp [Cursor.typed, run]
      have settled : (ofLine classes line offset).settled = earlier := by
        rw [cursor]
        simp [Cursor.settled, run]
      exact ⟨front, .of_fields typed settled ending.text_eq (ending.breaks run)
        ⟨_, ending.absorbed⟩ fun some => startsOrdinary_last ending.words_eq some run⟩

namespace Follows

variable {classes : Classes} {line front : Text} {offset : Nat}

/-- The whole line, with the text that the cursor completes in its place. -/
theorem line_eq (follows : Follows classes line offset front) :
    line = front ++ ((ofLine classes line offset).typed ++ Text.dropBytes offset line) := by
  rw [← List.append_assoc, ← follows.passed]
  exact (Text.takeBytes_append_dropBytes offset line).symm

theorem takeBytes_start (follows : Follows classes line offset front) :
    Text.takeBytes (ofLine classes line offset).start line = front := by
  rw [follows.start_eq]
  conv => lhs; rw [follows.line_eq]
  exact Text.takeBytes_byteLength_append _ _

theorem start_le (follows : Follows classes line offset front) :
    (ofLine classes line offset).start ≤ Text.clamp line offset := by
  change _ ≤ (beforeCursor line offset).byteLength
  rw [follows.start_eq, follows.passed, Text.byteLength_append]
  exact Nat.le_add_right _ _

theorem isBoundary_start (follows : Follows classes line offset front) :
    Text.isBoundary line (ofLine classes line offset).start = true := by
  rw [Text.isBoundary_iff, Text.clamp, follows.takeBytes_start, follows.start_eq]

theorem between?_start (follows : Follows classes line offset front) :
    Text.between? line (ofLine classes line offset).start (Text.clamp line offset) =
      some (ofLine classes line offset).typed := by
  rw [Text.between?_of_boundaries follows.isBoundary_start (Text.isBoundary_clamp line offset)
    follows.start_le, Text.takeBytes_clamp, follows.start_eq]
  change some (Text.dropBytes front.byteLength (beforeCursor line offset)) = _
  rw [follows.passed, Text.dropBytes_byteLength_append]

/-- No more is typed than the cursor has passed. -/
theorem start_add_typed (follows : Follows classes line offset front) :
    (ofLine classes line offset).start + (ofLine classes line offset).typed.byteLength =
      (ofLine classes line offset).offset := by
  change _ = (beforeCursor line offset).byteLength
  rw [follows.start_eq, follows.passed, Text.byteLength_append]

end Follows

/-- The text that a cursor completes, seen through the last word. -/
theorem exists_typed_eq (classes : Classes) (line : Text) (offset : Nat) :
    ∃ last, (split classes line offset).getLast? = some last ∧
      (ofLine classes line offset).typed = if classes.isSeparatorRun last then [] else last := by
  obtain ⟨earlier, last, read⟩ := exists_words_eq classes (beforeCursor line offset)
  refine ⟨last, ?_, ?_⟩
  · rw [split, read, List.getLast?_concat]
  · rw [ofLine_eq read, typed]

end Cursor

/-!
## Reading listings

A listing has a row for each word of a line.  Quoted texts hold no tabs and no
line feeds, so whatever the words hold, rows end where lines end and fields
where tabs stand, and every word comes back with its literal value.
-/

/-- Whether a line of a text is the row of a word: its index and two quoted texts with tabs
between them, which show the word and its literal value. -/
def IsRow (index : Nat) (word row : Text) : Prop :=
  ∃ raw value, row.splitOn '\t' = [Text.ofNat index, raw, value] ∧
    Text.unquoted? raw = some word ∧ Text.unquoted? value = some (Word.literal word)

theorem not_mem_rowFields {mark : Char} (breaks : mark = '\t' ∨ mark = '\n') (index : Nat)
    (word : Text) :
    ∀ field ∈ [Text.ofNat index, Text.quoted word, Text.quoted (Word.literal word)],
      mark ∉ field := by
  have noDigit : mark.isDigit = false := by rcases breaks with rfl | rfl <;> rfl
  have number : mark ∉ Text.ofNat index := Text.not_mem_ofNat noDigit
  simp only [List.forall_mem_cons, List.not_mem_nil, false_implies, implies_true, and_true]
  exact ⟨number, Text.not_mem_quoted breaks word, Text.not_mem_quoted breaks _⟩

theorem isRow_listingLine (index : Nat) (word : Text) :
    IsRow index word (listingLine index word) := by
  refine ⟨Text.quoted word, Text.quoted (Word.literal word), ?_, Text.unquoted?_quoted word,
    Text.unquoted?_quoted _⟩
  exact List.splitOn_intercalate '\t' (not_mem_rowFields (.inl rfl) index word) (List.cons_ne_nil _ _)

theorem lineFeed_free_listingLine (index : Nat) (word : Text) : '\n' ∉ listingLine index word :=
  Text.not_mem_intercalate (by decide) (not_mem_rowFields (.inr rfl) index word)

theorem listingLines_ne_nil {words : List Text} (some : words ≠ []) (index : Nat) :
    listingLines index words ≠ [] := by
  obtain ⟨word, rest, rfl⟩ := List.exists_cons_of_ne_nil some
  exact List.cons_ne_nil _ _

theorem lineFeed_free_listingLines (words : List Text) (index : Nat) :
    ∀ row ∈ listingLines index words, '\n' ∉ row := by
  induction words generalizing index with
  | nil => exact List.forall_mem_nil _
  | cons word words ih =>
      exact List.forall_mem_cons.mpr ⟨lineFeed_free_listingLine index word, ih (index + 1)⟩

theorem rows_listingLines (words : List Text) (index : Nat) :
    List.Forall₂ (fun numbered row => IsRow numbered.2 numbered.1 row) (words.zipIdx index)
      (listingLines index words) := by
  induction words generalizing index with
  | nil => exact .nil
  | cons word words ih => exact .cons (isRow_listingLine index word) (ih (index + 1))

/--
The listing of a line has as many lines as the line has words up to the
cursor, and each line is the row of its word: the index, then the word and its
literal value, quoted so that they are read back as they were.
-/
theorem listing_rows (classes : Classes) (line : Text) (cursor : Nat) :
    let words := split classes line cursor
    let rows := (listing classes line cursor).splitOn '\n'
    rows.length = words.length ∧
      List.Forall₂ (fun numbered row => IsRow numbered.2 numbered.1 row) words.zipIdx rows := by
  intro words rows
  have some : words ≠ [] := words_ne_nil classes _
  have rowsEq : rows = listingLines 0 words :=
    List.splitOn_intercalate '\n' (lineFeed_free_listingLines words 0) (listingLines_ne_nil some 0)
  have listed := rows_listingLines words 0
  rw [← rowsEq] at listed
  refine ⟨?_, listed⟩
  rw [← listed.length_eq, List.length_zipIdx]

/-- A word in an open quote, with its line feed and its tab written as escapes. -/
example : listing .standard "'\n\t" 3 = ("0\t\"'\\n\\t\"\t\"\\n\\t\"" : Text) := by
  decide +kernel

end SerialCompletion.Line
