import SerialCompletion.Proofs.Line.Tiling

/-!
# Lines of spaced words

A word is self-contained when all its characters join one word and any
delimiter behind it ends that word.  A line that puts delimiters between
self-contained words is split into exactly these words, whatever the
characters of the words mean on their own.
-/

namespace SerialCompletion.Line

namespace Scan

/-- A text whose characters all join the open word, between the controls before and after it. -/
inductive Absorbs (classes : Classes) : Scan → Text → Scan → Prop where
  | nil (scan : Scan) : Absorbs classes scan [] scan
  | cons {scan next last : Scan} {c : Char} {rest : Text}
      (made : scan.move classes c = ⟨false, true, next⟩) (tail : Absorbs classes next rest last) :
      Absorbs classes scan (c :: rest) last

namespace Absorbs

variable {classes : Classes} {scan middle last : Scan} {c : Char} {first second : Text}

theorem single (made : scan.move classes c = ⟨false, true, last⟩) : Absorbs classes scan [c] last :=
  .cons made (.nil last)

theorem append (before : Absorbs classes scan first middle)
    (after : Absorbs classes middle second last) : Absorbs classes scan (first ++ second) last := by
  induction before with
  | nil => exact after
  | cons made _ ih => exact .cons made (ih after)

/-- Texts that each lead from a control back to it, one after the other. -/
theorem flatMap {α : Type} {parts : List α} {write : α → Text}
    (each : ∀ part ∈ parts, Absorbs classes scan (write part) scan) :
    Absorbs classes scan (parts.flatMap write) scan := by
  induction parts with
  | nil => exact .nil scan
  | cons part parts ih =>
      obtain ⟨front, behind⟩ := List.forall_mem_cons.mp each
      exact front.append (ih behind)

theorem separators (each : ∀ c ∈ first, classes.isSeparator c = true) :
    Absorbs classes ⟨.word, [], .separators⟩ first ⟨.word, [], .separators⟩ := by
  induction first with
  | nil => exact .nil _
  | cons c rest ih =>
      obtain ⟨separates, others⟩ := List.forall_mem_cons.mp each
      exact .cons (move_run separates) (ih others)

theorem wordsFrom_append (absorbed : Absorbs classes scan first last) (rest : Text) :
    wordsFrom classes scan (first ++ rest) = prependFirst first (wordsFrom classes last rest) := by
  induction absorbed with
  | nil scan => exact (prependFirst_nil (wordsFrom_ne_nil classes scan rest)).symm
  | cons made _ ih =>
      rw [List.cons_append, wordsFrom_of_joins _ made, ih, consFirst_eq_prependFirst,
        prependFirst_prependFirst]
      rfl

theorem wordsFrom_eq (absorbed : Absorbs classes scan first last) :
    wordsFrom classes scan first = [first] := by
  have read := absorbed.wordsFrom_append []
  rw [List.append_nil] at read
  rw [read]
  simp [prependFirst]

/-- A word begins behind a gap as it goes on behind other characters. -/
theorem of_word (some : first ≠ []) (absorbed : Absorbs classes ⟨.word, [], .nothing⟩ first last) :
    Absorbs classes start first last := by
  cases absorbed with
  | nil => exact absurd rfl some
  | @cons _ next _ c rest made tail =>
      have moves := (WellFormed.word .nothing).moves classes c
      rw [made] at moves
      cases moves with
      | nested _ inside => cases inside
      | ordinary _ noDelimiter noSeparator =>
          exact .cons (Begins.ordinary noDelimiter noSeparator).move tail

end Absorbs

end Scan

/-- Whether a word behind a gap is read as one word up to a delimiter, which ends it. -/
def Classes.EndsAt (classes : Classes) (word : Text) (d : Char) : Prop :=
  ∃ last, Scan.Absorbs classes Scan.start word last ∧ last.move classes d = ⟨true, false, Scan.start⟩

/-- Whether a word ends at every delimiter and nowhere before. -/
def Classes.SelfContained (classes : Classes) (word : Text) : Prop :=
  ∀ d, classes.isDelimiter d = true → classes.EndsAt word d

/-- Words with gaps in front of them, none of which is empty behind another word. -/
structure Spaced (classes : Classes) (tiles : List Tile) : Prop where
  gaps : ∀ tile ∈ tiles, ∀ c ∈ tile.gap, classes.isDelimiter c = true
  apart : ∀ tile ∈ tiles.tail, tile.gap ≠ []

def cover (tiles : List Tile) : Text :=
  tiles.flatMap Tile.text

section Words

variable {classes : Classes}

/-- Text that leads from a word back into it, with nothing left to claim the delimiter. -/
theorem Scan.Absorbs.endsAt {word : Text} {pending : Pending} {d : Char}
    (absorbed : Absorbs classes ⟨.word, [], .nothing⟩ word ⟨.word, [], pending⟩) (some : word ≠ [])
    (idle : pending.Idle d) (delimits : classes.isDelimiter d = true) : classes.EndsAt word d :=
  ⟨_, absorbed.of_word some, move_ends idle (.inl delimits) (.delimiter delimits)⟩

theorem words_cons_of_delimiter {d : Char} (delimits : classes.isDelimiter d = true) (rest : Text) :
    words classes (d :: rest) = words classes rest :=
  wordsFrom_of_drops rest (Scan.Begins.delimiter delimits).move

theorem words_cons_of_kept {c : Char} (kept : classes.isDelimiter c = false) (rest : Text) :
    ∃ next, words classes (c :: rest) = consFirst c (wordsFrom classes next rest) := by
  obtain ⟨keeps, next, begins⟩ := Scan.exists_begins classes c
  cases begins with
  | delimiter delimits =>
      rw [kept] at delimits
      cases delimits
  | separator noDelimiter separates =>
      exact ⟨_, wordsFrom_of_joins rest (Scan.Begins.separator noDelimiter separates).move⟩
  | ordinary noDelimiter noSeparator =>
      exact ⟨_, wordsFrom_of_joins rest (Scan.Begins.ordinary noDelimiter noSeparator).move⟩

/-- The first word of a text, if it has a character, begins with the first that is no delimiter. -/
theorem head?_of_head?_words {text : Text} {c : Char} {word : Text}
    (first : (words classes text).head? = some (c :: word)) :
    (text.dropWhile classes.isDelimiter).head? = some c := by
  induction text with
  | nil => cases first
  | cons d rest ih =>
      cases delimits : classes.isDelimiter d with
      | true =>
          rw [words_cons_of_delimiter delimits] at first
          rw [List.dropWhile_cons_of_pos delimits]
          exact ih first
      | false =>
          obtain ⟨next, read⟩ := words_cons_of_kept delimits rest
          rw [read] at first
          rw [List.dropWhile_cons_of_neg (Bool.eq_false_iff.mp delimits)]
          cases behind : wordsFrom classes next rest with
          | nil => exact absurd behind (wordsFrom_ne_nil classes next rest)
          | cons second others =>
              rw [behind] at first
              cases first
              rfl

theorem words_gap_append {gap : Text} (delimits : ∀ c ∈ gap, classes.isDelimiter c = true)
    (rest : Text) : words classes (gap ++ rest) = words classes rest := by
  induction gap with
  | nil => rfl
  | cons d gap ih =>
      obtain ⟨first, others⟩ := List.forall_mem_cons.mp delimits
      rw [List.cons_append, words_cons_of_delimiter first, ih others]

theorem words_of_endsAt {word : Text} {d : Char} (ends : classes.EndsAt word d) (rest : Text) :
    words classes (word ++ d :: rest) = word :: words classes rest := by
  obtain ⟨last, absorbed, made⟩ := ends
  rw [words, absorbed.wordsFrom_append, wordsFrom_of_ends rest made]
  simp [prependFirst, words]

theorem words_of_absorbed {word : Text} {last : Scan}
    (absorbed : Scan.Absorbs classes Scan.start word last) : words classes word = [word] :=
  absorbed.wordsFrom_eq

/-- Spaced words are the words of the line they cover. -/
theorem words_cover {tiles : List Tile} {last : Tile} (spaced : Spaced classes (tiles ++ [last]))
    (contained : ∀ tile ∈ tiles, classes.SelfContained tile.word)
    (alone : words classes last.word = [last.word]) :
    words classes (cover (tiles ++ [last])) = (tiles ++ [last]).map Tile.word := by
  induction tiles with
  | nil =>
      have gap := spaced.gaps last (List.mem_singleton.mpr rfl)
      simpa [cover, Tile.text, words_gap_append gap] using alone
  | cons tile tiles ih =>
      obtain ⟨gap, gaps⟩ := List.forall_mem_cons.mp spaced.gaps
      obtain ⟨first, others⟩ := List.forall_mem_cons.mp contained
      change ∀ next ∈ tiles ++ [last], ∀ c ∈ next.gap, classes.isDelimiter c = true at gaps
      have apart : ∀ next ∈ tiles ++ [last], next.gap ≠ [] := spaced.apart
      have split := ih ⟨gaps, fun next member => apart next (List.mem_of_mem_tail member)⟩ others
      obtain ⟨next, rest, following⟩ := List.exists_cons_of_ne_nil
        (List.append_ne_nil_of_right_ne_nil tiles (List.cons_ne_nil last []))
      rw [following] at split gaps apart
      obtain ⟨d, tail, gapEq⟩ := List.exists_cons_of_ne_nil (apart next List.mem_cons_self)
      have delimits : classes.isDelimiter d = true := by
        apply gaps next List.mem_cons_self
        rw [gapEq]
        exact List.mem_cons_self
      have covered : cover (next :: rest) = d :: (tail ++ next.word ++ cover rest) := by
        simp [cover, Tile.text, gapEq]
      rw [covered, words_cons_of_delimiter delimits] at split
      rw [List.cons_append, following]
      change words classes (tile.gap ++ tile.word ++ cover (next :: rest)) = _
      rw [List.append_assoc, words_gap_append gap, covered, words_of_endsAt (first d delimits), split]
      rfl

end Words

end SerialCompletion.Line
