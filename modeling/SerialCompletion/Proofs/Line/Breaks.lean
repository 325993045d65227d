import SerialCompletion.Proofs.Line.Spacing

/-!
# Breaks of a line

A line breaks where a new word may begin: behind a gap, and behind a run of
separators.  What is written at a break is read on its own, and the words in
front of it stay as they are.  The last word of a text stands at a break,
unless it is a run of separators itself, and in that case its end is a break.
-/

namespace SerialCompletion.Line

namespace Scan

variable {scan : Scan}

theorem WellFormed.eq_start (formed : scan.WellFormed) (between : scan.mode = .delimiter) :
    scan = start := by
  cases formed with
  | between => rfl
  | word => cases between
  | nested inside => exact absurd between (ne_delimiter_of_inside inside)

theorem WellFormed.eq_separators (formed : scan.WellFormed) (run : scan.pending = .separators) :
    scan = ⟨.word, [], .separators⟩ := by
  cases formed with
  | between => cases run
  | word => rw [← run]
  | @nested mode _ _ inside _ allowed =>
      cases run
      have same : mode = .word := by simpa [Mode.allows] using allowed
      subst same
      cases inside

theorem Absorbs.run {classes : Classes} {text : Text} {last : Scan}
    (absorbed : Absorbs classes scan text last) : scan.run classes text = last := by
  induction absorbed with
  | nil => rfl
  | cons made _ ih => rw [run_cons, made, ih]

theorem Absorbs.wellFormed {classes : Classes} {text : Text} {last : Scan}
    (absorbed : Absorbs classes scan text last) (formed : scan.WellFormed) : last.WellFormed := by
  rw [← absorbed.run]
  exact formed.run classes text

theorem Absorbs.split {classes : Classes} {first second : Text} {last : Scan}
    (absorbed : Absorbs classes scan (first ++ second) last) :
    ∃ middle, Absorbs classes scan first middle ∧ Absorbs classes middle second last := by
  induction first generalizing scan with
  | nil => exact ⟨scan, .nil scan, absorbed⟩
  | cons c first ih =>
      cases absorbed with
      | cons made tail =>
          obtain ⟨middle, front, behind⟩ := ih tail
          exact ⟨middle, .cons made front, behind⟩

end Scan

/-! ## The scan at the end of the last word -/

section LastWord

variable {classes : Classes} {text last : Text} {earlier : List Text}

/-- The last word of a text and the scan behind it. -/
theorem exists_opens_last (read : words classes text = earlier ++ [last]) :
    ∃ gap, (Scan.start.run classes text).Opens classes ⟨gap, last⟩ := by
  obtain ⟨closed, ⟨gap, word⟩, tiled⟩ := tiledTo_words classes text
  have same := tiled.words_eq
  rw [read, List.map_append] at same
  have sameWord : word = last := (List.cons.inj (List.append_inj' same rfl).2).1
  exact ⟨gap, sameWord ▸ tiled.opens⟩

theorem run_of_empty_last (read : words classes text = earlier ++ [[]]) :
    Scan.start.run classes text = Scan.start := by
  obtain ⟨gap, opens⟩ := exists_opens_last read
  exact opens.formed.eq_start (opens.word_eq_nil_iff.mp rfl)

theorem empty_last_of_run (read : words classes text = earlier ++ [last])
    (between : Scan.start.run classes text = Scan.start) : last = [] := by
  obtain ⟨gap, opens⟩ := exists_opens_last read
  exact opens.word_eq_nil_iff.mpr (by rw [between]; rfl)

theorem run_of_separators_last (read : words classes text = earlier ++ [last])
    (run : classes.isSeparatorRun last = true) :
    Scan.start.run classes text = ⟨.word, [], .separators⟩ := by
  obtain ⟨gap, opens⟩ := exists_opens_last read
  exact opens.formed.eq_separators (opens.run_iff.mp run)

theorem not_separators_last (read : words classes text = earlier ++ [last])
    (noRun : (Scan.start.run classes text).pending ≠ .separators) :
    classes.isSeparatorRun last = false := by
  obtain ⟨gap, opens⟩ := exists_opens_last read
  rw [Bool.eq_false_iff]
  exact fun run => noRun (opens.run_iff.mp run)

theorem ne_separators_of_last (read : words classes text = earlier ++ [last])
    (noRun : classes.isSeparatorRun last = false) :
    (Scan.start.run classes text).pending ≠ .separators := by
  obtain ⟨gap, opens⟩ := exists_opens_last read
  intro run
  exact Bool.false_ne_true (noRun.symm.trans (opens.run_iff.mpr run))

/-- A nonempty last word that is no run starts with a character that neither delimits nor separates. -/
theorem startsOrdinary_last (read : words classes text = earlier ++ [last]) (some : last ≠ [])
    (noRun : classes.isSeparatorRun last = false) : classes.StartsOrdinary last := by
  obtain ⟨gap, opens⟩ := exists_opens_last read
  refine (opens.sound.word_shape some).resolve_left ?_
  rw [noRun]
  exact Bool.false_ne_true

theorem words_concat_of_joins {c : Char} {next : Scan} (read : words classes text = earlier ++ [last])
    (made : (Scan.start.run classes text).move classes c = ⟨false, true, next⟩) :
    words classes (text ++ [c]) = earlier ++ [last ++ [c]] := by
  rw [words_append_last read, wordsFrom_of_joins [] made]
  rfl

end LastWord

/-! ## Texts at a break -/

/-- A text behind which a word may begin, and the words that it completes. -/
inductive Breaks (classes : Classes) (front : Text) : List Text → Prop where
  | gap {earlier : List Text} (scanned : Scan.start.run classes front = Scan.start)
      (read : words classes front = earlier ++ [[]]) : Breaks classes front earlier
  /-- Behind a run of separators, if what follows separates no more. -/
  | run (scanned : Scan.start.run classes front = ⟨.word, [], .separators⟩) :
      Breaks classes front (words classes front)

section Breaking

variable {classes : Classes} {front text last : Text} {earlier : List Text}

theorem Breaks.of_empty_last (read : words classes text = earlier ++ [[]]) :
    Breaks classes text earlier :=
  .gap (run_of_empty_last read) read

theorem Breaks.of_separators_last (read : words classes text = earlier ++ [last])
    (run : classes.isSeparatorRun last = true) : Breaks classes text (earlier ++ [last]) := by
  rw [← read]
  exact .run (run_of_separators_last read run)

/-- A character that ends the open word is read as behind a gap. -/
theorem wordsFrom_cons_of_ends {scan next : Scan} {c : Char} {keeps : Bool}
    (made : scan.move classes c = ⟨true, keeps, next⟩) (begins : Scan.Begins classes c keeps next)
    (rest : Text) : wordsFrom classes scan (c :: rest) = [] :: words classes (c :: rest) := by
  cases keeps with
  | false => rw [wordsFrom_of_ends rest made, words, wordsFrom_of_drops rest begins.move]
  | true => rw [wordsFrom_of_turns rest made, words, wordsFrom_of_joins rest begins.move]

/-- A character that separates no more ends a run and is read as behind a gap. -/
theorem wordsFrom_separators_cons {c : Char} (noSeparator : classes.isSeparator c = false)
    (rest : Text) :
    wordsFrom classes ⟨.word, [], .separators⟩ (c :: rest) = [] :: words classes (c :: rest) := by
  obtain ⟨keeps, next, begins⟩ := Scan.exists_begins classes c
  exact wordsFrom_cons_of_ends (Scan.move_endsRun noSeparator begins) begins rest

theorem words_append_of_gap (read : words classes front = earlier ++ [[]]) (text : Text) :
    words classes (front ++ text) = earlier ++ words classes text := by
  have appended := words_append_last read text
  rw [run_of_empty_last read, prependFirst_nil (wordsFrom_ne_nil classes Scan.start text)] at appended
  exact appended

/-- Whether a text does not go on with a run of separators that the text in front leaves open. -/
def EndsRun (classes : Classes) (front text : Text) : Prop :=
  (Scan.start.run classes front).pending = .separators →
    ∃ c ∈ text.head?, classes.isSeparator c = false

theorem EndsRun.of_head {c : Char} (first : text.head? = some c)
    (noSeparator : classes.isSeparator c = false) : EndsRun classes front text :=
  fun _ => ⟨c, first, noSeparator⟩

/-- What is written at a break is read on its own. -/
theorem Breaks.words_append (breaks : Breaks classes front earlier)
    (ends : EndsRun classes front text) :
    words classes (front ++ text) = earlier ++ words classes text := by
  cases breaks with
  | gap scanned read => exact words_append_of_gap read text
  | run scanned =>
      obtain ⟨c, first, noSeparator⟩ := ends (by rw [scanned])
      obtain ⟨rest, rfl⟩ := List.head?_eq_some_iff.mp first
      obtain ⟨closed, run, read⟩ := exists_words_eq classes front
      rw [words_append_last read, scanned, wordsFrom_separators_cons noSeparator, read,
        prependFirst, List.append_nil, List.append_assoc, List.singleton_append]

theorem Breaks.words_append_ordinary (breaks : Breaks classes front earlier)
    (starts : classes.StartsOrdinary text) :
    words classes (front ++ text) = earlier ++ words classes text := by
  obtain ⟨c, first, _, noSeparator⟩ := starts
  exact breaks.words_append (.of_head first noSeparator)

end Breaking

/-! ## Where the last word begins -/

/-- The last word of a text, with the text in front of it and the words before it. -/
structure Ending (classes : Classes) (text front : Text) (earlier : List Text) (last : Text) :
    Prop where
  text_eq : text = front ++ last
  words_eq : words classes text = earlier ++ [last]
  absorbed : Scan.Absorbs classes Scan.start last (Scan.start.run classes text)
  breaks : classes.isSeparatorRun last = false → Breaks classes front earlier

namespace Ending

variable {classes : Classes} {text front last : Text} {earlier : List Text} {c : Char} {next : Scan}

/-- Behind a gap the last word is empty, and it begins where the text ends. -/
theorem of_empty_last (read : words classes text = earlier ++ [[]]) :
    Ending classes text text earlier [] where
  text_eq := (List.append_nil text).symm
  words_eq := read
  absorbed := by
    rw [run_of_empty_last read]
    exact .nil _
  breaks := fun _ => .of_empty_last read

theorem run_concat {move : Move} (made : (Scan.start.run classes text).move classes c = move) :
    Scan.start.run classes (text ++ [c]) = move.next := by
  rw [Scan.run_append, Scan.run_cons, made, Scan.run_nil]

theorem joins (ending : Ending classes text front earlier last)
    (made : (Scan.start.run classes text).move classes c = ⟨false, true, next⟩)
    (stays : classes.isSeparatorRun (last ++ [c]) = false → classes.isSeparatorRun last = false) :
    Ending classes (text ++ [c]) front earlier (last ++ [c]) where
  text_eq := by rw [ending.text_eq, List.append_assoc]
  words_eq := words_concat_of_joins ending.words_eq made
  absorbed := by
    rw [run_concat made]
    exact ending.absorbed.append (.single made)
  breaks := fun noRun => ending.breaks (stays noRun)

theorem drops (ending : Ending classes text front earlier [])
    (made : (Scan.start.run classes text).move classes c = ⟨false, false, Scan.start⟩) :
    Ending classes (text ++ [c]) (text ++ [c]) earlier [] := by
  refine .of_empty_last ?_
  rw [words_append_last ending.words_eq, wordsFrom_of_drops [] made]
  rfl

theorem ends (ending : Ending classes text front earlier last)
    (made : (Scan.start.run classes text).move classes c = ⟨true, false, Scan.start⟩) :
    Ending classes (text ++ [c]) (text ++ [c]) (words classes text) [] := by
  refine .of_empty_last ?_
  rw [words_append_last ending.words_eq, wordsFrom_of_ends [] made, ending.words_eq]
  simp [prependFirst]

theorem turns (ending : Ending classes text front earlier last)
    (made : (Scan.start.run classes text).move classes c = ⟨true, true, next⟩)
    (begins : Scan.Begins classes c true next)
    (breaks : classes.isSeparatorRun [c] = false → Breaks classes text (words classes text)) :
    Ending classes (text ++ [c]) text (words classes text) [c] where
  text_eq := rfl
  words_eq := by
    rw [words_append_last ending.words_eq, wordsFrom_of_turns [] made, ending.words_eq]
    simp [prependFirst, consFirst]
  absorbed := by
    rw [run_concat made]
    exact .single begins.move
  breaks := breaks

/-- One more character moves the ending on. -/
theorem move (ending : Ending classes text front earlier last) (c : Char) :
    ∃ front' earlier' last', Ending classes (text ++ [c]) front' earlier' last' := by
  have formed := Scan.WellFormed.between.run classes text
  change (Scan.start.run classes text).WellFormed at formed
  have moves := formed.moves classes c
  -- Only a run of separators leaves separators pending, so no other word turns into one.
  have stays (noRun : (Scan.start.run classes text).pending ≠ .separators) :
      classes.isSeparatorRun (last ++ [c]) = false → classes.isSeparatorRun last = false :=
    fun _ => not_separators_last ending.words_eq noRun
  generalize made : (Scan.start.run classes text).move classes c = move at moves
  generalize scanned : Scan.start.run classes text = scan at moves
  rw [scanned] at stays
  cases moves with
  | first begins =>
      have none : last = [] := empty_last_of_run ending.words_eq scanned
      subst none
      cases begins with
      | delimiter => exact ⟨_, _, _, ending.drops made⟩
      | separator | ordinary => exact ⟨_, _, _, ending.joins made fun _ => rfl⟩
  | escaped | expands => exact ⟨_, _, _, ending.joins made (stays Pending.noConfusion)⟩
  | nested _ _ idle | ordinary idle => exact ⟨_, _, _, ending.joins made (stays idle.ne_separators)⟩
  | run separates =>
      refine ⟨_, _, _, ending.joins made fun noRun => ?_⟩
      by_cases some : last = []
      · rw [some]
        rfl
      · rwa [Classes.isSeparatorRun_concat some, separates, Bool.and_true] at noRun
  | @ends _ keeps _ _ breaks begins =>
      cases keeps with
      | false => cases begins; exact ⟨_, _, _, ending.ends made⟩
      | true =>
          refine ⟨_, _, _, ending.turns made begins fun noRun => ?_⟩
          rw [Classes.isSeparatorRun_singleton, begins.separates breaks] at noRun
          cases noRun
  | @endsRun keeps _ _ begins =>
      cases keeps with
      | false => cases begins; exact ⟨_, _, _, ending.ends made⟩
      | true => exact ⟨_, _, _, ending.turns made begins fun _ => .run scanned⟩

end Ending

/-- Every text ends in its last word, and that word is a run of separators or stands at a break. -/
theorem exists_ending (classes : Classes) (text : Text) :
    ∃ front earlier last, Ending classes text front earlier last := by
  induction text using List.reverseRecOn with
  | nil => exact ⟨[], [], [], .of_empty_last rfl⟩
  | append_singleton text c ih =>
      obtain ⟨front, earlier, last, ending⟩ := ih
      exact ending.move c

/-! ## A word that goes on -/

/-- Unless it follows a run, a character that neither delimits nor separates joins a word. -/
theorem Scan.WellFormed.joins_of_ordinary {classes : Classes} {scan : Scan} {c : Char}
    (formed : scan.WellFormed) (noRun : scan.pending ≠ .separators)
    (noDelimiter : classes.isDelimiter c = false) (noSeparator : classes.isSeparator c = false) :
    ∃ next, scan.move classes c = ⟨false, true, next⟩ := by
  have moves := formed.moves classes c
  generalize scan.move classes c = move at moves
  cases moves with
  | first begins =>
      cases begins with
      | delimiter delimits =>
          rw [noDelimiter] at delimits
          cases delimits
      | separator | ordinary => exact ⟨_, rfl⟩
  | escaped | expands | nested | ordinary => exact ⟨_, rfl⟩
  | run => exact absurd rfl noRun
  | ends idle breaks =>
      rw [noDelimiter, noSeparator] at breaks
      exact (breaks.elim Bool.false_ne_true Bool.false_ne_true).elim
  | endsRun => exact absurd rfl noRun

theorem words_concat_of_ordinary {classes : Classes} {text last : Text} {earlier : List Text} {c : Char}
    (read : words classes text = earlier ++ [last]) (noRun : classes.isSeparatorRun last = false)
    (noDelimiter : classes.isDelimiter c = false) (noSeparator : classes.isSeparator c = false) :
    words classes (text ++ [c]) = earlier ++ [last ++ [c]] := by
  have formed : (Scan.start.run classes text).WellFormed := Scan.WellFormed.between.run classes text
  obtain ⟨next, made⟩ :=
    formed.joins_of_ordinary (ne_separators_of_last read noRun) noDelimiter noSeparator
  exact words_concat_of_joins read made

end SerialCompletion.Line
