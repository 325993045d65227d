import SerialCompletion.Proofs.Completion.Acceptance
import SerialCompletion.Proofs.Completion.Directories
import SerialCompletion.Proofs.Completion.Spans
import SerialCompletion.Proofs.Line.Grammar
import SerialCompletion.Proofs.Word.Entries

/-!
# Accepted paths

The suggestions for a device or a file are paths that are present, written as
they are: nothing in them is quoted.  In the line an accepted path is read on
its own, behind the words that the completion leaves alone.  So the word that a
shell reads there is the path exactly when the path is one word that stands
for itself, and behind a run of separators only if it does not go on with the
run.
-/

namespace SerialCompletion.Line

/-- Whether a text is one word, and has itself as its value. -/
structure NamesItself (classes : Classes) (text : Text) : Prop where
  words_eq : words classes text = [text]
  literal_eq : Word.literal text = text

section Naming

variable {classes : Classes} {text word front : Text} {settled : List Text}

/-- A text that is read as one word with the text as its value has nothing but this word. -/
theorem eq_of_literal_eq (read : words classes text = [word]) (value : Word.literal word = text) :
    word = text := by
  obtain ⟨closed, ⟨gap, last⟩, tiled⟩ := tiledTo_words classes text
  have wordsEq := tiled.words_eq
  rw [read, List.map_append] at wordsEq
  obtain ⟨closedEq, lastEq⟩ := List.append_inj' (wordsEq.trans (List.nil_append [word]).symm) rfl
  have none : closed = [] := List.map_eq_nil_iff.mp closedEq
  have same : last = word := (List.cons.inj lastEq).1
  have covered : text = (closed ++ [Tile.mk gap last]).flatMap Tile.text := tiled.tiling.text_eq
  rw [none, same] at covered
  simp only [List.nil_append, List.flatMap_singleton, Tile.text] at covered
  -- The value is no longer than the word, so no gap stands in front of it.
  have shorter := Word.length_literal_le word
  rw [value, covered, List.length_append] at shorter
  have noGap : gap = [] := List.length_eq_zero_iff.mp (by omega)
  rw [covered, noGap]
  rfl

theorem namesItself_iff :
    NamesItself classes text ↔ ∃ word, words classes text = [word] ∧ Word.literal word = text := by
  constructor
  · intro names
    exact ⟨text, names.words_eq, names.literal_eq⟩
  · rintro ⟨word, read, value⟩
    have same := eq_of_literal_eq read value
    subst same
    exact ⟨read, value⟩

theorem namesItself_of_plain (some : text ≠ []) (plain : ∀ c ∈ text, Region.word.Plain classes c) :
    NamesItself classes text where
  words_eq := by
    have absorbed : Scan.Absorbs classes ⟨.word, [], .nothing⟩ text ⟨.word, [], .nothing⟩ :=
      absorbs_plain_text (fun _ => rfl) plain
    exact words_of_absorbed (absorbed.of_word some)
  literal_eq := by
    have bare : ∀ c ∈ text, Word.isBare c = true := by
      intro c member
      have ordinary := (plain c member).not_special
      simp only [Region.special, List.mem_cons, not_or] at ordinary
      simp [Word.isBare, ordinary]
    have whole : Word.literal ([] ++ text) = text := Word.literal_append_of_calm rfl bare
    exact whole

end Naming

/-! ## A text in its place -/

section Places

variable {classes : Classes} {front text : Text} {settled : List Text}

/-- Behind a run of separators nothing is read as a word of its own that is empty or separates. -/
theorem words_append_ne_of_continues
    (scanned : Scan.start.run classes front = ⟨.word, [], .separators⟩)
    (continues : ∀ c ∈ text.head?, classes.isSeparator c = true) (word : Text) :
    words classes (front ++ text) ≠ words classes front ++ [word] := by
  cases text with
  | nil =>
      rw [List.append_nil]
      intro same
      exact List.cons_ne_nil word [] (List.self_eq_append_right.mp same)
  | cons c rest =>
      have separates := continues c rfl
      obtain ⟨closed, last, next, others, read, found, longer⟩ :=
        words_append classes front (c :: rest)
      rw [scanned, wordsFrom_of_joins rest (Scan.move_run separates)] at found
      have some : next ≠ [] := by
        rintro rfl
        cases behind : wordsFrom classes ⟨.word, [], .separators⟩ rest with
        | nil => exact absurd behind (wordsFrom_ne_nil _ _ _)
        | cons first others =>
            rw [behind] at found
            cases found
      rw [longer, read]
      intro same
      rw [List.append_assoc] at same
      have behind := List.append_cancel_left same
      have runEq : last ++ next = last := (List.cons.inj behind).1
      exact some (List.self_eq_append_right.mp runEq.symm)

theorem endsRun_of_plain (some : text ≠ []) (plain : ∀ c ∈ text, Region.word.Plain classes c) :
    EndsRun classes front text := by
  obtain ⟨c, rest, rfl⟩ := List.exists_cons_of_ne_nil some
  exact .of_head rfl ((plain c List.mem_cons_self).ordinary rfl).2

/-- In its place at a break a text is the last word and its value exactly when it names itself. -/
theorem Breaks.exists_word_iff (breaks : Breaks classes front settled) :
    (∃ word, words classes (front ++ text) = settled ++ [word] ∧ Word.literal word = text) ↔
      NamesItself classes text ∧ EndsRun classes front text := by
  constructor
  · rintro ⟨word, read, value⟩
    have ends : EndsRun classes front text := by
      intro run
      cases breaks with
      | gap scanned =>
          rw [scanned] at run
          cases run
      | run scanned =>
          by_contra continues
          refine words_append_ne_of_continues scanned ?_ word read
          intro c first
          rw [← Bool.not_eq_false]
          exact fun noSeparator => continues ⟨c, first, noSeparator⟩
    rw [breaks.words_append ends] at read
    exact ⟨namesItself_iff.mpr ⟨word, List.append_cancel_left read, value⟩, ends⟩
  · rintro ⟨names, ends⟩
    refine ⟨text, ?_, names.literal_eq⟩
    rw [breaks.words_append ends, names.words_eq]

end Places

end SerialCompletion.Line

namespace SerialCompletion.Completion

open Files Line

/-! ## The suggested paths -/

def Context.isPath : Context → Bool
  | .device _ | .file => true
  | .optionName _ | .value _ _ | .mapList _ | .command | .nothing => false

/-- The paths that are present for a typed text: devices, and the entries of the directory that
the text names, behind the text of this directory. -/
inductive Present (devices : List Text) (list : Lister) (typed : Text) : Text → Prop where
  | device {path : Text} (listed : path ∈ devices) : Present devices list typed path
  | entry {directory name : Text} {entry : Entry}
      (cut : Text.cutAfterLast '/' typed = (directory, name))
      (listed : entry ∈ list (if directory.isEmpty then ['.'] else directory))
      (completes : completesName name entry = true) :
      Present devices list typed (entryPath directory entry)

section Suggested

variable {classes : Classes} {devices : List Text} {list : Lister} {line typed path : Text}
  {offset : Nat} {suggestion : Suggestion}

theorem present_of_mem_completePath (member : path ∈ completePath list typed) :
    Present devices list typed path := by
  rcases cut : Text.cutAfterLast '/' typed with ⟨directory, name⟩
  simp only [completePath, cut] at member
  obtain ⟨entry, listed, completes, rfl⟩ := mem_pathCandidates.mp member
  exact .entry cut listed completes

theorem present_of_mem_values {context : Context} {start stop : Nat} (isPath : context.isPath = true)
    (replaced : Text.between? line start stop = some typed)
    (member : path ∈ (offerFor (.picocom devices) start context).values list line stop) :
    Present devices list typed path := by
  have files (found : path ∈ completePath list ((Text.between? line start stop).getD [])) :
      Present devices list typed path := by
    rw [replaced] at found
    exact present_of_mem_completePath found
  cases context with
  | optionName | value | mapList | command | nothing => cases isPath
  | file => exact files member
  | device literal =>
      simp only [offerFor] at member
      split at member
      case h_1 => exact files member
      case h_2 => exact .device (mem_of_mem_beginningWith member)

/-- Every suggestion where paths are completed has a path that is present as its value. -/
theorem present_of_mem_suggest (boundary : Text.isBoundary line offset = true)
    (isPath : (Context.ofCursor (Cursor.ofLine classes line offset)).isPath = true)
    (suggested : suggestion ∈ Completer.suggest ⟨classes, .picocom devices⟩ list line offset) :
    Present devices list (Cursor.ofLine classes line offset).typed suggestion.value := by
  obtain ⟨front, follows⟩ := Cursor.exists_follows classes line offset
  have clamped := Text.isBoundary_iff.mp boundary
  have within : min offset line.byteLength = offset :=
    Nat.min_eq_left (clamped ▸ Text.clamp_le_byteLength line offset)
  have replaced := follows.between?_start
  rw [clamped] at replaced
  rw [Completer.suggest_eq, within] at suggested
  obtain ⟨path, member, rfl⟩ := List.mem_map.mp suggested
  exact present_of_mem_values isPath replaced member

/-- The words up to the cursor when an accepted value ends the text in front of it. -/
theorem split_acceptSuggestion (session : Session) (unspaced : suggestion.appendSpace = false) :
    let after := session.acceptSuggestion suggestion
    split classes after.line after.cursor =
      words classes (Text.takeBytes suggestion.start session.line ++ suggestion.value) := by
  intro after
  have edited : after = Session.around
      (Text.takeBytes suggestion.start session.line ++ suggestion.value)
      (Text.dropBytes suggestion.stop session.line) session.suggestions := by
    simp only [after, Session.acceptSuggestion, unspaced]
    simp
  rw [edited, split_around]

end Suggested

/--
An accepted path is read as a path that is present exactly when it stands for
itself.  Let the cursor stand at a boundary where devices or files are
completed.  Whatever the directories hold, the value of a suggestion is the path
of a device, or of an entry of the directory that the typed text names, written
as it is.  Accepted without a space it is read on its own, behind the words that
were settled, unless it goes on with a run of separators in front of its span.
So the settled words are followed by one word with the path as its value
exactly when the path is one word that has itself as its value and goes on
with no such run: for one, when it is not empty and all its characters stand for themselves.
-/
theorem split_accept_path {classes : Classes} {devices : List Text} {list : Lister} {line : Text}
    {offset : Nat} {suggestion : Suggestion} (boundary : Text.isBoundary line offset = true)
    (isPath : (Context.ofCursor (Cursor.ofLine classes line offset)).isPath = true)
    (suggested : suggestion ∈ Completer.suggest ⟨classes, .picocom devices⟩ list line offset) :
    let cursor := Cursor.ofLine classes line offset
    let path := suggestion.value
    let after := Session.acceptSuggestion ⟨line, offset, []⟩ { suggestion with appendSpace := false }
    let read := split classes after.line after.cursor
    let ends := (Cursor.ofLine classes line suggestion.start).afterSeparators = true →
      ∃ c ∈ path.head?, classes.isSeparator c = false
    Present devices list cursor.typed path ∧
      (ends → read = cursor.settled ++ words classes path) ∧
      ((∃ word, read = cursor.settled ++ [word] ∧ Word.literal word = path) ↔
        NamesItself classes path ∧ ends) ∧
      (path ≠ [] → (∀ c ∈ path, Region.word.Plain classes c) →
        read = cursor.settled ++ [path] ∧ Word.literal path = path) := by
  intro cursor path after read ends
  obtain ⟨front, follows⟩ := Cursor.exists_follows classes line offset
  have startEq : suggestion.start = cursor.start := by
    rw [(Completer.span_of_mem _ list line offset suggested).1, Completer.offer_start]
  have frontEq : Text.takeBytes suggestion.start line = front := by
    rw [startEq, follows.takeBytes_start]
  have readEq : read = words classes (front ++ path) := by
    rw [← frontEq]
    exact split_acceptSuggestion _ rfl
  have endsEq : ends = EndsRun classes front path := by
    rw [← frontEq]
    exact congrArg (· → _) (propext Cursor.afterSeparators_iff)
  rw [readEq, endsEq]
  refine ⟨present_of_mem_suggest boundary isPath suggested, ?_, follows.breaks.exists_word_iff, ?_⟩
  · exact follows.breaks.words_append
  · intro some plain
    have names := namesItself_of_plain some plain
    rw [follows.breaks.words_append (endsRun_of_plain some plain), names.words_eq]
    exact ⟨rfl, names.literal_eq⟩

/-- A directory behind a gap, and the same directory right behind an equals sign. -/
theorem split_accept_path_logs :
    let completer : Completer := ⟨.standard, .picocom []⟩
    let list : Lister := fun _ => [⟨"logs", true⟩]
    let gap : Text := "picocom -g lo"
    let equals : Text := "picocom --logfile="
    let behindGap : Suggestion := ⟨"logs/", 11, 13, false⟩
    let behindEquals : Suggestion := ⟨"logs/", 18, 18, false⟩
    let afterGap := Session.acceptSuggestion ⟨gap, 13, []⟩ behindGap
    let afterEquals := Session.acceptSuggestion ⟨equals, 18, []⟩ behindEquals
    Text.isBoundary gap 13 = true ∧ Text.isBoundary equals 18 = true ∧
      (Context.ofCursor (Cursor.ofLine .standard gap 13)).isPath = true ∧
      (Context.ofCursor (Cursor.ofLine .standard equals 18)).isPath = true ∧
      behindGap ∈ completer.suggest list gap 13 ∧
      behindEquals ∈ completer.suggest list equals 18 ∧
      split .standard afterGap.line afterGap.cursor = [("picocom" : Text), "-g", "logs/"] ∧
      split .standard afterEquals.line afterEquals.cursor =
        [("picocom" : Text), "--logfile", "=", "logs/"] := by
  intro completer list gap equals behindGap behindEquals afterGap afterEquals
  have gapBoundary : Text.isBoundary gap 13 = true := by decide +kernel
  have equalsBoundary : Text.isBoundary equals 18 = true := by decide +kernel
  have gapPath : (Context.ofCursor (Cursor.ofLine .standard gap 13)).isPath = true := by
    decide +kernel
  have equalsPath : (Context.ofCursor (Cursor.ofLine .standard equals 18)).isPath = true := by
    decide +kernel
  have gapSuggested : behindGap ∈ completer.suggest list gap 13 := by decide +kernel
  have equalsSuggested : behindEquals ∈ completer.suggest list equals 18 := by decide +kernel
  have plain : ∀ c ∈ ("logs/" : Text), Region.word.Plain .standard c := by
    intro c member
    have chars : c ∈ ['l', 'o', 'g', 's', '/'] := member
    simp only [List.mem_cons, List.not_mem_nil, or_false] at chars
    rcases chars with rfl | rfl | rfl | rfl | rfl
    all_goals exact ⟨by decide, fun _ => by decide⟩
  have some : ("logs/" : Text) ≠ [] := by decide
  obtain ⟨-, -, -, readGap⟩ := split_accept_path gapBoundary gapPath gapSuggested
  obtain ⟨-, -, -, readEquals⟩ := split_accept_path equalsBoundary equalsPath equalsSuggested
  refine ⟨gapBoundary, equalsBoundary, gapPath, equalsPath, gapSuggested, equalsSuggested, ?_, ?_⟩
  · exact (readGap some plain).1.trans (by decide +kernel)
  · exact (readEquals some plain).1.trans (by decide +kernel)

/-- A name with a space in it is read as two words, and neither of them is the path. -/
theorem split_accept_path_spaced :
    let list : Lister := fun _ => [⟨"a b", true⟩]
    let line : Text := "picocom -g "
    let suggestion : Suggestion := ⟨"a b/", 11, 11, false⟩
    let after := Session.acceptSuggestion ⟨line, 11, []⟩ suggestion
    let cursor := Cursor.ofLine .standard line 11
    Text.isBoundary line 11 = true ∧ Context.ofCursor cursor = .file ∧
      Completer.suggest ⟨.standard, .picocom []⟩ list line 11 = [suggestion] ∧
      split .standard after.line after.cursor = [("picocom" : Text), "-g", "a", "b/"] ∧
      ¬ ∃ word, split .standard after.line after.cursor = cursor.settled ++ [word] ∧
        Word.literal word = suggestion.value := by
  intro list line suggestion after cursor
  have read : split .standard after.line after.cursor = [("picocom" : Text), "-g", "a", "b/"] := by
    decide +kernel
  have settled : cursor.settled = [("picocom" : Text), "-g"] := by decide +kernel
  refine ⟨by decide +kernel, by decide +kernel, by decide +kernel, read, ?_⟩
  rintro ⟨word, same, -⟩
  rw [read, settled] at same
  cases same

end SerialCompletion.Completion
