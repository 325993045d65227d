import SerialCompletion.Proofs.Line.Joining
import SerialCompletion.Proofs.Line.Rounds

/-!
# The discipline of the stack

Outside quotes and expansions the splitter remembers no mode, and between two
words it holds no character.  Inside, the word lies at the bottom of the stack,
and above it lie double quotes and expansions only.  The scan keeps this behind
every character, and the loop behind every round.  A round enters one mode, or
leaves one, or does neither, so whatever is entered returns to where it was
entered from.
-/

namespace SerialCompletion.Line

/-- A mode, the modes to return to and the open word, as they have to be together. -/
structure Disciplined (mode : Mode) (enclosing : List Mode) (word : Text) : Prop where
  enclosing_eq_nil_iff : enclosing = [] ↔ mode = .delimiter ∨ mode = .word
  word_eq_nil_iff : word = [] ↔ mode = .delimiter
  /-- The word is the outermost mode, and the others are those that quotes may be entered from. -/
  enclosing_eq : enclosing ≠ [] → ∃ above, enclosing = above ++ [.word] ∧
    ∀ outer ∈ above, outer = .doubleQuote ∨ outer = .parenExpansion ∨ outer = .braceExpansion
  singleQuote_not_mem : .singleQuote ∉ enclosing
  backtick_not_mem : .backtick ∉ enclosing

/-! ## Behind every character -/

section Characters

variable {classes : Classes} {mode : Mode} {enclosing : List Mode} {pending : Pending}
  {text word : Text}

theorem eq_of_nests (nests : mode.nests = true) :
    mode = .doubleQuote ∨ mode = .parenExpansion ∨ mode = .braceExpansion := by
  cases mode with
  | doubleQuote => exact .inl rfl
  | parenExpansion => exact .inr (.inl rfl)
  | braceExpansion => exact .inr (.inr rfl)
  | delimiter | word | singleQuote | backtick => cases nests

theorem Scan.Enclosing.exists_above (stack : Enclosing enclosing) :
    ∃ above, enclosing = above ++ [.word] ∧ ∀ outer ∈ above, outer.nests = true := by
  induction stack with
  | word => exact ⟨[], rfl, by simp⟩
  | @inner mode outer nests _ ih =>
      obtain ⟨above, same, each⟩ := ih
      exact ⟨mode :: above, congrArg (mode :: ·) same, List.forall_mem_cons.mpr ⟨nests, each⟩⟩

theorem Disciplined.bare (top : mode = .delimiter ∨ mode = .word)
    (opens : word = [] ↔ mode = .delimiter) : Disciplined mode [] word where
  enclosing_eq_nil_iff := iff_of_true rfl top
  word_eq_nil_iff := opens
  enclosing_eq := fun some => absurd rfl some
  singleQuote_not_mem := List.not_mem_nil
  backtick_not_mem := List.not_mem_nil

theorem Disciplined.nested (inside : mode.isTopLevel = false) (stack : Scan.Enclosing enclosing)
    (opens : word = [] ↔ mode = .delimiter) : Disciplined mode enclosing word := by
  obtain ⟨above, rfl, nests⟩ := stack.exists_above
  have absent (outer : Mode) (noWord : outer ≠ .word) (noNest : outer.nests = false) :
      outer ∉ above ++ [.word] := by
    intro member
    rcases List.mem_append.mp member with saved | bottom
    · rw [nests outer saved] at noNest
      cases noNest
    · exact noWord (List.mem_singleton.mp bottom)
  refine ⟨iff_of_false (List.concat_ne_nil _ _) ?_, opens, fun _ => ⟨above, rfl, ?_⟩,
    absent _ Mode.noConfusion rfl, absent _ Mode.noConfusion rfl⟩
  · rintro (rfl | rfl) <;> cases inside
  · intro outer saved
    exact eq_of_nests (nests outer saved)

theorem Scan.WellFormed.disciplined (formed : WellFormed ⟨mode, enclosing, pending⟩)
    (opens : word = [] ↔ mode = .delimiter) : Disciplined mode enclosing word := by
  cases formed with
  | between => exact .bare (.inl rfl) opens
  | word => exact .bare (.inr rfl) opens
  | nested inside stack => exact .nested inside stack opens

/-- Behind every text the scan and the last word are in order. -/
theorem disciplined_run {earlier : List Text} (read : words classes text = earlier ++ [word]) :
    Disciplined (Scan.start.run classes text).mode (Scan.start.run classes text).enclosing word := by
  obtain ⟨gap, opens⟩ := exists_opens_last read
  exact opens.formed.disciplined opens.word_eq_nil_iff

theorem Classes.Ended.ne_nil (ended : classes.Ended word) : word ≠ [] := by
  rintro rfl
  obtain ⟨scan, c, keeps, next, absorbed, made⟩ := ended
  cases absorbed
  obtain ⟨_, _, begins⟩ := Scan.exists_begins classes c
  rw [begins.move] at made
  cases made

theorem ne_nil_of_mem_dropLast (member : word ∈ (words classes text).dropLast) : word ≠ [] :=
  (ended_of_mem_dropLast member).ne_nil

end Characters

/-! ## Behind every round -/

section Rounds

variable {classes : Classes} {front rest : Text} {progress : Progress} {fallback : Mode} {c : Char}

theorem Shows.disciplined (shows : Shows classes front (progress, rest)) :
    Disciplined progress.mode progress.enclosing progress.word := by
  cases shows with
  | between => exact .bare (.inl rfl) (iff_of_true rfl rfl)
  | within _ read scanned =>
      have behind := disciplined_run read
      rwa [scanned] at behind

theorem Shows.closed_ne_nil (shows : Shows classes front (progress, rest)) :
    ∀ word ∈ progress.closed, word ≠ [] := by
  intro word member
  cases shows with
  | between breaks ends =>
      cases breaks with
      | gap _ read => exact ne_nil_of_mem_dropLast (by rwa [read, List.dropLast_concat])
      | run scanned =>
          obtain ⟨earlier, last, read⟩ := exists_words_eq classes front
          have discipline := disciplined_run read
          rw [scanned] at discipline
          rw [read] at member
          rcases List.mem_append.mp member with before | here
          · exact ne_nil_of_mem_dropLast (by rwa [read, List.dropLast_concat])
          · rw [List.mem_singleton.mp here, Ne, discipline.word_eq_nil_iff]
            exact Mode.noConfusion
  | within _ read => exact ne_nil_of_mem_dropLast (by rwa [read, List.dropLast_concat])

theorem Shows.close_ne_nil (shows : Shows classes front (progress, rest)) :
    ∀ word ∈ progress.close.closed, word ≠ [] := by
  unfold Progress.close
  split
  case isFalse => exact shows.closed_ne_nil
  case isTrue inside =>
    intro word member
    rcases List.mem_append.mp member with before | here
    · exact shows.closed_ne_nil word before
    · rw [List.mem_singleton.mp here, Ne, shows.disciplined.word_eq_nil_iff, inside]
      exact Mode.noConfusion

/-- What a closer leaves was entered from another mode. -/
theorem Disciplined.enclosing_ne_nil {mode : Mode} {enclosing : List Mode} {word : Text}
    (discipline : Disciplined mode enclosing word) (closes : mode.closer? = some c) :
    enclosing ≠ [] := by
  rw [Ne, discipline.enclosing_eq_nil_iff]
  rintro (rfl | rfl) <;> cases closes

end Rounds

/-! ## Where a quote or an expansion returns to -/

namespace Progress

/-- The mode that a quote or an expansion returns to if it is opened now: a word has begun by then. -/
def opener (progress : Progress) : Mode :=
  if progress.mode.isTopLevel then .word else progress.mode

end Progress

/-- A stack that stays, has the opener put on it, or has the mode behind it taken off. -/
inductive StackMove (opener : Mode) (before : List Mode) (after : Progress) : Prop where
  | stays (same : after.enclosing = before)
  | enters (pushed : after.enclosing = opener :: before)
  | leaves (popped : before = after.mode :: after.enclosing)

section Returning

variable {classes : Classes} {rest : Text} {progress : Progress} {fallback : Mode} {c : Char}

theorem Takes.stackMove {after : Progress × Text} (takes : Takes fallback progress c rest after) :
    StackMove progress.mode progress.enclosing after.1 := by
  cases takes with
  | stays | escapes => exact .stays rfl
  | expands | enters => exact .enters rfl
  | leaves closes =>
      obtain ⟨closed, word, mode, enclosing⟩ := progress
      cases enclosing with
      | nil => exact .stays rfl
      | cons outer above => exact .leaves rfl

theorem enclosing_separate (progress : Progress) (c : Char) (rest : Text) :
    (progress.separate classes c rest).1.enclosing = progress.enclosing := by
  unfold Progress.separate
  split <;> rfl

theorem enclosing_close (progress : Progress) : progress.close.enclosing = progress.enclosing := by
  unfold Progress.close
  split <;> rfl

/-- A round moves the stack by one mode at most. -/
theorem stackMove_round (classes : Classes) (fallback : Mode) (progress : Progress) (c : Char)
    (rest : Text) :
    StackMove progress.opener progress.enclosing (progress.round classes fallback c rest).1 := by
  unfold Progress.round Progress.opener
  split
  case isTrue top =>
    unfold Progress.topLevelRound
    split
    case isTrue delimits => exact .stays (enclosing_close progress)
    case isFalse =>
      split
      case isTrue separates =>
        exact .stays ((enclosing_separate _ c rest).trans (enclosing_close progress))
      case isFalse => exact (takes_take _ ({ progress with mode := .word }.push c) c rest).stackMove
  case isFalse inside => exact (takes_take fallback (progress.push c) c rest).stackMove

/-- From inside a quote or an expansion the loop gets out only by the mode and the stack that it
was opened in. -/
theorem suffix_or_returns {before after : Progress × Text} {outer : Mode} {stack : List Mode}
    (rounds : Rounds classes fallback before after) (opened : before.1.enclosing = outer :: stack) :
    outer :: stack <:+ after.1.enclosing ∨
      ∃ back, Rounds classes fallback before back ∧ Rounds classes fallback back after ∧
        back.1.mode = outer ∧ back.1.enclosing = stack := by
  induction rounds with
  | refl => exact .inl (opened ▸ List.suffix_refl _)
  | @tail middle after rounds last ih =>
      rcases ih with within | ⟨back, out, on, mode, enclosing⟩
      · cases last with
        | intro progress c rest =>
            have moves := stackMove_round classes fallback progress c rest
            cases moves with
            | stays same => exact .inl (by rwa [same])
            | enters pushed =>
                refine .inl (within.trans ?_)
                rw [pushed]
                exact List.suffix_cons _ _
            | leaves popped =>
                change outer :: stack <:+ progress.enclosing at within
                rw [popped, List.suffix_cons_iff] at within
                rcases within with same | inner
                · obtain ⟨mode, enclosing⟩ := List.cons.inj same
                  have reached := rounds.tail (.intro progress c rest)
                  exact .inr ⟨_, reached, .refl, mode.symm, enclosing.symm⟩
                · exact .inl inner
      · exact .inr ⟨back, out, on.tail last, mode, enclosing⟩

end Returning

/--
The stack of the splitter is in order behind every character and every round.
No mode is remembered exactly between words and in a bare word, and no character
is held exactly between words.  Whatever is remembered stands above the word,
and is a double quote or an expansion.  So what is left has a mode to return to,
no empty word is ended, and what a round enters gives way to nothing but the mode
and the stack in front of it.  The loop stands where the scan stands, and it ends
with the words of the line, whatever it would do without a mode to return to.
-/
theorem split_disciplined (classes : Classes) (fallback : Mode) (line : Text) (cursor : Nat) :
    let text := beforeCursor line cursor
    (∀ front, front <+: text → ∃ earlier word, words classes front = earlier ++ [word] ∧
        Disciplined (Scan.start.run classes front).mode (Scan.start.run classes front).enclosing
          word) ∧
      (∃ last, Rounds classes fallback (.start, text) (last, [])) ∧
      (∀ last, Rounds classes fallback (.start, text) (last, []) →
        last.words = split classes line cursor) ∧
      ∀ progress rest, Rounds classes fallback (.start, text) (progress, rest) →
        (∃ front, text = front ++ rest ∧ Shows classes front (progress, rest)) ∧
          Disciplined progress.mode progress.enclosing progress.word ∧
          (∀ c, progress.mode.closer? = some c → progress.enclosing ≠ []) ∧
          (∀ word ∈ progress.close.closed, word ≠ []) ∧
          ∀ c behind, rest = c :: behind →
            let opened := progress.round classes fallback c behind
            progress.enclosing.length < opened.1.enclosing.length →
              ∀ after, Rounds classes fallback opened after →
                opened.1.enclosing <:+ after.1.enclosing ∨
                  ∃ back, Rounds classes fallback opened back ∧
                    Rounds classes fallback back after ∧
                    back.1.mode = progress.opener ∧ back.1.enclosing = progress.enclosing := by
  intro text
  have shown (after : Progress × Text) (rounds : Rounds classes fallback (.start, text) after) :
      ∃ front, text = front ++ after.2 ∧ Shows classes front after := by
    simpa [Advances] using (shows_start classes text).rounds rounds
  refine ⟨fun front _ => ?_, exists_rounds_to_end _ text, fun last rounds => ?_, ?_⟩
  · obtain ⟨earlier, word, read⟩ := exists_words_eq classes front
    exact ⟨earlier, word, read, disciplined_run read⟩
  · obtain ⟨front, passed, shows⟩ := shown _ rounds
    rw [List.append_nil] at passed
    rw [shows.words_eq, ← passed]
    rfl
  · intro progress rest rounds
    obtain ⟨front, passed, shows⟩ := shown _ rounds
    have discipline := shows.disciplined
    refine ⟨⟨front, passed, shows⟩, discipline, fun c => discipline.enclosing_ne_nil,
      shows.close_ne_nil, ?_⟩
    intro c behind _ opened deeper after on
    have moves : StackMove progress.opener progress.enclosing opened.1 :=
      stackMove_round classes fallback progress c behind
    cases moves with
    | stays same =>
        rw [same] at deeper
        exact absurd deeper (lt_irrefl _)
    | enters pushed =>
        have out := suffix_or_returns on pushed
        rwa [← pushed] at out
    | leaves popped =>
        rw [popped, List.length_cons] at deeper
        exact absurd deeper (by omega)

/-- An expansion inside quotes: once it is left, the loop has come back to the quotes in a word. -/
theorem split_disciplined_expansion :
    let text : Text := "\"$(a) "
    let quoted : Progress := ⟨[], "\"", .doubleQuote, [.word]⟩
    let last : Progress := ⟨[], "\"$(a) ", .doubleQuote, [.word]⟩
    let opened := quoted.round .standard .word '$' "(a) "
    Rounds .standard .word (.start, text) (quoted, "$(a) ") ∧
      Rounds .standard .word opened (last, []) ∧
      ∃ back, Rounds .standard .word opened back ∧ Rounds .standard .word back (last, []) ∧
        back.1.mode = .doubleQuote ∧ back.1.enclosing = [.word] := by
  intro text quoted last opened
  have before : Rounds .standard .word (.start, text) (quoted, "$(a) ") :=
    .single (.intro .start '"' "$(a) ")
  have after : Rounds .standard .word opened (last, []) :=
    .head (.intro ⟨[], "\"$(", .parenExpansion, [.doubleQuote, .word]⟩ 'a' ") ")
      (.head (.intro ⟨[], "\"$(a", .parenExpansion, [.doubleQuote, .word]⟩ ')' " ")
        (.single (.intro ⟨[], "\"$(a)", .doubleQuote, [.word]⟩ ' ' [])))
  obtain ⟨_, _, _, states⟩ := split_disciplined .standard .word text text.byteLength
  obtain ⟨_, _, _, _, returns⟩ := states quoted "$(a) " before
  have out := returns '$' "(a) " rfl (by decide) (last, []) after
  exact ⟨before, after, out.resolve_left (by decide)⟩

end SerialCompletion.Line
