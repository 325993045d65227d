import Mathlib.Data.List.TakeWhile
import Mathlib.Logic.Relation
import SerialCompletion.Proofs.Line.Breaks

/-!
# Splitting in rounds

The splitter as a loop that looks ahead.  A round takes a character together
with what it claims: the character behind a backslash, the bracket behind a
dollar, the rest of a run of separators.  Behind every round the loop stands
where the scan stands, which takes one character at a time and never looks
ahead, and so the loop ends with the words of the text.

What the loop does when it leaves a quote or an expansion and has nothing to
return to is a parameter, and nothing depends on it.
-/

namespace SerialCompletion.Line

/-- What the loop keeps between two rounds. -/
structure Progress where
  closed : List Text
  word : Text
  mode : Mode
  enclosing : List Mode
  deriving DecidableEq, Repr

/-! ## One round -/

namespace Progress

def start : Progress := ⟨[], [], .delimiter, []⟩

def words (progress : Progress) : List Text :=
  progress.closed ++ [progress.word]

def push (progress : Progress) (c : Char) : Progress :=
  { progress with word := progress.word ++ [c] }

def close (progress : Progress) : Progress :=
  if progress.mode = .word then
    { progress with closed := progress.closed ++ [progress.word], word := [] }
  else progress

def enter (progress : Progress) (mode : Mode) : Progress :=
  { progress with mode := mode, enclosing := progress.mode :: progress.enclosing }

/-- Leave the innermost quote or expansion, for the fallback if there is nothing to return to. -/
def leave (fallback : Mode) (progress : Progress) : Progress :=
  match progress.enclosing with
  | [] => { progress with mode := fallback }
  | mode :: rest => { progress with mode := mode, enclosing := rest }

def escape (progress : Progress) : Text → Progress × Text
  | [] => (progress, [])
  | c :: rest => (progress.push c, rest)

def expand (progress : Progress) : Text → Progress × Text
  | [] => (progress, [])
  | c :: rest =>
      match Mode.ofBracket? c with
      | none => (progress, c :: rest)
      | some mode => ((progress.push c).enter mode, rest)

def take (fallback : Mode) (progress : Progress) (c : Char) (rest : Text) : Progress × Text :=
  if c = '\\' ∧ progress.mode.escapes then progress.escape rest
  else if c = '$' ∧ progress.mode.expands then progress.expand rest
  else if progress.mode.closer? = some c then (progress.leave fallback, rest)
  else if progress.mode.opensQuote c then (progress.enter (Mode.ofQuote c), rest)
  else (progress, rest)

/-- Take a whole run of separators, a word that stays open only at the end of the text. -/
def separate (classes : Classes) (progress : Progress) (c : Char) (rest : Text) : Progress × Text :=
  let word := progress.word ++ c :: rest.takeWhile classes.isSeparator
  match rest.dropWhile classes.isSeparator with
  | [] => ({ progress with word := word, mode := .word }, [])
  | d :: behind =>
      ({ progress with closed := progress.closed ++ [word], word := [], mode := .delimiter },
        d :: behind)

def topLevelRound (classes : Classes) (fallback : Mode) (progress : Progress) (c : Char)
    (rest : Text) : Progress × Text :=
  if classes.isDelimiter c then ({ progress.close with mode := .delimiter }, rest)
  else if classes.isSeparator c then progress.close.separate classes c rest
  else ({ progress with mode := .word }.push c).take fallback c rest

/-- The round of a character, and what the round leaves of the text behind the character. -/
def round (classes : Classes) (fallback : Mode) (progress : Progress) (c : Char) (rest : Text) :
    Progress × Text :=
  if progress.mode.isTopLevel then progress.topLevelRound classes fallback c rest
  else (progress.push c).take fallback c rest

end Progress

inductive Round (classes : Classes) (fallback : Mode) : Progress × Text → Progress × Text → Prop where
  | intro (progress : Progress) (c : Char) (rest : Text) :
      Round classes fallback (progress, c :: rest) (progress.round classes fallback c rest)

abbrev Rounds (classes : Classes) (fallback : Mode) : Progress × Text → Progress × Text → Prop :=
  Relation.ReflTransGen (Round classes fallback)

/-! ## What a character in a word can do -/

inductive Takes (fallback : Mode) (progress : Progress) (c : Char) (rest : Text) :
    Progress × Text → Prop where
  | stays : Takes fallback progress c rest (progress, rest)
  | escapes {d : Char} {behind : Text} (ahead : rest = d :: behind) :
      Takes fallback progress c rest (progress.push d, behind)
  | expands {d : Char} {behind : Text} {mode : Mode} (ahead : rest = d :: behind)
      (bracket : Mode.ofBracket? d = some mode) :
      Takes fallback progress c rest ((progress.push d).enter mode, behind)
  | leaves (closes : progress.mode.closer? = some c) :
      Takes fallback progress c rest (progress.leave fallback, rest)
  | enters (opens : progress.mode.opensQuote c = true) :
      Takes fallback progress c rest (progress.enter (Mode.ofQuote c), rest)

theorem takes_take (fallback : Mode) (progress : Progress) (c : Char) (rest : Text) :
    Takes fallback progress c rest (progress.take fallback c rest) := by
  unfold Progress.take
  split
  case isTrue escape =>
    cases rest with
    | nil => exact .stays
    | cons d behind => exact .escapes rfl
  case isFalse =>
    split
    case isTrue dollar =>
      cases rest with
      | nil => exact .stays
      | cons d behind =>
          cases bracket : Mode.ofBracket? d <;> simp only [Progress.expand, bracket]
          · exact .stays
          · exact .expands rfl bracket
    case isFalse =>
      split
      case isTrue closes => exact .leaves closes
      case isFalse =>
        split
        case isTrue opens => exact .enters opens
        case isFalse => exact .stays

/-! ## The loop ends -/

section Ends

variable {classes : Classes} {fallback : Mode}

theorem Takes.suffix {progress : Progress} {c : Char} {rest : Text} {after : Progress × Text}
    (takes : Takes fallback progress c rest after) : after.2 <:+ rest := by
  cases takes with
  | stays | leaves | enters => exact List.suffix_refl _
  | escapes ahead | expands ahead =>
      rw [ahead]
      exact List.suffix_cons _ _

theorem suffix_separate (progress : Progress) (c : Char) (rest : Text) :
    (progress.separate classes c rest).2 <:+ rest := by
  have behind := List.dropWhile_suffix (l := rest) classes.isSeparator
  unfold Progress.separate
  generalize rest.dropWhile classes.isSeparator = left at behind
  cases left <;> exact behind

/-- A round leaves an end of the text that it looks ahead at. -/
theorem suffix_round (classes : Classes) (fallback : Mode) (progress : Progress) (c : Char)
    (rest : Text) :
    (progress.round classes fallback c rest).2 <:+ rest := by
  unfold Progress.round Progress.topLevelRound
  split
  case isTrue =>
    split
    case isTrue => exact List.suffix_refl _
    case isFalse =>
      split
      case isTrue => exact suffix_separate _ c rest
      case isFalse => exact (takes_take _ _ c rest).suffix
  case isFalse => exact (takes_take _ _ c rest).suffix

/-- From every state the loop comes to the end of the text. -/
theorem exists_rounds_to_end (progress : Progress) (text : Text) :
    ∃ last, Rounds classes fallback (progress, text) (last, []) := by
  induction size : text.length using Nat.strong_induction_on generalizing progress text with
  | h bound ih =>
      cases text with
      | nil => exact ⟨progress, .refl⟩
      | cons c rest =>
          have shorter := (suffix_round classes fallback progress c rest).length_le
          rw [List.length_cons] at size
          obtain ⟨last, rounds⟩ := ih _ (by omega) (progress.round classes fallback c rest).1
            (progress.round classes fallback c rest).2 rfl
          exact ⟨last, .head (.intro progress c rest) rounds⟩

end Ends

/-! ## What the scan shows of the loop -/

/-- What a state of the loop and the rest of the text have to do with the scan of the front. -/
inductive Shows (classes : Classes) (front : Text) : Progress × Text → Prop where
  /-- Behind a gap, or behind a run of separators that has ended. -/
  | between {closed : List Text} {rest : Text} (breaks : Breaks classes front closed)
      (ends : EndsRun classes front rest) : Shows classes front (⟨closed, [], .delimiter, []⟩, rest)
  /-- Inside a word that claims nothing of the rest. -/
  | within {closed : List Text} {word : Text} {mode : Mode} {enclosing : List Mode}
      {pending : Pending} {rest : Text} (inside : mode ≠ .delimiter)
      (read : words classes front = closed ++ [word])
      (scanned : Scan.start.run classes front = ⟨mode, enclosing, pending⟩)
      (idle : ∀ c ∈ rest.head?, pending.Idle c) :
      Shows classes front (⟨closed, word, mode, enclosing⟩, rest)

/-- Whether a round leads from a state behind a text to one behind more of the text. -/
def Advances (classes : Classes) (front text : Text) (after : Progress × Text) : Prop :=
  ∃ taken, text = taken ++ after.2 ∧ Shows classes (front ++ taken) after

section Characters

variable {classes : Classes} {front word rest : Text} {closed : List Text} {mode : Mode}
  {enclosing : List Mode} {pending : Pending} {c : Char} (fallback : Mode)

theorem Advances.refl {after : Progress × Text} (shows : Shows classes front after) :
    Advances classes front after.2 after :=
  ⟨[], rfl, by rwa [List.append_nil]⟩

theorem Advances.cons {text : Text} {after : Progress × Text}
    (advances : Advances classes (front ++ [c]) text after) :
    Advances classes front (c :: text) after := by
  obtain ⟨taken, same, shows⟩ := advances
  refine ⟨c :: taken, congrArg (c :: ·) same, ?_⟩
  rwa [List.append_assoc] at shows

theorem advances_escape (inside : mode ≠ .delimiter) (read : words classes front = closed ++ [word])
    (scanned : Scan.start.run classes front = ⟨mode, enclosing, .escape⟩) (rest : Text) :
    Advances classes front rest (Progress.escape ⟨closed, word, mode, enclosing⟩ rest) := by
  cases rest with
  | nil => exact .refl (.within inside read scanned (by simp))
  | cons d rest =>
      have made : (Scan.start.run classes front).move classes d =
          ⟨false, true, ⟨mode, enclosing, .nothing⟩⟩ := by
        rw [scanned]
        rfl
      refine .cons (.refl (.within inside ?_ (Ending.run_concat made) fun _ _ => .nothing))
      exact words_concat_of_joins read made

theorem advances_expand (inside : mode ≠ .delimiter) (read : words classes front = closed ++ [word])
    (scanned : Scan.start.run classes front = ⟨mode, enclosing, .dollar⟩) (rest : Text) :
    Advances classes front rest (Progress.expand ⟨closed, word, mode, enclosing⟩ rest) := by
  cases rest with
  | nil => exact .refl (.within inside read scanned (by simp))
  | cons d rest =>
      cases bracket : Mode.ofBracket? d with
      | none =>
          simp only [Progress.expand, bracket]
          refine .refl (.within inside read scanned fun c head => ?_)
          cases head
          exact .dollar bracket
      | some inner =>
          have made : Scan.move classes ⟨mode, enclosing, .dollar⟩ d = _ :=
            Scan.move_expands mode enclosing bracket
          rw [← scanned] at made
          have entered := Scan.ne_delimiter_of_inside (Scan.ofBracket?_inside bracket)
          simp only [Progress.expand, bracket]
          refine .cons (.refl (.within entered ?_ (Ending.run_concat made) fun _ _ => .nothing))
          exact words_concat_of_joins read made

/-- A character that has joined the open word takes what the scan behind it has pending. -/
theorem advances_take (inside : mode ≠ .delimiter)
    (formed : Scan.WellFormed ⟨mode, enclosing, .nothing⟩)
    (read : words classes front = closed ++ [word])
    (scanned : Scan.start.run classes front = Scan.take ⟨mode, enclosing, .nothing⟩ c) (rest : Text) :
    Advances classes front rest
      (Progress.take fallback ⟨closed, word, mode, enclosing⟩ c rest) := by
  have kept := formed.take inside c
  rw [← scanned] at kept
  unfold Scan.take at scanned
  unfold Progress.take
  by_cases escape : c = '\\' ∧ mode.escapes = true
  · rw [if_pos escape] at scanned ⊢
    exact advances_escape inside read scanned rest
  rw [if_neg escape] at scanned ⊢
  by_cases dollar : c = '$' ∧ mode.expands = true
  · rw [if_pos dollar] at scanned ⊢
    exact advances_expand inside read scanned rest
  rw [if_neg dollar] at scanned ⊢
  by_cases closes : mode.closer? = some c
  · rw [if_pos closes] at scanned ⊢
    cases formed with
    | between | word => cases closes
    | nested _ stack =>
        cases stack with
        | word | inner =>
            rw [scanned] at kept
            exact .refl (.within kept.2.1 read scanned fun _ _ => .nothing)
  rw [if_neg closes] at scanned ⊢
  by_cases opens : mode.opensQuote c = true
  · rw [if_pos opens] at scanned ⊢
    have entered := Scan.ne_delimiter_of_inside (Scan.ofQuote_inside c)
    exact .refl (.within entered read scanned fun _ _ => .nothing)
  · rw [if_neg opens] at scanned ⊢
    exact .refl (.within inside read scanned fun _ _ => .nothing)

end Characters

/-! ## Characters that are read as behind a gap -/

/-- Whether the text from a character on is read on its own, behind words that are complete. -/
def Restarts (classes : Classes) (front : Text) (closed : List Text) (c : Char) : Prop :=
  ∀ rest, words classes (front ++ c :: rest) = closed ++ words classes (c :: rest) ∧
    Scan.start.run classes (front ++ c :: rest) = Scan.start.run classes (c :: rest)

section Restarting

variable {classes : Classes} {front word rest : Text} {closed : List Text} {c : Char}

/-- A character that ends the open word is read as behind a gap. -/
theorem Restarts.of_ends {next : Scan} {keeps : Bool} (read : words classes front = closed ++ [word])
    (made : (Scan.start.run classes front).move classes c = ⟨true, keeps, next⟩)
    (begins : Scan.Begins classes c keeps next) : Restarts classes front (closed ++ [word]) c := by
  intro rest
  constructor
  · rw [words_append_last read, wordsFrom_cons_of_ends made begins, prependFirst, List.append_nil,
      List.append_assoc, List.singleton_append]
  · rw [Scan.run_append, Scan.run_cons, Scan.run_cons, made, begins.move]

theorem Breaks.restarts (breaks : Breaks classes front closed)
    (ends : EndsRun classes front (c :: rest)) : Restarts classes front closed c := by
  cases breaks with
  | gap scanned read =>
      intro rest
      exact ⟨words_append_of_gap read _, by rw [Scan.run_append, scanned]⟩
  | run scanned =>
      obtain ⟨d, head, noSeparator⟩ := ends (by rw [scanned])
      cases head
      obtain ⟨closed, last, read⟩ := exists_words_eq classes front
      obtain ⟨keeps, next, begins⟩ := Scan.exists_begins classes c
      have made := Scan.move_endsRun noSeparator begins
      rw [← scanned] at made
      rw [read]
      exact .of_ends read made begins

namespace Restarts

theorem delimiter (restarts : Restarts classes front closed c)
    (delimits : classes.isDelimiter c = true) :
    Scan.start.run classes (front ++ [c]) = Scan.start ∧
      words classes (front ++ [c]) = closed ++ [[]] := by
  have made := (Scan.Begins.delimiter delimits).move
  obtain ⟨read, scanned⟩ := restarts []
  constructor
  · rw [scanned, Scan.run_cons, made, Scan.run_nil]
  · rw [read, words_cons_of_delimiter delimits]
    rfl

theorem separators {run : Text} (restarts : Restarts classes front closed c)
    (noDelimiter : classes.isDelimiter c = false) (separates : classes.isSeparator c = true)
    (others : ∀ d ∈ run, classes.isSeparator d = true) :
    Scan.start.run classes (front ++ c :: run) = ⟨.word, [], .separators⟩ ∧
      words classes (front ++ c :: run) = closed ++ [c :: run] := by
  have absorbed : Scan.Absorbs classes Scan.start (c :: run) ⟨.word, [], .separators⟩ :=
    .cons (Scan.Begins.separator noDelimiter separates).move (Scan.Absorbs.separators others)
  obtain ⟨read, scanned⟩ := restarts run
  constructor
  · rw [scanned, absorbed.run]
  · rw [read, words, absorbed.wordsFrom_eq]

theorem ordinary (restarts : Restarts classes front closed c)
    (noDelimiter : classes.isDelimiter c = false) (noSeparator : classes.isSeparator c = false) :
    Scan.start.run classes (front ++ [c]) = Scan.take ⟨.word, [], .nothing⟩ c ∧
      words classes (front ++ [c]) = closed ++ [[c]] := by
  have made := (Scan.Begins.ordinary noDelimiter noSeparator).move
  obtain ⟨read, scanned⟩ := restarts []
  constructor
  · rw [scanned, Scan.run_cons, made, Scan.run_nil]
  · rw [read, words, wordsFrom_of_joins [] made]
    rfl

end Restarts

theorem Restarts.advances_separate (restarts : Restarts classes front closed c) (mode : Mode)
    (noDelimiter : classes.isDelimiter c = false) (separates : classes.isSeparator c = true)
    (rest : Text) :
    Advances classes front (c :: rest)
      (Progress.separate classes ⟨closed, [], mode, []⟩ c rest) := by
  have others : ∀ d ∈ rest.takeWhile classes.isSeparator, classes.isSeparator d = true :=
    fun d member => List.mem_takeWhile_imp member
  obtain ⟨scanned, read⟩ := restarts.separators noDelimiter separates others
  have whole : rest = rest.takeWhile classes.isSeparator ++ rest.dropWhile classes.isSeparator :=
    List.takeWhile_append_dropWhile.symm
  have ends := List.head?_dropWhile_not classes.isSeparator rest
  unfold Progress.separate
  generalize rest.takeWhile classes.isSeparator = run at scanned read whole ⊢
  generalize rest.dropWhile classes.isSeparator = behind at whole ends ⊢
  refine ⟨c :: run, ?_, ?_⟩
  · cases behind <;> exact congrArg (c :: ·) whole
  · cases behind with
    | nil => exact .within Mode.noConfusion read scanned (by simp)
    | cons d behind =>
        have breaks : Breaks classes (front ++ c :: run) (closed ++ [c :: run]) := by
          rw [← read]
          exact .run scanned
        exact .between breaks fun _ => ⟨d, rfl, ends⟩

end Restarting

/-! ## Rounds and moves -/

section Refinement

variable {classes : Classes} {front word rest : Text} {closed : List Text} {c : Char}
  {fallback : Mode}

/-- A round at a character that is read as behind a gap, once the open word is ended. -/
theorem Restarts.advances_topLevel {progress : Progress} {mode : Mode}
    (restarts : Restarts classes front closed c) (ended : progress.close = ⟨closed, [], mode, []⟩)
    (breaks : classes.isDelimiter c = true ∨ classes.isSeparator c = true) :
    Advances classes front (c :: rest) (progress.topLevelRound classes fallback c rest) := by
  unfold Progress.topLevelRound
  rw [ended]
  by_cases delimits : classes.isDelimiter c = true
  · rw [if_pos delimits]
    obtain ⟨scanned, read⟩ := restarts.delimiter delimits
    refine .cons (.refl (.between (.gap scanned read) fun run => ?_))
    rw [scanned] at run
    cases run
  · have separates := breaks.resolve_left delimits
    rw [if_neg delimits, if_pos separates]
    exact restarts.advances_separate mode (Bool.eq_false_iff.mpr delimits) separates rest

theorem advances_ordinary {progress : Progress} (noDelimiter : classes.isDelimiter c = false)
    (noSeparator : classes.isSeparator c = false) (bare : progress.enclosing = [])
    (read : words classes (front ++ [c]) = progress.closed ++ [progress.word ++ [c]])
    (scanned : Scan.start.run classes (front ++ [c]) = Scan.take ⟨.word, [], .nothing⟩ c) :
    Advances classes front (c :: rest) (progress.topLevelRound classes fallback c rest) := by
  obtain ⟨closed, word, mode, enclosing⟩ := progress
  subst bare
  unfold Progress.topLevelRound
  rw [noDelimiter, noSeparator]
  exact .cons (advances_take fallback Mode.noConfusion (.word .nothing) read scanned rest)

/-- One round leads from a state that the scan shows to another, behind more of the text. -/
theorem Shows.round {progress : Progress} (shows : Shows classes front (progress, c :: rest)) :
    Advances classes front (c :: rest) (progress.round classes fallback c rest) := by
  cases shows with
  | between breaks ends =>
      have restarts := breaks.restarts ends
      by_cases kept : classes.isDelimiter c = false ∧ classes.isSeparator c = false
      · obtain ⟨scanned, read⟩ := restarts.ordinary kept.1 kept.2
        exact advances_ordinary kept.1 kept.2 rfl read scanned
      · rw [not_and_or, Bool.not_eq_false, Bool.not_eq_false] at kept
        exact restarts.advances_topLevel rfl kept
  | @within closed word mode enclosing pending _ inside read scanned idle =>
      have formed := Scan.WellFormed.between.run classes front
      change (Scan.start.run classes front).WellFormed at formed
      rw [scanned] at formed
      have calm := idle c rfl
      cases formed with
      | between => exact absurd rfl inside
      | word =>
          by_cases kept : classes.isDelimiter c = false ∧ classes.isSeparator c = false
          · have made := Scan.move_ordinary calm kept.1 kept.2
            rw [← scanned] at made
            exact advances_ordinary kept.1 kept.2 rfl (words_concat_of_joins read made)
              (Ending.run_concat made)
          · rw [not_and_or, Bool.not_eq_false, Bool.not_eq_false] at kept
            obtain ⟨keeps, next, begins⟩ := Scan.exists_begins classes c
            have made := Scan.move_ends calm kept begins
            rw [← scanned] at made
            exact (Restarts.of_ends read made begins).advances_topLevel rfl kept
      | nested nestedInside stack allowed =>
          have made : Scan.move classes ⟨mode, enclosing, pending⟩ c = _ :=
            Scan.move_nested enclosing nestedInside calm
          rw [← scanned] at made
          unfold Progress.round
          rw [nestedInside]
          exact .cons (advances_take fallback inside (.nested nestedInside stack rfl)
            (words_concat_of_joins read made) (Ending.run_concat made) rest)

/-- Any rounds lead from a state that the scan shows to another, behind more of the text. -/
theorem Shows.rounds {before after : Progress × Text} (shows : Shows classes front before)
    (rounds : Rounds classes fallback before after) : Advances classes front before.2 after := by
  induction rounds with
  | refl => exact .refl shows
  | tail _ last ih =>
      cases last with
      | intro progress c rest =>
          obtain ⟨taken, passed, between⟩ := ih
          obtain ⟨more, behind, shown⟩ : Advances classes _ (c :: rest)
              (progress.round classes fallback c rest) := between.round
          refine ⟨taken ++ more, ?_, ?_⟩
          · rw [passed, behind, List.append_assoc]
          · rwa [List.append_assoc] at shown

/-- Behind the whole text the loop has the words of the text. -/
theorem Shows.words_eq {progress : Progress} (shows : Shows classes front (progress, [])) :
    progress.words = words classes front := by
  cases shows with
  | between breaks ends =>
      cases breaks with
      | gap _ read => exact read.symm
      | run scanned =>
          obtain ⟨c, head, _⟩ := ends (by rw [scanned])
          cases head
  | within _ read => exact read.symm

theorem shows_start (classes : Classes) (text : Text) :
    Shows classes [] (Progress.start, text) :=
  .between (.gap rfl rfl) fun run => by cases run

end Refinement

end SerialCompletion.Line
