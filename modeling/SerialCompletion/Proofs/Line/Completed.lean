import SerialCompletion.Proofs.Line.Grammar

/-!
# Completed words

Every word that the splitter has completed is a word of the quoting grammar or
a run of separators.  The argument goes from the end of a word to its
beginning: `Closes` says what a stack of modes still demands of the rest of a
word, and a character in front of a rest turns the demands behind it into the
demands before it.
-/

namespace SerialCompletion.Line

/-! ## What is demanded of a rest -/

def Mode.region : Mode → Region
  | .delimiter | .word => .word
  | .singleQuote => .singleQuotes
  | .doubleQuote => .doubleQuotes
  | .backtick => .backticks
  | .parenExpansion => .parens
  | .braceExpansion => .braces

def Pending.text : Pending → Text
  | .nothing | .separators => []
  | .escape => ['\\']
  | .dollar => ['$']

/-- What a mode and the modes around it demand of the rest of a word. -/
def Closes (classes : Classes) (mode : Mode) : List Mode → Text → Prop
  | [], text => Items classes mode.region text
  | outer :: enclosing, text => ∃ body rest, text = body ++ mode.region.closing ++ rest ∧
      Items classes mode.region body ∧ Closes classes outer enclosing rest

section Completing

variable {classes : Classes} {mode inner : Mode} {enclosing : List Mode} {text : Text} {c : Char}

/-- An item in front of the items of a region stands in front of what its mode demands. -/
theorem Closes.prepend (item : Text)
    (adds : ∀ body, body <+: text → Items classes mode.region body →
      Items classes mode.region (item ++ body)) (closes : Closes classes mode enclosing text) :
    Closes classes mode enclosing (item ++ text) := by
  cases enclosing with
  | nil => exact adds text List.prefix_rfl closes
  | cons outer enclosing =>
      obtain ⟨body, rest, rfl, items, after⟩ := closes
      rw [List.append_assoc] at adds
      refine ⟨item ++ body, rest, ?_, adds body (List.prefix_append _ _) items, after⟩
      simp only [List.append_assoc]

theorem Closes.escape (escapes : mode.escapes = true) (c : Char)
    (closes : Closes classes mode enclosing text) :
    Closes classes mode enclosing ('\\' :: c :: text) := by
  refine closes.prepend ['\\', c] fun body _ items => .escape c ?_ items
  intro single
  cases mode <;> cases single
  cases escapes

theorem Closes.dollar (expands : mode.expands = true) (alone : ∀ c ∈ text.head?, c ≠ '(' ∧ c ≠ '{')
    (closes : Closes classes mode enclosing text) : Closes classes mode enclosing ('$' :: text) := by
  refine closes.prepend ['$'] fun body front items => .dollar ?_ ?_ ?_ items
  · intro single
    cases mode <;> cases single
    cases expands
  · intro backticks
    cases mode <;> cases backticks
    cases expands
  · intro c head
    obtain ⟨rest, rfl⟩ := front
    apply alone
    cases body with
    | nil => cases head
    | cons d body => exact head

theorem Closes.plain (plain : mode.region.Plain classes c)
    (closes : Closes classes mode enclosing text) : Closes classes mode enclosing (c :: text) :=
  closes.prepend [c] fun _ _ items => .plain plain items

/-- What is demanded inside a span becomes, behind its opening, what is demanded around it. -/
theorem Closes.enter (holds : mode.region.holds inner.region = true)
    (closes : Closes classes inner (mode :: enclosing) text) :
    Closes classes mode enclosing (inner.region.opening ++ text) := by
  obtain ⟨body, rest, rfl, inside, after⟩ := closes
  have spanned := after.prepend (inner.region.opening ++ body ++ inner.region.closing)
    fun _ _ items => Items.span holds inside items
  simpa only [List.append_assoc] using spanned

theorem Closes.leave (closing : mode.region.closing = [c]) {outer : Mode}
    (closes : Closes classes outer enclosing text) :
    Closes classes mode (outer :: enclosing) (c :: text) :=
  ⟨[], text, by simp [closing], .nil _, closes⟩

theorem holds_ofQuote (opens : mode.opensQuote c = true) :
    mode.region.holds (Mode.ofQuote c).region = true ∧ (Mode.ofQuote c).region.opening = [c] := by
  cases mode with
  | singleQuote | backtick => cases opens
  | doubleQuote =>
      rw [eq_of_beq (show (c == '\x60') = true from opens)]
      exact ⟨rfl, rfl⟩
  | delimiter | word | parenExpansion | braceExpansion =>
      rcases isQuoteOpener_iff.mp opens with rfl | rfl | rfl <;> exact ⟨rfl, rfl⟩

theorem holds_ofBracket? (expands : mode.expands = true) (bracket : Mode.ofBracket? c = some inner) :
    mode.region.holds inner.region = true ∧ inner.region.opening = ['$', c] := by
  cases mode with
  | singleQuote | backtick => cases expands
  | delimiter | word | doubleQuote | parenExpansion | braceExpansion =>
      rcases Mode.eq_of_ofBracket? bracket with ⟨rfl, rfl⟩ | ⟨rfl, rfl⟩ <;> exact ⟨rfl, rfl⟩

theorem closing_of_closer? (closer : mode.closer? = some c) : mode.region.closing = [c] := by
  cases mode <;> cases closer <;> rfl

theorem plain_of_takes (noEscape : ¬ (c = '\\' ∧ mode.escapes = true))
    (noDollar : ¬ (c = '$' ∧ mode.expands = true)) (noCloser : mode.closer? ≠ some c)
    (noOpener : mode.opensQuote c = false)
    (ordinary : mode.isTopLevel = true → classes.isDelimiter c = false ∧ classes.isSeparator c = false) :
    mode.region.Plain classes c := by
  refine ⟨?_, fun bare => ordinary ?_⟩
  · intro special
    cases mode <;> simp_all [Mode.region, Region.special, Mode.escapes, Mode.expands, Mode.closer?,
      Mode.opensQuote, isQuoteOpener]
  · cases mode with
    | delimiter | word => rfl
    | singleQuote | doubleQuote | backtick | parenExpansion | braceExpansion => cases bare

/-- A character that joins a word, in front of what the control after it demands. -/
theorem Closes.take {pending : Pending} {next : Scan}
    (formed : Scan.WellFormed ⟨mode, enclosing, pending⟩) (taken : Scan.Takes mode enclosing c next)
    (ordinary : mode.isTopLevel = true → classes.isDelimiter c = false ∧ classes.isSeparator c = false)
    (closes : Closes classes next.mode next.enclosing (next.pending.text ++ text)) :
    Closes classes mode enclosing (c :: text) := by
  cases taken with
  | escape same _ => rw [same]; exact closes
  | dollar same _ => rw [same]; exact closes
  | leave closer =>
      cases formed with
      | between | word => cases closer
      | nested _ stack _ =>
          have closing := closing_of_closer? closer
          cases stack with
          | word => exact closes.leave closing
          | inner _ _ => exact closes.leave closing
  | enter opens =>
      obtain ⟨holds, opening⟩ := holds_ofQuote opens
      have entered := Closes.enter holds closes
      rw [opening] at entered
      exact entered
  | plain noEscape noDollar noCloser noOpener =>
      exact closes.plain (plain_of_takes noEscape noDollar noCloser noOpener ordinary)

/-- An open dollar in front of a character that is no bracket. -/
theorem Closes.idle {pending : Pending} (idle : pending.Idle c)
    (allowed : mode.allows pending = true) (closes : Closes classes mode enclosing (c :: text)) :
    Closes classes mode enclosing (pending.text ++ c :: text) := by
  cases idle with
  | nothing => exact closes
  | dollar follows =>
      refine closes.dollar allowed ?_
      rintro d head
      cases head
      constructor <;> rintro rfl <;> cases follows

end Completing

/-! ## Words that are complete -/

/-- What the rest of the open word is when the splitter has completed it. -/
inductive Finishes (classes : Classes) : Scan → Text → Prop where
  | word {word : Text} (isWord : IsWord classes word) : Finishes classes Scan.start word
  | run {word : Text} (run : classes.isSeparatorRun word = true) : Finishes classes Scan.start word
  | restOfRun {text : Text} (separates : ∀ c ∈ text, classes.isSeparator c = true) :
      Finishes classes ⟨.word, [], .separators⟩ text
  | rest {mode : Mode} {enclosing : List Mode} {pending : Pending} {text : Text}
      (inside : mode ≠ .delimiter) (noRun : pending ≠ .separators)
      (closes : Closes classes mode enclosing (pending.text ++ text)) :
      Finishes classes ⟨mode, enclosing, pending⟩ text

/-- All words but the last are finished: the first for a scan, the others from their beginning. -/
def Completed (classes : Classes) (scan : Scan) : List Text → Prop
  | [] | [_] => True
  | word :: next :: rest => Finishes classes scan word ∧ Completed classes Scan.start (next :: rest)

section Finishing

open Scan

variable {classes : Classes} {scan next : Scan} {c : Char} {keeps : Bool} {text : Text}

/-- A rest that begins behind a joined character, seen from in front of the character. -/
theorem Finishes.closes {mode : Mode} {enclosing : List Mode} {pending : Pending}
    (finishes : Finishes classes ⟨mode, enclosing, pending⟩ text) (inside : mode ≠ .delimiter)
    (noRun : pending ≠ .separators) : Closes classes mode enclosing (pending.text ++ text) := by
  generalize same : (⟨mode, enclosing, pending⟩ : Scan) = scan at finishes
  cases finishes with
  | word | run => cases same; exact absurd rfl inside
  | restOfRun => cases same; exact absurd rfl noRun
  | rest _ _ closes => cases same; exact closes

theorem Finishes.ends (formed : scan.WellFormed) (made : scan.move classes c = ⟨true, keeps, next⟩) :
    Finishes classes scan [] := by
  have moves := formed.moves classes c
  rw [made] at moves
  cases moves with
  | endsRun => exact .restOfRun (by simp)
  | ends idle =>
      refine .rest Mode.noConfusion idle.ne_separators ?_
      cases idle with
      | nothing => exact Items.nil _
      | dollar => exact Items.dollar Region.noConfusion Region.noConfusion (by simp) (.nil _)

theorem Finishes.restOfRun_separates (finishes : Finishes classes ⟨.word, [], .separators⟩ text) :
    ∀ c ∈ text, classes.isSeparator c = true := by
  cases finishes with
  | restOfRun separates => exact separates
  | rest _ noRun _ => exact absurd rfl noRun

theorem Finishes.taken {mode : Mode} {enclosing : List Mode} {pending : Pending}
    (finishes : Finishes classes (Scan.take ⟨mode, enclosing, .nothing⟩ c) text)
    (formed : WellFormed ⟨mode, enclosing, pending⟩) (inside : mode ≠ .delimiter)
    (ordinary : mode.isTopLevel = true → classes.isDelimiter c = false ∧ classes.isSeparator c = false) :
    Closes classes mode enclosing (c :: text) := by
  obtain ⟨_, remains, noRun⟩ := formed.take inside c
  exact (finishes.closes remains noRun).take formed (take_takes _ _ .nothing c) ordinary

/-- A character that begins a word makes its rest a whole word. -/
theorem Finishes.begins (finishes : Finishes classes next text) (begins : Begins classes c true next) :
    Finishes classes Scan.start (c :: text) := by
  cases begins with
  | separator _ separates =>
      have others := finishes.restOfRun_separates
      refine .run ?_
      simpa [Classes.isSeparatorRun, separates] using others
  | ordinary noDelimiter noSeparator =>
      have closes := finishes.taken (.word .nothing) Mode.noConfusion
        fun _ => ⟨noDelimiter, noSeparator⟩
      exact .word ⟨List.cons_ne_nil _ _, closes⟩

theorem Finishes.joins (formed : scan.WellFormed) (made : scan.move classes c = ⟨false, true, next⟩)
    (finishes : Finishes classes next text) : Finishes classes scan (c :: text) := by
  have moves := formed.moves classes c
  rw [made] at moves
  cases moves with
  | first begins => exact finishes.begins begins
  | escaped mode enclosing =>
      have inside := formed.ne_delimiter Pending.noConfusion
      have closes := finishes.closes inside Pending.noConfusion
      exact .rest inside Pending.noConfusion (closes.escape formed.allows c)
  | @expands mode enclosing inner bracket =>
      have inside := formed.ne_delimiter Pending.noConfusion
      have entered := ne_delimiter_of_inside (ofBracket?_inside bracket)
      obtain ⟨holds, opening⟩ := holds_ofBracket? formed.allows bracket
      have closes := (finishes.closes entered Pending.noConfusion).enter holds
      rw [opening] at closes
      exact .rest inside Pending.noConfusion closes
  | nested enclosing inside idle =>
      have some := ne_delimiter_of_inside inside
      have closes := finishes.taken formed some fun outside =>
        absurd (inside.symm.trans outside) Bool.false_ne_true
      exact .rest some idle.ne_separators (closes.idle idle formed.allows)
  | ordinary idle noDelimiter noSeparator =>
      have closes := finishes.taken formed Mode.noConfusion fun _ => ⟨noDelimiter, noSeparator⟩
      exact .rest Mode.noConfusion idle.ne_separators (closes.idle idle formed.allows)
  | run separates =>
      exact .restOfRun (List.forall_mem_cons.mpr ⟨separates, finishes.restOfRun_separates⟩)

theorem Completed.joins (formed : scan.WellFormed) (made : scan.move classes c = ⟨false, true, next⟩)
    {words : List Text} (completed : Completed classes next words) :
    Completed classes scan (consFirst c words) := by
  cases words with
  | nil => trivial
  | cons word rest =>
      cases rest with
      | nil => trivial
      | cons second rest => exact ⟨completed.1.joins formed made, completed.2⟩

theorem Completed.ends (formed : scan.WellFormed) (made : scan.move classes c = ⟨true, keeps, next⟩)
    {words : List Text} (completed : Completed classes Scan.start words) :
    Completed classes scan ([] :: words) := by
  cases words with
  | nil => trivial
  | cons word rest => exact ⟨.ends formed made, completed⟩

theorem Completed.begins (formed : scan.WellFormed) (made : scan.move classes c = ⟨true, keeps, next⟩)
    (begins : Begins classes c keeps next) (rest : Text)
    (completed : Completed classes next (wordsFrom classes next rest)) :
    Completed classes scan (wordsFrom classes scan (c :: rest)) := by
  cases keeps with
  | false =>
      cases begins
      rw [wordsFrom_of_ends rest made]
      exact completed.ends formed made
  | true =>
      rw [wordsFrom_of_turns rest made]
      exact (completed.joins .between begins.move).ends formed made

/-- The words that a scan reads from a text are finished, all but the last. -/
theorem completed_wordsFrom (formed : scan.WellFormed) (text : Text) :
    Completed classes scan (wordsFrom classes scan text) := by
  induction text generalizing scan with
  | nil => trivial
  | cons c rest ih =>
      have moves := formed.moves classes c
      have after := ih (formed.move classes c)
      generalize made : scan.move classes c = move at moves after
      cases moves with
      | first begins =>
          cases begins with
          | delimiter =>
              rw [wordsFrom_of_drops rest made]
              exact after
          | separator | ordinary =>
              rw [wordsFrom_of_joins rest made]
              exact after.joins formed made
      | escaped | expands | nested | ordinary | run =>
          rw [wordsFrom_of_joins rest made]
          exact after.joins formed made
      | ends _ _ begins | endsRun _ begins => exact .begins formed made begins rest after

/-- From the beginning of a word, what is finished is a grammar word or a run of separators. -/
theorem Completed.dropLast {words : List Text} (completed : Completed classes Scan.start words) :
    ∀ word ∈ words.dropLast, IsWord classes word ∨ classes.isSeparatorRun word = true := by
  induction words with
  | nil => simp
  | cons word rest ih =>
      cases rest with
      | nil => simp
      | cons next rest =>
          obtain ⟨finishes, others⟩ := completed
          rw [List.dropLast_cons_cons, List.forall_mem_cons]
          refine ⟨?_, ih others⟩
          cases finishes with
          | word isWord => exact .inl isWord
          | run run => exact .inr run
          | rest inside => exact absurd rfl inside

end Finishing

/--
The completed words of a line are the words of the quoting grammar.  Grammar
words at any depth of nesting, behind gaps of delimiters and with a gap behind
the last, are the words of their line, followed by an empty word.  In any line
up to any cursor, every word but the last is either a grammar word or a run of
separators.  The delimiters and the separators may share characters.
-/
theorem split_grammar (classes : Classes) (spares : classes.SparesQuoting) :
    (∀ (tiles : List Tile) (gap : Text), Spaced classes (tiles ++ [⟨gap, []⟩]) →
      (∀ tile ∈ tiles, IsWord classes tile.word) →
      split classes (cover tiles ++ gap) (cover tiles ++ gap).byteLength =
        tiles.map Tile.word ++ [[]]) ∧
    ∀ (line : Text) (cursor : Nat), ∀ word ∈ (split classes line cursor).dropLast,
      Xor (IsWord classes word) (classes.isSeparatorRun word = true) := by
  constructor
  · intro tiles gap spaced grammatical
    have read := words_cover spaced (fun tile member => (grammatical tile member).selfContained spares) rfl
    rw [split_byteLength]
    simpa [cover, Tile.text] using read
  · intro line cursor word member
    have completed := @completed_wordsFrom classes _ .between (beforeCursor line cursor)
    rcases completed.dropLast word member with isWord | run
    · refine .inl ⟨isWord, ?_⟩
      rw [(isWord.startsOrdinary spares.special).not_run]
      exact Bool.false_ne_true
    · refine .inr ⟨run, fun isWord => ?_⟩
      rw [(isWord.startsOrdinary spares.special).not_run] at run
      cases run

/-- A quoted expansion around a quoted word, then a word that ends in a dollar. -/
theorem split_grammar_nested :
    Classes.standard.SparesQuoting ∧
      split .standard ['"', '$', '(', 'a', ' ', '\'', 'b', '\'', ')', '"', ' ', 'x', '$', '\t'] 14 =
        [['"', '$', '(', 'a', ' ', '\'', 'b', '\'', ')', '"'], ['x', '$'], []] ∧
      Xor (IsWord .standard ['x', '$']) (Classes.standard.isSeparatorRun ['x', '$'] = true) := by
  have spares : Classes.standard.SparesQuoting := by decide
  have quoted : Items .standard .singleQuotes ['b'] := .plain ⟨by decide, by decide⟩ (.nil _)
  have expanded : Items .standard .parens ['a', ' ', '\'', 'b', '\''] :=
    .plain ⟨by decide, by decide⟩ (.plain ⟨by decide, by decide⟩ (.span rfl quoted (.nil _)))
  have nested : IsWord .standard ['"', '$', '(', 'a', ' ', '\'', 'b', '\'', ')', '"'] :=
    ⟨by decide, .span rfl (.span rfl expanded (.nil .doubleQuotes)) (.nil .word)⟩
  have trailing : IsWord .standard ['x', '$'] :=
    ⟨by decide, .plain ⟨by decide, by decide⟩ (.dollar (by decide) (by decide) (by simp) (.nil _))⟩
  have read := (split_grammar .standard spares).1
    [⟨[], ['"', '$', '(', 'a', ' ', '\'', 'b', '\'', ')', '"']⟩, ⟨[' '], ['x', '$']⟩] ['\t']
    ⟨by simp [Classes.isDelimiter, Classes.standard], by simp⟩ (by simp [nested, trailing])
  refine ⟨spares, read, (split_grammar .standard spares).2
    ['"', '$', '(', 'a', ' ', '\'', 'b', '\'', ')', '"', ' ', 'x', '$', '\t'] 14 ['x', '$'] ?_⟩
  decide

end SerialCompletion.Line
