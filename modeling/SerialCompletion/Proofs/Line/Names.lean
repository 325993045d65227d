import SerialCompletion.Proofs.Catalogue.Names
import SerialCompletion.Proofs.Line.Breaks
import SerialCompletion.Proofs.Line.Grammar
import SerialCompletion.Proofs.Text.Pieces

/-!
# Names in a line

The names of the tables are written in characters that stand for themselves
in every quote and expansion.  Behind a break such a text is a word of its own.
Behind a comma it goes on with the word that holds the comma, whatever that
word leaves open.
-/

namespace SerialCompletion.Line

open Catalogue

/-- Classes that leave quoting and the names of the tables alone, with the space as a delimiter. -/
structure Classes.SparesNames (classes : Classes) : Prop where
  special : classes.SparesSpecial
  names : ∀ name, IsName name → ∀ c ∈ name,
    classes.isDelimiter c = false ∧ classes.isSeparator c = false
  space : classes.isDelimiter ' ' = true

theorem standard_sparesNames : Classes.standard.SparesNames := by
  have quoting : Classes.standard.SparesQuoting := by decide
  refine ⟨quoting.special, fun name named c member => ?_, by decide⟩
  have apart (d : Char) (other : (d.isAlphanum || d == '-') = false) : c ≠ d := by
    rintro rfl
    exact named.not_mem other member
  simp [Classes.isDelimiter, Classes.isSeparator, Classes.standard, apart]

section Names

variable {classes : Classes} {name : Text} {enclosing : List Mode} {c : Char}

theorem special_not_plain (region : Region) (special : c ∈ region.special) :
    (c.isAlphanum || c == '-') = false := by
  have others : region.special.all (fun c => !(c.isAlphanum || c == '-')) = true := by
    cases region <;> rfl
  simpa using List.all_eq_true.mp others c special

theorem plain_of_name (spares : classes.SparesNames) (named : IsName name) (region : Region)
    (member : c ∈ name) : region.Plain classes c :=
  ⟨fun special => named.not_mem (special_not_plain region special) member,
    fun _ => spares.names name named c member⟩

/-- A text that stands for itself in every quote and expansion. -/
structure Classes.Passes (classes : Classes) (text : Text) : Prop where
  ne_nil : text ≠ []
  plain : ∀ region : Region, ∀ c ∈ text, region.Plain classes c

theorem Classes.SparesNames.passes (spares : classes.SparesNames) (named : IsName name) :
    classes.Passes name :=
  ⟨named.ne_nil, fun region _ => plain_of_name spares named region⟩

theorem Classes.Passes.startsOrdinary {text : Text} (passes : classes.Passes text) :
    classes.StartsOrdinary text := by
  obtain ⟨c, rest, rfl⟩ := List.exists_cons_of_ne_nil passes.ne_nil
  exact ⟨c, rfl, (passes.plain .word c List.mem_cons_self).ordinary rfl⟩

theorem Classes.Passes.not_run_append {text : Text} (passes : classes.Passes text) (front : Text) :
    classes.isSeparatorRun (front ++ text) = false := by
  obtain ⟨c, rest, rfl⟩ := List.exists_cons_of_ne_nil passes.ne_nil
  have first := ((passes.plain .word c List.mem_cons_self).ordinary rfl).2
  simp [Classes.isSeparatorRun, first]

theorem Classes.Passes.absorbs {text : Text} (passes : classes.Passes text) (region : Region)
    (placed : region = .word → enclosing = []) :
    Scan.Absorbs classes ⟨region.mode, enclosing, .nothing⟩ text
      ⟨region.mode, enclosing, .nothing⟩ :=
  absorbs_plain_text placed (passes.plain region)

theorem exists_region {mode : Mode} (inside : mode.isTopLevel = false) :
    ∃ region : Region, region ≠ .word ∧ region.mode = mode := by
  cases mode with
  | delimiter | word => cases inside
  | singleQuote => exact ⟨.singleQuotes, Region.noConfusion, rfl⟩
  | doubleQuote => exact ⟨.doubleQuotes, Region.noConfusion, rfl⟩
  | backtick => exact ⟨.backticks, Region.noConfusion, rfl⟩
  | parenExpansion => exact ⟨.parens, Region.noConfusion, rfl⟩
  | braceExpansion => exact ⟨.braces, Region.noConfusion, rfl⟩

/-- A name with a space behind it is a word, and another begins. -/
theorem words_name_space (spares : classes.SparesNames) (named : IsName name) :
    words classes (name ++ [' ']) = [name, []] := by
  have bare := (spares.passes named).absorbs .word fun _ => rfl
  exact words_of_endsAt (bare.endsAt named.ne_nil .nothing spares.space) []

theorem words_name_separator {c : Char} (spares : classes.SparesNames) (named : IsName name)
    (noDelimiter : classes.isDelimiter c = false) (separates : classes.isSeparator c = true) :
    words classes (name ++ [c]) = [name, [c]] := by
  have passes := spares.passes named
  have absorbed := (passes.absorbs .word fun _ => rfl).of_word passes.ne_nil
  have made : Scan.move classes ⟨.word, [], .nothing⟩ c = ⟨true, true, ⟨.word, [], .separators⟩⟩ :=
    Scan.move_ends .nothing (.inr separates) (.separator noDelimiter separates)
  rw [words, absorbed.wordsFrom_append]
  change prependFirst name (wordsFrom classes ⟨.word, [], .nothing⟩ [c]) = _
  rw [wordsFrom_of_turns [] made]
  simp [prependFirst, consFirst]

end Names

namespace Scan

variable {classes : Classes} {text head fragment : Text} {mode : Mode} {enclosing : List Mode}
  {scan : Scan} {c : Char}

/-- Such a text begins a word, and goes on with every word that leaves nothing pending. -/
theorem WellFormed.absorbs_passing (formed : scan.WellFormed) (settled : scan.pending = .nothing)
    (passes : classes.Passes text) : ∃ last, Absorbs classes scan text last := by
  have bare := passes.absorbs .word fun _ => rfl
  cases formed with
  | between => exact ⟨_, bare.of_word passes.ne_nil⟩
  | word =>
      cases settled
      exact ⟨_, bare⟩
  | nested inside =>
      cases settled
      obtain ⟨region, noWord, rfl⟩ := exists_region inside
      exact ⟨_, passes.absorbs region fun same => absurd same noWord⟩

/-! ## What a character leaves pending -/

theorem take_pending_nothing (noEscape : c ≠ '\\') (noDollar : c ≠ '$') :
    (Scan.take ⟨mode, enclosing, .nothing⟩ c).pending = .nothing := by
  have takes := take_takes mode enclosing .nothing c
  generalize Scan.take ⟨mode, enclosing, .nothing⟩ c = next at takes
  cases takes with
  | escape same => exact absurd same noEscape
  | dollar same => exact absurd same noDollar
  | leave => cases enclosing <;> rfl
  | enter | plain => rfl

theorem Begins.pending {keeps : Bool} {next : Scan} (begins : Begins classes c keeps next)
    (noEscape : c ≠ '\\') (noDollar : c ≠ '$') :
    next.pending = .nothing ∨ next.pending = .separators := by
  cases begins with
  | delimiter => exact .inl rfl
  | separator => exact .inr rfl
  | ordinary => exact .inl (take_pending_nothing noEscape noDollar)

/-- A character that is no backslash, no dollar and no bracket leaves at most separators pending. -/
theorem WellFormed.pending_move (formed : scan.WellFormed) (classes : Classes) (noEscape : c ≠ '\\')
    (noDollar : c ≠ '$') (noBracket : Mode.ofBracket? c = none) :
    (scan.move classes c).next.pending = .nothing ∨
      (scan.move classes c).next.pending = .separators := by
  have moves := formed.moves classes c
  generalize scan.move classes c = move at moves
  cases moves with
  | first begins | ends _ _ begins | endsRun _ begins => exact begins.pending noEscape noDollar
  | escaped => exact .inl rfl
  | expands _ _ bracket => rw [noBracket] at bracket; cases bracket
  | nested | ordinary => exact .inl (take_pending_nothing noEscape noDollar)
  | run => exact .inr rfl

/-- A word up to a comma leaves nothing pending: the comma is no run of separators, since the word
starts with none. -/
theorem Absorbs.pending_comma {front : Text} (read : Absorbs classes start (front ++ [',']) scan)
    (starts : classes.StartsOrdinary (front ++ [','])) : scan.pending = .nothing := by
  have noRun : scan.pending ≠ .separators := by
    rw [← read.run]
    exact @ne_separators_of_last _ _ _ [] (words_of_absorbed read) starts.not_run
  obtain ⟨inner, opening, comma⟩ := read.split
  have formed := opening.wellFormed .between
  cases comma with
  | cons made tail =>
      cases tail
      have pending := formed.pending_move classes (c := ',') (by decide) (by decide) rfl
      rw [made] at pending
      exact pending.resolve_right noRun

/-- Such a text goes on with the part of a word up to its last comma. -/
theorem exists_absorbs_head (passes : classes.Passes text) (shape : Text.EndsAt ',' head)
    (absorbed : ∃ last, Absorbs classes start (head ++ fragment) last)
    (ordinary : head ++ fragment ≠ [] → classes.StartsOrdinary (head ++ fragment)) :
    ∃ last, Absorbs classes start (head ++ text) last := by
  rcases shape with rfl | ⟨front, rfl⟩
  · exact WellFormed.between.absorbs_passing rfl passes
  · have some : front ++ [','] ≠ [] := List.concat_ne_nil _ _
    have starts := (ordinary (List.append_ne_nil_of_left_ne_nil some _)).of_append some
    obtain ⟨last, absorbed⟩ := absorbed
    obtain ⟨middle, read, _⟩ := absorbed.split
    have formed := read.wellFormed .between
    obtain ⟨last, behind⟩ := formed.absorbs_passing (read.pending_comma starts) passes
    exact ⟨last, read.append behind⟩

end Scan

end SerialCompletion.Line
