import SerialCompletion.Completion.Session
import SerialCompletion.Proofs.Completion.Candidates
import SerialCompletion.Proofs.Completion.Positions
import SerialCompletion.Proofs.Line.Cursor
import SerialCompletion.Proofs.Line.Names
import SerialCompletion.Proofs.Text.Pieces

/-!
# Accepted candidates

A candidate replaces the text that the cursor completes, which stands at a
break.  A name is read there as one word, and a name behind the head of a list
goes on with the word that the head begins, whatever quotes or expansions the
head leaves open.  So the accepted candidate is a word of the edited line, the
settled words stay in front of it, and the position behind an accepted option
or value is the one that the table says.
-/

namespace SerialCompletion.Completion

open Catalogue Line

/-! ## The context that a position gives -/

namespace Context

def isTabled : Context → Bool
  | .optionName _ | .value _ _ | .mapList _ => true
  | .device _ | .file | .command | .nothing => false

variable {position : Position} {cursor : Cursor} {kind : ArgumentKind} {typed raw : Text}

theorem of_optionName (context : ofPosition position cursor = .optionName typed) :
    position = .arguments ∧ cursor.afterSeparators = false := by
  cases arises context with
  | optionName among noRun => exact ⟨among, noRun⟩

theorem of_value (context : ofPosition position cursor = .value kind typed) :
    position.WaitsFor kind := by
  cases arises context with
  | value waits => exact waits

theorem of_mapList (context : ofPosition position cursor = .mapList raw) :
    raw = cursor.typed ∧ position.WaitsFor .mapList := by
  cases arises context with
  | mapList waits => exact ⟨rfl, waits⟩

end Context

/-- The position behind the settled words of a cursor that completes a value. -/
theorem takesWords_settled {cursor : Cursor} {kind : ArgumentKind}
    (waits : (Position.ofWords cursor.before).WaitsFor kind) :
    (Position.ofWords cursor.settled).TakesWords := by
  unfold Cursor.settled
  split
  case isTrue =>
    rw [Cursor.words, Position.ofWords_concat]
    rcases waits with expects | equals
    · rw [expects, Position.next]
      split <;> trivial
    · rw [equals]
      trivial
  case isFalse =>
    rcases waits with expects | equals
    · rw [expects]
      trivial
    · rw [equals]
      trivial

theorem ofWords_before_of_split {classes : Classes} {line word : Text} {offset : Nat}
    {earlier : List Text} (read : split classes line offset = earlier ++ [word, []]) :
    Position.ofWords (Cursor.ofLine classes line offset).before =
      (Position.ofWords earlier).next word := by
  have before : (Cursor.ofLine classes line offset).before = earlier ++ [word] := by
    change (split classes line offset).dropLast = _
    rw [read]
    exact List.dropLast_append_cons
  rw [before, Position.ofWords_concat]

/-! ## The edited line -/

/-- The line and the cursor after a candidate is accepted: it replaces the line from the start of
the offer to the cursor, and a space follows unless the hints say otherwise. -/
def Offer.accept (offer : Offer) (line : Text) (offset : Nat) (candidate : Text) : Session :=
  Session.acceptSuggestion ⟨line, offset, []⟩
    ⟨candidate, offer.start, offset, !offer.hints.noSpace⟩

def Offer.inserted (offer : Offer) (candidate : Text) : Text :=
  candidate ++ if offer.hints.noSpace then [] else [' ']

section Editing

variable {classes : Classes} {source : Source} {line front candidate : Text} {offset : Nat}

theorem split_around (classes : Classes) (before behind : Text) (suggestions : List Suggestion) :
    split classes (Session.around before behind suggestions).line
      (Session.around before behind suggestions).cursor = words classes before := by
  rw [split, beforeCursor, Session.around, Text.takeBytes_byteLength_append]

theorem split_accept (follows : Cursor.Follows classes line offset front) :
    let offer := Completer.offer ⟨classes, source⟩ line offset
    let after := offer.accept line offset candidate
    split classes after.line after.cursor = words classes (front ++ offer.inserted candidate) := by
  intro offer after
  have start : Text.takeBytes offer.start line = front := by
    rw [← follows.takeBytes_start]
    exact congrArg (Text.takeBytes · line) (offerFor_start _ _ _)
  have edited : after = Session.around (front ++ offer.inserted candidate)
      (Text.dropBytes offset line) [] := by
    simp only [after, Offer.accept, Session.acceptSuggestion, start, Offer.inserted,
      List.append_assoc]
    cases offer.hints.noSpace <;> rfl
  rw [edited, split_around]

/-- Text that stands for itself goes on with the head of the typed list, as one word. -/
theorem words_list (follows : Cursor.Follows classes line offset front) {head fragment text : Text}
    (cut : Text.cutAfterLast ',' (Cursor.ofLine classes line offset).typed = (head, fragment))
    (passes : classes.Passes text) :
    words classes (front ++ (head ++ text)) =
      (Cursor.ofLine classes line offset).settled ++ [head ++ text] := by
  have shape := Text.cutAfterLast_fst ',' (Cursor.ofLine classes line offset).typed
  have typed := Text.cutAfterLast_append ',' (Cursor.ofLine classes line offset).typed
  have absorbed := follows.absorbed
  have ordinary := follows.ordinary
  rw [cut] at shape typed
  rw [← typed] at absorbed ordinary
  have starts : classes.StartsOrdinary (head ++ text) := by
    by_cases none : head = []
    · rw [none]
      exact passes.startsOrdinary
    · have whole := ordinary (List.append_ne_nil_of_left_ne_nil none _)
      exact (whole.of_append none).append text
  obtain ⟨last, read⟩ := Scan.exists_absorbs_head passes shape absorbed ordinary
  rw [follows.breaks.words_append_ordinary starts, words_of_absorbed read]

/-- The words up to the cursor when the inserted text begins like a word. -/
theorem split_accept_of_ordinary (follows : Cursor.Follows classes line offset front)
    (starts : classes.StartsOrdinary candidate) :
    let offer := Completer.offer ⟨classes, source⟩ line offset
    let after := offer.accept line offset candidate
    split classes after.line after.cursor =
      (Cursor.ofLine classes line offset).settled ++ words classes (offer.inserted candidate) := by
  intro offer after
  rw [split_accept follows]
  exact follows.breaks.words_append_ordinary (starts.append _)

end Editing

section Candidates

variable {classes : Classes} {source : Source} {line candidate : Text} {offset : Nat}

/-- An accepted name is a word, with another beginning behind its space. -/
theorem split_accept_name (spares : classes.SparesNames) (named : IsName candidate)
    (spaced : (Completer.offer ⟨classes, source⟩ line offset).hints.noSpace = false) :
    let after := (Completer.offer ⟨classes, source⟩ line offset).accept line offset candidate
    split classes after.line after.cursor =
      (Cursor.ofLine classes line offset).settled ++ [candidate, []] := by
  intro after
  obtain ⟨front, follows⟩ := Cursor.exists_follows classes line offset
  rw [split_accept_of_ordinary follows (spares.passes named).startsOrdinary, Offer.inserted, spaced]
  exact congrArg _ (words_name_space spares named)

/-- An accepted name behind the head of the typed list is one word with the head. -/
theorem split_accept_list (spares : classes.SparesNames) (named : IsName candidate)
    (joined : (Completer.offer ⟨classes, source⟩ line offset).hints.noSpace = true) :
    let head := (Text.cutAfterLast ',' (Cursor.ofLine classes line offset).typed).1
    let after := (Completer.offer ⟨classes, source⟩ line offset).accept line offset (head ++ candidate)
    split classes after.line after.cursor =
      (Cursor.ofLine classes line offset).settled ++ [head ++ candidate] := by
  intro head after
  obtain ⟨front, follows⟩ := Cursor.exists_follows classes line offset
  rw [split_accept follows, Offer.inserted, joined]
  change words classes (front ++ (head ++ candidate ++ [])) = _
  rw [List.append_nil]
  exact words_list follows rfl (spares.passes named)

end Candidates

/--
An accepted candidate is what the splitter and the position see.  Whatever the
line is and wherever the cursor stands in it, when the context is an option
name, a fixed value or a list, every candidate becomes a word behind the
settled words, and a new word begins behind its space, if it gets one.  Behind
an option the position waits for the value that the option takes, or stays
among the arguments, and behind a fixed value it is among the arguments.
-/
theorem split_accept_offered {classes : Classes} (spares : classes.SparesNames)
    (devices : List Text) (line : Text) (offset : Nat) {candidate : Text}
    (tabled : (Context.ofCursor (Cursor.ofLine classes line offset)).isTabled = true)
    (offered : candidate ∈ (Completer.offer ⟨classes, .picocom devices⟩ line offset).candidates) :
    let cursor := Cursor.ofLine classes line offset
    let offer := Completer.offer ⟨classes, .picocom devices⟩ line offset
    let after := offer.accept line offset candidate
    let reached := Position.ofWords (Cursor.ofLine classes after.line after.cursor).before
    split classes after.line after.cursor =
        cursor.settled ++ (if offer.hints.noSpace then [candidate] else [candidate, []]) ∧
      (∀ typed, Context.ofCursor cursor = .optionName typed →
        ∃ entry ∈ options, candidate ∈ entry.spellings ∧
          reached = if entry.argument.takesValue then .expectValue entry.argument else .arguments) ∧
      (∀ kind typed, Context.ofCursor cursor = .value kind typed → reached = .arguments) := by
  intro cursor offer after reached
  have held : Offered devices candidate (Context.ofCursor cursor) := offered_of_mem offered
  have offerEq : offer = offerFor (.picocom devices) cursor.start (Context.ofCursor cursor) := rfl
  generalize context : Context.ofCursor cursor = given at held offerEq tabled
  cases given with
  | optionName typed =>
      have spaced : offer.hints.noSpace = false := by rw [offerEq]; rfl
      have read := split_accept_name spares (.inl held) spaced
      obtain ⟨among, noRun⟩ := Context.of_optionName context
      obtain ⟨entry, listed, spelled⟩ := exists_entry_of_mem held
      refine ⟨by rw [spaced]; exact read, fun _ _ => ⟨entry, listed, spelled, ?_⟩, by simp⟩
      refine (ofWords_before_of_split read).trans ?_
      rw [Cursor.settled, noRun]
      change Position.next (Position.ofWords cursor.before) candidate = _
      rw [among, Position.next_spelling listed spelled]
  | value kind typed =>
      have spaced : offer.hints.noSpace = false := by rw [offerEq]; rfl
      have read := split_accept_name spares (.inr (.inl ⟨kind, held⟩)) spaced
      refine ⟨by rw [spaced]; exact read, by simp, fun _ _ _ => ?_⟩
      refine (ofWords_before_of_split read).trans ?_
      exact Position.next_fixedValue (takesWords_settled (Context.of_value context)) held
  | mapList raw =>
      have joined : offer.hints.noSpace = true := by rw [offerEq]; rfl
      have rawEq := (Context.of_mapList context).1
      obtain ⟨name, known, candidateEq⟩ := held
      have read := split_accept_list spares (.inr (.inr known)) joined
      rw [rawEq] at candidateEq
      refine ⟨?_, by simp, by simp⟩
      rw [joined]
      simp only [after, candidateEq]
      exact read
  | device | file | command | nothing => cases tabled

/-- A value right behind an equals sign, and a name behind a head in an open quote. -/
theorem split_accept_offered_parity :
    Classes.standard.SparesNames ∧
      (let line : Text := "picocom --parity= x"
        let after := (Completer.offer ⟨.standard, .picocom []⟩ line 17).accept line 17 ['e']
        Context.ofCursor (Cursor.ofLine .standard line 17) = .value .parity [] ∧
        ['e'] ∈ (Completer.offer ⟨.standard, .picocom []⟩ line 17).candidates ∧
        split .standard after.line after.cursor =
          [("picocom" : Text), "--parity", "=", "e", ""] ∧
        Position.ofWords (Cursor.ofLine .standard after.line after.cursor).before = .arguments) ∧
      (let line : Text := "picocom -I \"crlf,8 x"
        let candidate : Text := "\"crlf,8bithex"
        let after := (Completer.offer ⟨.standard, .picocom []⟩ line 18).accept line 18 candidate
        candidate ∈ (Completer.offer ⟨.standard, .picocom []⟩ line 18).candidates ∧
        split .standard after.line after.cursor = [("picocom" : Text), "-I", candidate]) := by
  refine ⟨standard_sparesNames, ?_, ?_⟩
  · intro line after
    have context : Context.ofCursor (Cursor.ofLine .standard line 17) = .value .parity [] := by
      decide +kernel
    have offered : ['e'] ∈ (Completer.offer ⟨.standard, .picocom []⟩ line 17).candidates := by
      decide +kernel
    obtain ⟨read, _, reached⟩ := split_accept_offered standard_sparesNames [] line 17
      (by rw [context]; rfl) offered
    exact ⟨context, offered, read.trans (by decide +kernel), reached .parity [] context⟩
  · intro line candidate after
    have offered : candidate ∈ (Completer.offer ⟨.standard, .picocom []⟩ line 18).candidates := by
      decide +kernel
    have tabled : (Context.ofCursor (Cursor.ofLine .standard line 18)).isTabled = true := by
      decide +kernel
    have read := (split_accept_offered standard_sparesNames [] line 18 tabled offered).1
    exact ⟨offered, read.trans (by decide +kernel)⟩

end SerialCompletion.Completion
