import SerialCompletion.Completion.Offer
import SerialCompletion.Proofs.Completion.Candidates
import SerialCompletion.Proofs.Text.Pieces

/-!
# Reading the bash form

The shell reads the first line of a printed offer as hint words and every
other line as a candidate.  The hints and the start always come back.  The
candidates come back exactly when none of them holds a line feed.  Of what the
picocom source offers, only a candidate for a list can hold one: it repeats
the head of the list as it is typed.
-/

namespace SerialCompletion.Completion

open Catalogue Line

/-! ## The reader -/

def startMark : Text := "start="

def startIn? (words : List Text) : Option Nat :=
  words.findSome? fun word =>
    if startMark.isPrefixOf word then Text.toNat? (word.drop startMark.length) else none

def hintsIn (words : List Text) : Hints where
  noSpace := words.contains "nospace"
  noSort := words.contains "nosort"
  fallback :=
    if words.contains "default" then some .files
    else if words.contains "commands" then some .commands
    else none

/-- The offer that a shell reads: hint words up to the first line feed, then a candidate a line. -/
def Offer.ofBash? (text : Text) : Option Offer :=
  match text.splitOn '\n' with
  | [] => none
  | hints :: candidates =>
      (startIn? (hints.splitOn ' ')).map fun start =>
        ⟨start, candidates, hintsIn (hints.splitOn ' ')⟩

/-! ## Hint words -/

def Hints.words (hints : Hints) : List Text :=
  let noSpace : List Text := if hints.noSpace then ["nospace"] else []
  let noSort : List Text := if hints.noSort then ["nosort"] else []
  noSpace ++ noSort ++ (hints.fallback.map Fallback.hintWord).toList

theorem Offer.hintWords_eq (offer : Offer) :
    offer.hintWords = (startMark ++ Text.ofNat offer.start) :: offer.hints.words :=
  rfl

theorem Hints.words_spec (hints : Hints) :
    (∀ word ∈ hints.words, ' ' ∉ word ∧ '\n' ∉ word) ∧ hintsIn hints.words = hints := by
  rcases hints with ⟨_ | _, _ | _, _ | _ | _⟩ <;> decide +kernel

theorem startWord_ne (number : Nat) {word : Text} (head : word.head? ≠ some 's') :
    startMark ++ Text.ofNat number ≠ word := by
  rintro rfl
  exact head rfl

theorem not_mem_startWord {c : Char} (noMark : c ∉ startMark) (noDigit : c.isDigit = false)
    (number : Nat) : c ∉ startMark ++ Text.ofNat number := by
  intro member
  rcases List.mem_append.mp member with mark | digits
  · exact noMark mark
  · exact Text.not_mem_ofNat noDigit digits

theorem hintsIn_startWord (number : Nat) (words : List Text) :
    hintsIn ((startMark ++ Text.ofNat number) :: words) = hintsIn words := by
  have other (word : Text) (head : word.head? ≠ some 's') :
      List.contains ((startMark ++ Text.ofNat number) :: words) word = words.contains word := by
    have differ : (word == startMark ++ Text.ofNat number) = false :=
      beq_false_of_ne (startWord_ne number head).symm
    rw [List.contains_cons, differ, Bool.false_or]
  simp only [hintsIn, other "nospace" (by decide), other "nosort" (by decide),
    other "default" (by decide), other "commands" (by decide)]

theorem startIn?_startWord (number : Nat) (words : List Text) :
    startIn? ((startMark ++ Text.ofNat number) :: words) = some number := by
  simp [startIn?]

namespace Offer

variable (offer : Offer)

theorem hintWords_free : ∀ word ∈ offer.hintWords, ' ' ∉ word ∧ '\n' ∉ word := by
  rw [hintWords_eq, List.forall_mem_cons]
  exact ⟨⟨not_mem_startWord (by decide) (by decide) _, not_mem_startWord (by decide) (by decide) _⟩,
    offer.hints.words_spec.1⟩

theorem splitOn_hintLine : (List.intercalate [' '] offer.hintWords).splitOn ' ' =
    (startMark ++ Text.ofNat offer.start) :: offer.hints.words := by
  rw [← hintWords_eq]
  refine List.splitOn_intercalate ' ' (fun word member => (offer.hintWords_free word member).1) ?_
  rw [hintWords_eq]
  exact List.cons_ne_nil _ _

theorem hintLine_free : '\n' ∉ List.intercalate [' '] offer.hintWords :=
  Text.not_mem_intercalate (by decide) fun word member => (offer.hintWords_free word member).2

theorem splitOn_render : (offer.render .bash).splitOn '\n' =
    List.intercalate [' '] offer.hintWords :: offer.candidates.flatMap fun text => text.splitOn '\n' := by
  rw [render, Text.joinLines, Text.splitOn_intercalate_mark _ (List.cons_ne_nil _ _), List.flatMap_cons,
    List.splitOn_eq_singleton offer.hintLine_free]
  rfl

/-- What the shell reads: the start, the hints, and every line of every candidate. -/
theorem ofBash?_render : ofBash? (offer.render .bash) =
    some { offer with candidates := offer.candidates.flatMap fun text => text.splitOn '\n' } := by
  rw [ofBash?, splitOn_render]
  simp only [splitOn_hintLine, startIn?_startWord, hintsIn_startWord, offer.hints.words_spec.2,
    Option.map_some]

/-- An offer comes back when no candidate holds a line feed, and there is a line too many otherwise. -/
theorem ofBash?_render_iff :
    (ofBash? (offer.render .bash) = some offer ↔ ∀ text ∈ offer.candidates, '\n' ∉ text) ∧
      (((offer.render .bash).splitOn '\n').length = 1 + offer.candidates.length ↔
        ∀ text ∈ offer.candidates, '\n' ∉ text) := by
  rw [ofBash?_render, splitOn_render]
  refine ⟨⟨fun same => ?_, fun free => ?_⟩, ⟨fun count => ?_, fun free => ?_⟩⟩
  · have candidates := congrArg Offer.candidates (Option.some.inj same)
    exact Text.free_of_length_flatMap_splitOn (congrArg List.length candidates)
  · rw [Text.flatMap_splitOn_of_free free]
  · rw [List.length_cons] at count
    exact Text.free_of_length_flatMap_splitOn (by omega)
  · rw [Text.flatMap_splitOn_of_free free, List.length_cons, Nat.add_comm]

end Offer

/-! ## Offers of any source -/

/--
Offers whose candidates hold no line feed come back from their printed form,
whatever else the candidates hold.  The first line gives the start and the
hints and the others are the candidates, so no candidates, one empty candidate
and empty candidates at the end stay apart, and a candidate that looks like a
hint word stays a candidate.  Two such offers that are printed alike are the
same offer.
-/
theorem Offer.ofBash?_render_lossless {offer : Offer}
    (free : ∀ text ∈ offer.candidates, '\n' ∉ text) :
    (∃ hintLine, (offer.render .bash).splitOn '\n' = hintLine :: offer.candidates ∧
        startIn? (hintLine.splitOn ' ') = some offer.start ∧
        hintsIn (hintLine.splitOn ' ') = offer.hints) ∧
      ofBash? (offer.render .bash) = some offer ∧
      ∀ other : Offer, (∀ text ∈ other.candidates, '\n' ∉ text) →
        offer.render .bash = other.render .bash → offer = other := by
  have reads {offer : Offer} (free : ∀ text ∈ offer.candidates, '\n' ∉ text) :
      ofBash? (offer.render .bash) = some offer :=
    offer.ofBash?_render_iff.1.mpr free
  refine ⟨⟨List.intercalate [' '] offer.hintWords, ?_, ?_, ?_⟩, reads free, ?_⟩
  · rw [offer.splitOn_render, Text.flatMap_splitOn_of_free free]
  · rw [offer.splitOn_hintLine, startIn?_startWord]
  · rw [offer.splitOn_hintLine, hintsIn_startWord, offer.hints.words_spec.2]
  · intro other otherFree same
    have read := reads free
    rw [same, reads otherFree] at read
    exact (Option.some.inj read).symm

/-- Empty candidates around one that looks like hint words, and the same without the last. -/
theorem Offer.ofBash?_render_lossless_empty :
    let offer : Offer := ⟨7, [[], "start=3 nospace", []], ⟨true, false, some .commands⟩⟩
    let shorter : Offer := { offer with candidates := [[], "start=3 nospace"] }
    (∀ text ∈ offer.candidates, '\n' ∉ text) ∧ (∀ text ∈ shorter.candidates, '\n' ∉ text) ∧
      offer.render .bash = ("start=7 nospace commands\n\nstart=3 nospace\n" : Text) ∧
      ofBash? (offer.render .bash) = some offer ∧
      offer.render .bash ≠ shorter.render .bash := by
  intro offer shorter
  have free : ∀ text ∈ offer.candidates, '\n' ∉ text := by decide +kernel
  have shorterFree : ∀ text ∈ shorter.candidates, '\n' ∉ text := by decide +kernel
  obtain ⟨_, reads, apart⟩ := ofBash?_render_lossless free
  refine ⟨free, shorterFree, by decide +kernel, reads, fun same => ?_⟩
  have equal := congrArg Offer.candidates (apart shorter shorterFree same)
  cases equal

/-! ## Offers of the picocom source -/

/-- A candidate of the picocom source holds a line feed only in the head of a list. -/
theorem Offered.lineFeed_free {devices : List Text} (clean : ∀ device ∈ devices, '\n' ∉ device)
    {candidate : Text} {context : Context} (offered : Offered devices candidate context)
    (head : ∀ raw, context = .mapList raw → '\n' ∉ (Text.cutAfterLast ',' raw).1) :
    '\n' ∉ candidate := by
  have noName : ('\n'.isAlphanum || '\n' == '-') = false := by decide
  cases context with
  | optionName => exact IsName.not_mem (.inl offered) noName
  | value kind => exact IsName.not_mem (.inr (.inl ⟨kind, offered⟩)) noName
  | mapList raw =>
      obtain ⟨name, known, rfl⟩ := offered
      have rest : '\n' ∉ name := IsName.not_mem (.inr (.inr known)) noName
      simp [head raw rfl, rest]
  | device => exact clean candidate offered
  | file | command | nothing => exact offered.elim

/-- Every candidate of a list holds the line feeds of the head, so one candidate tells of all. -/
theorem candidates_free_iff (classes : Classes) {devices : List Text}
    (clean : ∀ device ∈ devices, '\n' ∉ device) (line : Text) (offset : Nat) :
    let offer := Completer.offer ⟨classes, .picocom devices⟩ line offset
    (∀ text ∈ offer.candidates, '\n' ∉ text) ↔
      offer.candidates = [] ∨
        ∀ raw, Context.ofCursor (Cursor.ofLine classes line offset) = .mapList raw →
          '\n' ∉ (Text.cutAfterLast ',' raw).1 := by
  intro offer
  constructor
  · intro free
    by_cases none : offer.candidates = []
    · exact .inl none
    · refine .inr fun raw context member => ?_
      obtain ⟨candidate, first⟩ := List.exists_mem_of_ne_nil _ none
      have offered : Offered devices candidate (.mapList raw) := by
        rw [← context]
        exact offered_of_mem first
      obtain ⟨name, _, rfl⟩ := offered
      exact free _ first (List.mem_append_left name member)
  · rintro (none | head) candidate member
    · rw [none] at member
      cases member
    · exact (offered_of_mem member).lineFeed_free clean head

/--
The offer that the shell reads is the printed one, and a line stands for each
candidate behind the line of hints, exactly when nothing is offered or the word
under the cursor is no list with a line feed in the head that its candidates
repeat.  The start and the hints come back in any case.
-/
theorem ofBash?_offer_iff (classes : Classes) {devices : List Text}
    (clean : ∀ device ∈ devices, '\n' ∉ device) (line : Text) (offset : Nat) :
    let offer := Completer.offer ⟨classes, .picocom devices⟩ line offset
    let spared := offer.candidates = [] ∨
      ∀ raw, Context.ofCursor (Cursor.ofLine classes line offset) = .mapList raw →
        '\n' ∉ (Text.cutAfterLast ',' raw).1
    (Offer.ofBash? (offer.render .bash) = some offer ↔ spared) ∧
      (((offer.render .bash).splitOn '\n').length = 1 + offer.candidates.length ↔ spared) ∧
      ∃ candidates, Offer.ofBash? (offer.render .bash) = some { offer with candidates } := by
  intro offer spared
  have free_iff := candidates_free_iff classes clean line offset
  obtain ⟨reads, counts⟩ := offer.ofBash?_render_iff
  exact ⟨reads.trans free_iff, counts.trans free_iff, _, offer.ofBash?_render⟩

/-- A list in an open quote comes back with its candidate. -/
theorem ofBash?_offer_quoted :
    (∀ device ∈ ([['/', 'd', 'e', 'v', '/', 'a']] : List Text), '\n' ∉ device) ∧
      let offer := Completer.offer ⟨.standard, .picocom [['/', 'd', 'e', 'v', '/', 'a']]⟩
        "picocom --imap 'crlf,8" 22
      offer.candidates = [("'crlf,8bithex" : Text)] ∧ Offer.ofBash? (offer.render .bash) = some offer := by
  have clean : ∀ device ∈ ([['/', 'd', 'e', 'v', '/', 'a']] : List Text), '\n' ∉ device := by decide
  refine ⟨clean, by decide +kernel, (ofBash?_offer_iff .standard clean _ _).1.mpr (.inr ?_)⟩
  intro raw context
  have typed : Context.ofCursor (Cursor.ofLine .standard "picocom --imap 'crlf,8" 22) =
      .mapList "'crlf,8" := by decide +kernel
  cases typed.symm.trans context
  decide +kernel

/-- A quoted line feed in front of the comma is read as the end of the candidate. -/
theorem ofBash?_offer_lineFeed :
    let offer := Completer.offer ⟨.standard, .picocom []⟩ "picocom --imap '\n,8" 19
    offer.candidates = [("'\n,8bithex" : Text)] ∧
      ((offer.render .bash).splitOn '\n').length = 3 ∧
      (Offer.ofBash? (offer.render .bash)).map Offer.candidates = some [("'" : Text), ",8bithex"] := by
  decide +kernel

end SerialCompletion.Completion
