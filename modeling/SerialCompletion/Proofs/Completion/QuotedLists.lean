import SerialCompletion.Proofs.Completion.Candidates
import SerialCompletion.Proofs.Word.OpenEntries

/-!
# Lists in open quotes

The candidates for a list of mapping names must begin with the value that the
fragment behind the last comma has on its own.  What the user's word already
says there is the value of that fragment in the quotes that the head leaves
open.  Unless the fragment holds what these quotes read in their own way, the
two values are the same, and the candidates are exactly the remaining names
whose word goes on with what the user's word says.
-/

namespace SerialCompletion.Completion

open Catalogue

/-- The names behind a head that are no entries of it and begin with a text, in their order. -/
def candidatesBehind (head typed : Text) (known : List Text) : List Text :=
  (known.filter fun name => !(Word.entries head).contains name && typed.isPrefixOf name).map
    (head ++ ·)

section Candidates

variable {head typed other name : Text} {known : List Text}

theorem mapListCandidates_eq (known : List Text) (raw : Text) :
    mapListCandidates known raw =
      candidatesBehind (Text.cutAfterLast ',' raw).1
        (Word.literal (Text.cutAfterLast ',' raw).2) known := by
  change (Text.beginningWith _ (Word.remaining (Text.cutAfterLast ',' raw).1 known)).map _ = _
  rw [Text.beginningWith, Word.remaining, List.filter_filter, candidatesBehind]
  simp only [Bool.and_comm]

theorem mem_candidatesBehind :
    head ++ name ∈ candidatesBehind head typed known ↔
      name ∈ known ∧ name ∉ Word.entries head ∧ typed <+: name := by
  simp [candidatesBehind]

/-- A text that begins no name without quotes and breaks has no candidates among such names. -/
theorem candidatesBehind_eq_nil (quoted : Word.isFree typed = false)
    (free : ∀ name ∈ known, Word.isFree name = true) : candidatesBehind head typed known = [] := by
  rw [candidatesBehind, List.map_eq_nil_iff, List.filter_eq_nil_iff]
  intro name member offered
  rw [Bool.and_eq_true, List.isPrefixOf_iff_prefix] at offered
  rw [Word.isFree_of_begins offered.2 (free name member)] at quoted
  cases quoted

/-- Two texts that have the same candidates stand in front of the same names but the entries. -/
theorem precedes_of_candidates
    (same : ∀ known, (∀ name ∈ known, Word.isFree name = true) →
      candidatesBehind head typed known = candidatesBehind head other known) :
    Word.Precedes (Word.entries head) typed other := by
  intro name free unlisted begins
  have alone : ∀ text ∈ [name], Word.isFree text = true := List.forall_mem_singleton.mpr free
  have offered : head ++ name ∈ candidatesBehind head typed [name] :=
    mem_candidatesBehind.mpr ⟨List.mem_cons_self, unlisted, begins⟩
  rw [same [name] alone] at offered
  exact (mem_candidatesBehind.mp offered).2.2

/-- Texts have the same candidates when they are equal or begin no name, and only then. -/
theorem candidatesBehind_congr_iff :
    (∀ known, (∀ name ∈ known, Word.isFree name = true) →
      candidatesBehind head typed known = candidatesBehind head other known) ↔
      typed = other ∨ Word.isFree typed = false ∧ Word.isFree other = false := by
  constructor
  · intro same
    have ahead := precedes_of_candidates same
    have behind := precedes_of_candidates fun known free => (same known free).symm
    exact Word.eq_or_of_precedes ahead behind
  · rintro (rfl | ⟨quoted, alike⟩) known free
    · rfl
    · rw [candidatesBehind_eq_nil quoted free, candidatesBehind_eq_nil alike free]

/-- A name behind the head of a list goes on with the list when it goes on with the open entry. -/
theorem prefix_literal_iff (raw : Text) (free : Word.isFree name = true) :
    Word.literal raw <+: Word.literal ((Text.cutAfterLast ',' raw).1 ++ name) ↔
      Word.openEntry raw <+: name := by
  have ends := Text.cutAfterLast_fst ',' raw
  rw [(Word.literal_eq_append_openEntry raw).1,
    Word.literal_head_append ends (Word.isBare_of_isFree free), ← Word.literal_head ends]
  exact List.prefix_append_right_inj _

end Candidates

/--
The candidates of a list and the quotes that it leaves open.  The list is cut
behind its last comma, and the candidates are the names, in the order of the
table, that are no entries of the head and begin with the value of the fragment
on its own, each behind the raw head.  The value of the list is the value of
the head and the open entry.  Among names without quotes, backslashes, commas
and white space, those that begin with the open entry are the ones that go on
with the value of the list.  They are the candidates, whatever the table holds,
exactly when the fragment on its own has the value of the open entry or neither
value begins such a name.  The values are the same behind a head that leaves no
quotes open, behind one that leaves double quotes open if the fragment holds no
single quote, and behind one that leaves single quotes open if it holds neither
a double quote nor a backslash.
-/
theorem mapListCandidates_open (raw : Text) :
    let head := (Text.cutAfterLast ',' raw).1
    let fragment := (Text.cutAfterLast ',' raw).2
    let alone := Word.literal fragment
    let within := Word.openEntry raw
    let quotation := (Word.Reading.start.run head).quotation
    (∀ known, mapListCandidates known raw = candidatesBehind head alone known) ∧
      Word.literal raw = Word.literal head ++ within ∧
      (∀ name, Word.isFree name = true →
        (Word.literal raw <+: Word.literal (head ++ name) ↔ within <+: name)) ∧
      ((∀ known, (∀ name ∈ known, Word.isFree name = true) →
        mapListCandidates known raw = candidatesBehind head within known) ↔
          alone = within ∨ Word.isFree alone = false ∧ Word.isFree within = false) ∧
      (quotation = .outside → alone = within) ∧
      (quotation = .double → '\'' ∉ fragment → alone = within) ∧
      (quotation = .single → '"' ∉ fragment → '\\' ∉ fragment → alone = within) := by
  intro head fragment alone within quotation
  have offered (known : List Text) :
      mapListCandidates known raw = candidatesBehind head alone known :=
    mapListCandidates_eq known raw
  refine ⟨offered, (Word.literal_eq_append_openEntry raw).1, fun name => prefix_literal_iff raw, ?_,
    Word.literal_fragment_eq_openEntry raw⟩
  simp only [offered]
  exact candidatesBehind_congr_iff

/-- A fragment with an escape that closes the double quotes of its head. -/
theorem mapListCandidates_open_escape :
    let raw : Text := "\"crlf,\\lf\""
    let offered : List Text := ["\"crlf,lfcr", "\"crlf,lfcrlf", "\"crlf,lfhex"]
    (∀ name ∈ mapNames, Word.isFree name = true) ∧
      (Word.Reading.start.run (Text.cutAfterLast ',' raw).1).quotation = .double ∧
      '\'' ∉ (Text.cutAfterLast ',' raw).2 ∧
      Word.openEntry raw = "lf" ∧ mapListCandidates mapNames raw = offered := by
  intro raw offered
  have free : ∀ name ∈ mapNames, Word.isFree name = true := by decide +kernel
  have quotes : (Word.Reading.start.run (Text.cutAfterLast ',' raw).1).quotation = .double := by
    decide +kernel
  have noSingle : '\'' ∉ (Text.cutAfterLast ',' raw).2 := by decide +kernel
  obtain ⟨_, _, _, same_iff, _, double, _⟩ := mapListCandidates_open raw
  have candidates := same_iff.mpr (.inl (double quotes noSingle)) mapNames free
  exact ⟨free, quotes, noSingle, by decide +kernel, candidates.trans (by decide +kernel)⟩

/-- A quote of the other kind: names are offered that do not go on with the word, and none is
offered where some would. -/
theorem mapListCandidates_open_foreign :
    let unlike : Text := "'crlf,l\""
    let missed : Text := "'crlf,l'\"f"
    let offered : List Text := ["'crlf,lfcr", "'crlf,lfcrlf", "'crlf,lfhex"]
    (∀ name ∈ mapNames, Word.isFree name = true) ∧
      Word.literal unlike = "crlf,l\"" ∧ Word.literal missed = "crlf,lf" ∧
      mapListCandidates mapNames unlike = offered ∧
      candidatesBehind (Text.cutAfterLast ',' unlike).1 (Word.openEntry unlike) mapNames = [] ∧
      mapListCandidates mapNames missed = [] ∧
      candidatesBehind (Text.cutAfterLast ',' missed).1 (Word.openEntry missed) mapNames = offered := by
  decide +kernel

end SerialCompletion.Completion
