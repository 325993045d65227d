import Mathlib.Data.List.Basic
import SerialCompletion.Line.Scan
import SerialCompletion.Proofs.Text.Bytes

/-!
# Growing lines

A move of the scan looks at one character and never at the rest of the line.
The words of a longer line are therefore those of its beginning, with the last
of them continued by the first word that the scan finds in the remainder.
Text typed behind a line completes its last word and touches no other.
-/

namespace SerialCompletion.Line

namespace Scan

@[simp] theorem run_nil (classes : Classes) (scan : Scan) : scan.run classes [] = scan :=
  rfl

@[simp] theorem run_cons (classes : Classes) (scan : Scan) (c : Char) (rest : Text) :
    scan.run classes (c :: rest) = (scan.move classes c).next.run classes rest :=
  rfl

theorem run_append (classes : Classes) (scan : Scan) (first second : Text) :
    scan.run classes (first ++ second) = (scan.run classes first).run classes second := by
  induction first generalizing scan with
  | nil => rfl
  | cons c rest ih => exact ih _

end Scan

/-! ## Words by moves -/

@[simp] theorem wordsFrom_nil (classes : Classes) (scan : Scan) : wordsFrom classes scan [] = [[]] :=
  rfl

section Moves

variable {classes : Classes} {scan next : Scan} {c : Char} (rest : Text)

theorem wordsFrom_of_joins (made : scan.move classes c = ⟨false, true, next⟩) :
    wordsFrom classes scan (c :: rest) = consFirst c (wordsFrom classes next rest) := by
  simp [wordsFrom, made]

theorem wordsFrom_of_drops (made : scan.move classes c = ⟨false, false, next⟩) :
    wordsFrom classes scan (c :: rest) = wordsFrom classes next rest := by
  simp [wordsFrom, made]

theorem wordsFrom_of_ends (made : scan.move classes c = ⟨true, false, next⟩) :
    wordsFrom classes scan (c :: rest) = [] :: wordsFrom classes next rest := by
  simp [wordsFrom, made]

theorem wordsFrom_of_turns (made : scan.move classes c = ⟨true, true, next⟩) :
    wordsFrom classes scan (c :: rest) = [] :: consFirst c (wordsFrom classes next rest) := by
  simp [wordsFrom, made]

end Moves

theorem consFirst_ne_nil (c : Char) (words : List Text) : consFirst c words ≠ [] := by
  cases words <;> exact List.cons_ne_nil _ _

theorem wordsFrom_ne_nil (classes : Classes) (scan : Scan) (text : Text) :
    wordsFrom classes scan text ≠ [] := by
  induction text generalizing scan with
  | nil => exact List.cons_ne_nil _ _
  | cons c rest ih =>
      rcases made : scan.move classes c with ⟨_ | _, _ | _, next⟩
      · rw [wordsFrom_of_drops rest made]
        exact ih next
      · rw [wordsFrom_of_joins rest made]
        exact consFirst_ne_nil _ _
      · rw [wordsFrom_of_ends rest made]
        exact List.cons_ne_nil _ _
      · rw [wordsFrom_of_turns rest made]
        exact List.cons_ne_nil _ _

/-! ## Gluing words -/

def prependFirst (front : Text) : List Text → List Text
  | [] => [front]
  | word :: rest => (front ++ word) :: rest

@[simp] theorem prependFirst_nil {words : List Text} (some : words ≠ []) :
    prependFirst [] words = words := by
  cases words with
  | nil => exact absurd rfl some
  | cons word rest => rfl

theorem prependFirst_prependFirst (first second : Text) (words : List Text) :
    prependFirst first (prependFirst second words) = prependFirst (first ++ second) words := by
  cases words <;> simp [prependFirst]

theorem consFirst_eq_prependFirst (c : Char) (words : List Text) :
    consFirst c words = prependFirst [c] words := by
  cases words <;> rfl

/-- The words of two adjoining texts, when the last word of the first goes on in the second. -/
def glue (first second : List Text) : List Text :=
  first.dropLast ++ prependFirst (first.getLast?.getD []) second

theorem glue_concat (words : List Text) (last : Text) (second : List Text) :
    glue (words ++ [last]) second = words ++ prependFirst last second := by
  simp [glue]

theorem glue_cons (word : Text) {first : List Text} (some : first ≠ []) (second : List Text) :
    glue (word :: first) second = word :: glue first second := by
  obtain ⟨words, last, rfl⟩ := (List.eq_nil_or_concat' first).resolve_left some
  rw [← List.cons_append, glue_concat, glue_concat, List.cons_append]

theorem glue_consFirst (c : Char) {first : List Text} (some : first ≠ []) (second : List Text) :
    glue (consFirst c first) second = consFirst c (glue first second) := by
  cases first with
  | nil => exact absurd rfl some
  | cons word rest =>
      cases rest with
      | nil =>
          change prependFirst (c :: word) second = consFirst c (prependFirst word second)
          rw [consFirst_eq_prependFirst, prependFirst_prependFirst]
          rfl
      | cons next rest =>
          change glue ((c :: word) :: next :: rest) second = _
          rw [glue_cons _ (List.cons_ne_nil _ _), glue_cons _ (List.cons_ne_nil _ _)]
          rfl

theorem wordsFrom_append (classes : Classes) (scan : Scan) (first second : Text) :
    wordsFrom classes scan (first ++ second) =
      glue (wordsFrom classes scan first) (wordsFrom classes (scan.run classes first) second) := by
  induction first generalizing scan with
  | nil =>
      have found := wordsFrom_ne_nil classes scan second
      simp [glue, found]
  | cons c rest ih =>
      rw [List.cons_append, Scan.run_cons]
      rcases made : scan.move classes c with ⟨_ | _, _ | _, next⟩
      all_goals have found := wordsFrom_ne_nil classes next rest
      · rw [wordsFrom_of_drops _ made, wordsFrom_of_drops _ made, ih]
      · rw [wordsFrom_of_joins _ made, wordsFrom_of_joins _ made, ih, glue_consFirst c found]
      · rw [wordsFrom_of_ends _ made, wordsFrom_of_ends _ made, ih, glue_cons [] found]
      · rw [wordsFrom_of_turns _ made, wordsFrom_of_turns _ made, ih,
          glue_cons [] (consFirst_ne_nil _ _), glue_consFirst c found]

/-! ## Words of a growing line -/

theorem words_ne_nil (classes : Classes) (text : Text) : words classes text ≠ [] :=
  wordsFrom_ne_nil classes Scan.start text

theorem exists_words_eq (classes : Classes) (text : Text) :
    ∃ earlier last, words classes text = earlier ++ [last] :=
  (List.eq_nil_or_concat' (words classes text)).resolve_left (words_ne_nil classes text)

@[simp] theorem split_byteLength (classes : Classes) (line : Text) :
    split classes line line.byteLength = words classes line := by
  rw [split, beforeCursor, Text.takeBytes_byteLength]

/-- Text behind a text goes on with its last word, as the scan behind that word reads it. -/
theorem words_append_last {classes : Classes} {first last : Text} {closed : List Text}
    (read : words classes first = closed ++ [last]) (second : Text) :
    words classes (first ++ second) =
      closed ++ prependFirst last (wordsFrom classes (Scan.start.run classes first) second) := by
  have appended := wordsFrom_append classes Scan.start first second
  change words classes (first ++ second) = glue (words classes first) _ at appended
  rw [appended, read, glue_concat]

/-- Text behind a text goes on with its last word and leaves the words before it. -/
theorem words_append (classes : Classes) (first second : Text) :
    ∃ closed last next rest, words classes first = closed ++ [last] ∧
      wordsFrom classes (Scan.start.run classes first) second = next :: rest ∧
      words classes (first ++ second) = closed ++ (last ++ next) :: rest := by
  obtain ⟨closed, last, split⟩ := exists_words_eq classes first
  obtain ⟨next, rest, found⟩ := List.exists_cons_of_ne_nil
    (wordsFrom_ne_nil classes (Scan.start.run classes first) second)
  refine ⟨closed, last, next, rest, split, found, ?_⟩
  rw [words_append_last split, found]
  rfl

theorem words_append_dropLast (classes : Classes) (first second : Text) :
    (words classes first).dropLast <+: (words classes (first ++ second)).dropLast := by
  obtain ⟨closed, last, next, rest, before, _, after⟩ := words_append classes first second
  rw [before, after, List.dropLast_concat, List.dropLast_append_of_ne_nil (List.cons_ne_nil _ _)]
  exact List.prefix_append _ _

/--
Typing never rewrites earlier words.  When a text follows a line, the words
before the last stay in front, and the last word goes on at its place.  The
words before a cursor that moves to the right over a line only become more.
-/
theorem split_append (classes : Classes) (line typed : Text) :
    let before := split classes line line.byteLength
    let after := split classes (line ++ typed) (line ++ typed).byteLength
    before.dropLast <+: after.dropLast ∧
      (∃ last more, before.getLast? = some last ∧
        after[before.length - 1]? = some (last ++ more)) ∧
      ∀ (whole : Text) (offset steps : Nat),
        (Cursor.ofLine classes whole offset).before <+:
          (Cursor.ofLine classes whole (offset + steps)).before := by
  intro before after
  have beforeEq : before = words classes line := split_byteLength classes line
  have afterEq : after = words classes (line ++ typed) := split_byteLength classes _
  refine ⟨?_, ?_, ?_⟩
  · rw [beforeEq, afterEq]
    exact words_append_dropLast classes line typed
  · obtain ⟨closed, last, next, rest, shorter, _, longer⟩ := words_append classes line typed
    refine ⟨last, next, ?_, ?_⟩
    · rw [beforeEq, shorter, List.getLast?_concat]
    · rw [beforeEq, afterEq, shorter, longer]
      simp
  · intro whole offset steps
    obtain ⟨typed, passed⟩ := Text.takeBytes_prefix whole offset steps
    change (words classes (Text.takeBytes offset whole)).dropLast <+:
      (words classes (Text.takeBytes (offset + steps) whole)).dropLast
    rw [← passed]
    exact words_append_dropLast classes _ typed

end SerialCompletion.Line
