import SerialCompletion.Completion.Session
import SerialCompletion.Proofs.Completion.Candidates
import SerialCompletion.Proofs.Line.Cursor

/-!
# Spans of offers and suggestions

An offer sees a cursor as the character boundary to which it is clamped, and
what it replaces is the text that the cursor completes, no less and no more.
The span of a suggestion begins at a boundary in front of the cursor, but it ends
at the offset as it was given, moved back only to the end of the line.  So the
suggestions at an offset are those at its boundary, with spans that can be cut
out of the line, unless the offset stands inside a character.
-/

namespace SerialCompletion.Completion

open Files Line

namespace Completer

variable (completer : Completer) (list : Lister) (line : Text) (offset : Nat)

@[simp] theorem offer_start :
    (completer.offer line offset).start = (Cursor.ofLine completer.classes line offset).start :=
  offerFor_start _ _ _

theorem offer_clamp : completer.offer line (Text.clamp line offset) = completer.offer line offset := by
  rw [offer, Cursor.ofLine_clamp, offer]

theorem offer_start_le : (completer.offer line offset).start ≤ Text.clamp line offset := by
  obtain ⟨front, follows⟩ := Cursor.exists_follows completer.classes line offset
  rw [offer_start]
  exact follows.start_le

theorem isBoundary_offer_start :
    Text.isBoundary line (completer.offer line offset).start = true := by
  obtain ⟨front, follows⟩ := Cursor.exists_follows completer.classes line offset
  rw [offer_start]
  exact follows.isBoundary_start

/--
An offer replaces exactly the text that is completed.  Wherever the cursor
stands, the line can be cut at the start of the offer and at the clamped
cursor, in this order, and between the two stands the last word, or nothing
when the last word is a run of separators.  The start lies in front of the
cursor by the length of that text, and never would lie in front of the line.
-/
theorem between?_offer (completer : Completer) (line : Text) (offset : Nat) :
    (completer.offer line offset).start ≤ Text.clamp line offset ∧
      Text.clamp line offset ≤ line.byteLength ∧
      Text.isBoundary line (completer.offer line offset).start = true ∧
      Text.isBoundary line (Text.clamp line offset) = true ∧
      (Cursor.ofLine completer.classes line offset).typed.byteLength ≤
        (Cursor.ofLine completer.classes line offset).offset ∧
      (completer.offer line offset).start =
        (Cursor.ofLine completer.classes line offset).offset -
          (Cursor.ofLine completer.classes line offset).typed.byteLength ∧
      ∃ last, (split completer.classes line offset).getLast? = some last ∧
        Text.between? line (completer.offer line offset).start (Text.clamp line offset) =
          some (if completer.classes.isSeparatorRun last then [] else last) := by
  obtain ⟨front, follows⟩ := Cursor.exists_follows completer.classes line offset
  obtain ⟨last, read, typed⟩ := Cursor.exists_typed_eq completer.classes line offset
  have startEq := completer.offer_start line offset
  have length := follows.start_add_typed
  have within : _ ≤ (Cursor.ofLine completer.classes line offset).offset :=
    length ▸ Nat.le_add_left _ _
  refine ⟨completer.offer_start_le line offset, Text.clamp_le_byteLength line offset,
    completer.isBoundary_offer_start line offset, Text.isBoundary_clamp line offset, within, startEq,
    last, read, ?_⟩
  rw [startEq, follows.between?_start, typed]

/-- Every span ends at the offset or at the end of the line. -/
theorem suggest_eq :
    completer.suggest list line offset =
      ((completer.offer line offset).values list line (min offset line.byteLength)).map fun value =>
        ⟨value, (completer.offer line offset).start, min offset line.byteLength,
          !(completer.offer line offset).hints.noSpace && value.getLast? != some '/'⟩ := by
  have start : (completer.offer line offset).start ≤ min offset line.byteLength :=
    Nat.le_trans (completer.offer_start_le line offset)
      (Nat.le_min.mpr ⟨Text.clamp_le line offset, Text.clamp_le_byteLength line offset⟩)
  rw [suggest, Nat.max_eq_left start]

theorem span_of_mem {suggestion : Suggestion} (member : suggestion ∈ completer.suggest list line offset) :
    suggestion.start = (completer.offer line offset).start ∧
      suggestion.stop = min offset line.byteLength := by
  rw [suggest_eq] at member
  obtain ⟨value, _, rfl⟩ := List.mem_map.mp member
  exact ⟨rfl, rfl⟩

/-- At a boundary the offset and the offset that is clamped give the same suggestions. -/
theorem suggest_of_boundary (boundary : Text.isBoundary line (min offset line.byteLength) = true) :
    completer.suggest list line offset = completer.suggest list line (Text.clamp line offset) := by
  have stop := Text.isBoundary_min_iff.mp boundary
  have within : min (Text.clamp line offset) line.byteLength = min offset line.byteLength := by
    rw [stop, Nat.min_assoc, Nat.min_self]
  rw [suggest_eq, suggest_eq, offer_clamp, within]

/--
Every span starts at a boundary that is not behind the clamped offset and ends
at the offset or at the end of the line.  The suggestions are those at the
clamped offset, with spans that end there and stand on two boundaries, exactly
when the offset is no offset inside a character, or when nothing is suggested.
-/
theorem suggest_clamp_iff :
    (∀ suggestion ∈ completer.suggest list line offset,
      suggestion.start ≤ Text.clamp line offset ∧
        Text.isBoundary line suggestion.start = true ∧
        suggestion.stop = min offset line.byteLength) ∧
    ((completer.suggest list line offset = completer.suggest list line (Text.clamp line offset) ∧
      ∀ suggestion ∈ completer.suggest list line offset,
        suggestion.start ≤ suggestion.stop ∧ suggestion.stop = Text.clamp line offset ∧
          Text.isBoundary line suggestion.start = true ∧
          Text.isBoundary line suggestion.stop = true) ↔
      Text.isBoundary line (min offset line.byteLength) = true ∨
        (completer.suggest list line offset = [] ∧
          completer.suggest list line (Text.clamp line offset) = [])) := by
  have spans (suggestion : Suggestion) (member : suggestion ∈ completer.suggest list line offset) :
      suggestion.start ≤ Text.clamp line offset ∧
        Text.isBoundary line suggestion.start = true ∧
        suggestion.stop = min offset line.byteLength := by
    obtain ⟨start, stop⟩ := completer.span_of_mem list line offset member
    rw [start]
    exact ⟨completer.offer_start_le line offset, completer.isBoundary_offer_start line offset, stop⟩
  refine ⟨spans, ?_, ?_⟩
  · rintro ⟨same, valid⟩
    cases suggested : completer.suggest list line offset with
    | nil => exact .inr ⟨rfl, same.symm.trans suggested⟩
    | cons suggestion rest =>
        have member : suggestion ∈ completer.suggest list line offset := by
          rw [suggested]
          exact List.mem_cons_self
        left
        rw [← (spans suggestion member).2.2]
        exact (valid suggestion member).2.2.2
  · rintro (boundary | ⟨none, noneClamped⟩)
    · refine ⟨completer.suggest_of_boundary list line offset boundary, ?_⟩
      intro suggestion member
      obtain ⟨start, starts, stops⟩ := spans suggestion member
      rw [stops, ← Text.isBoundary_min_iff.mp boundary]
      exact ⟨start, rfl, starts, Text.isBoundary_clamp line offset⟩
    · rw [none, noneClamped]
      exact ⟨rfl, by simp⟩

/-- Inside a character the span ends where the line cannot be cut. -/
theorem suggest_inside_character :
    let completer : Completer := ⟨.standard, .picocom []⟩
    let line : Text := "picocom --baé"
    completer.suggest (fun _ => []) line 13 = [⟨"--baud", 8, 13, true⟩] ∧
      completer.suggest (fun _ => []) line (Text.clamp line 13) = [⟨"--baud", 8, 12, true⟩] ∧
      Text.isBoundary line 13 = false := by
  decide +kernel

end Completer

end SerialCompletion.Completion
