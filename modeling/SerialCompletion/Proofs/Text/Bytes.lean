import Mathlib.Order.Bounds.Defs
import SerialCompletion.Text.Basic

/-!
# Beginnings of a text by bytes

The beginning that fits into a number of bytes is the whole text when the
number reaches its length, does not change when the number is moved back to
a character boundary, and grows with the number.  The boundaries of a text are
the lengths of its beginnings, and at a boundary the text is cut into exactly
these two parts.
-/

namespace SerialCompletion.Text

@[simp] theorem byteLength_append (first second : Text) :
    byteLength (first ++ second) = byteLength first + byteLength second := by
  induction first with
  | nil => exact (Nat.zero_add _).symm
  | cons c rest ih => rw [List.cons_append, byteLength, byteLength, ih, Nat.add_assoc]

@[simp] theorem takeBytes_byteLength_append (front behind : Text) :
    takeBytes front.byteLength (front ++ behind) = front := by
  induction front with
  | nil =>
      cases behind with
      | nil => rfl
      | cons c rest => exact if_neg (Nat.not_le.mpr c.utf8Size_pos)
  | cons c front ih =>
      rw [List.cons_append, byteLength, takeBytes, if_pos (Nat.le_add_right _ _),
        Nat.add_sub_cancel_left, ih]

@[simp] theorem takeBytes_byteLength (text : Text) : takeBytes text.byteLength text = text := by
  have whole := takeBytes_byteLength_append text []
  rwa [List.append_nil] at whole

@[simp] theorem takeBytes_clamp (text : Text) (offset : Nat) :
    takeBytes (clamp text offset) text = takeBytes offset text := by
  unfold clamp
  induction text generalizing offset with
  | nil => rfl
  | cons c rest ih =>
      by_cases fits : c.utf8Size ≤ offset
      · simp only [takeBytes, if_pos fits, byteLength, Nat.le_add_right, if_true,
          Nat.add_sub_cancel_left, ih]
      · have positive : ¬ c.utf8Size ≤ 0 := Nat.not_le.mpr c.utf8Size_pos
        simp only [takeBytes, if_neg fits, byteLength, if_neg positive]

/-- A cursor further right has passed everything that a cursor has passed. -/
theorem takeBytes_prefix (text : Text) (offset more : Nat) :
    takeBytes offset text <+: takeBytes (offset + more) text := by
  induction text generalizing offset with
  | nil => exact List.prefix_rfl
  | cons c rest ih =>
      by_cases fits : c.utf8Size ≤ offset
      · have shifted : offset + more - c.utf8Size = offset - c.utf8Size + more := by omega
        simp only [takeBytes, if_pos fits, if_pos (Nat.le_add_right_of_le fits), shifted]
        exact List.cons_prefix_cons.mpr ⟨rfl, ih _⟩
      · simp only [takeBytes, if_neg fits]
        exact List.nil_prefix

theorem takeBytes_append_dropBytes (offset : Nat) (text : Text) :
    takeBytes offset text ++ dropBytes offset text = text := by
  induction text generalizing offset with
  | nil => rfl
  | cons c rest ih =>
      by_cases fits : c.utf8Size ≤ offset
      · simp only [takeBytes, dropBytes, if_pos fits, List.cons_append, ih]
      · simp only [takeBytes, dropBytes, if_neg fits, List.nil_append]

@[simp] theorem dropBytes_byteLength_append (front behind : Text) :
    dropBytes front.byteLength (front ++ behind) = behind := by
  have parts := takeBytes_append_dropBytes front.byteLength (front ++ behind)
  rw [takeBytes_byteLength_append] at parts
  exact List.append_cancel_left parts

/-! ## Boundaries -/

theorem clamp_le (text : Text) (offset : Nat) : clamp text offset ≤ offset := by
  unfold clamp
  induction text generalizing offset with
  | nil => exact Nat.zero_le _
  | cons c rest ih =>
      by_cases fits : c.utf8Size ≤ offset
      · have behind := ih (offset - c.utf8Size)
        rw [takeBytes, if_pos fits, byteLength]
        omega
      · rw [takeBytes, if_neg fits]
        exact Nat.zero_le _

theorem clamp_le_byteLength (text : Text) (offset : Nat) : clamp text offset ≤ text.byteLength := by
  have whole := congrArg byteLength (takeBytes_append_dropBytes offset text)
  rw [byteLength_append] at whole
  unfold clamp
  omega

@[simp] theorem clamp_clamp (text : Text) (offset : Nat) :
    clamp text (clamp text offset) = clamp text offset := by
  rw [clamp, takeBytes_clamp, ← clamp]

theorem takeBytes_of_byteLength_le {text : Text} {offset : Nat} (past : text.byteLength ≤ offset) :
    takeBytes offset text = text := by
  obtain ⟨more, rfl⟩ := Nat.exists_eq_add_of_le past
  obtain ⟨rest, whole⟩ := takeBytes_prefix text text.byteLength more
  rw [takeBytes_byteLength] at whole
  have none : rest = [] := by
    have length := clamp_le_byteLength text (text.byteLength + more)
    rw [clamp, ← whole, byteLength_append] at length
    cases rest with
    | nil => rfl
    | cons c rest =>
        have positive := c.utf8Size_pos
        rw [byteLength] at length
        omega
  rw [← whole, none, List.append_nil]

theorem clamp_min_byteLength (text : Text) (offset : Nat) :
    clamp text (min offset text.byteLength) = clamp text offset := by
  rcases Nat.le_total offset text.byteLength with inside | past
  · rw [Nat.min_eq_left inside]
  · rw [Nat.min_eq_right past, clamp, clamp, takeBytes_byteLength, takeBytes_of_byteLength_le past]

theorem isBoundary_iff {text : Text} {offset : Nat} :
    isBoundary text offset = true ↔ clamp text offset = offset :=
  beq_iff_eq

theorem isBoundary_clamp (text : Text) (offset : Nat) :
    isBoundary text (clamp text offset) = true :=
  isBoundary_iff.mpr (clamp_clamp text offset)

/-- The text between two boundaries is what the second has passed behind the first. -/
theorem between?_of_boundaries {text : Text} {start stop : Nat}
    (starts : isBoundary text start = true) (stops : isBoundary text stop = true)
    (ordered : start ≤ stop) : between? text start stop = some (dropBytes start (takeBytes stop text)) := by
  rw [between?, starts, stops, decide_eq_true ordered]
  rfl

/-- An offset past the end of the text counts as the end. -/
theorem isBoundary_min_iff {text : Text} {offset : Nat} :
    isBoundary text (min offset text.byteLength) = true ↔
      clamp text offset = min offset text.byteLength := by
  rw [isBoundary_iff, clamp_min_byteLength]

/-!
## Boundaries of the UTF-8 form

A text counts bytes as the string of its characters does, and its boundaries
are the positions that are valid in that string.  Clamping an offset gives the
greatest of them that the offset has reached, and a text that is cut there can
go on in any way without moving the boundary.
-/

variable {text : Text} {offset : Nat}

theorem utf8ByteSize_ofList (text : Text) :
    (String.ofList text).utf8ByteSize = text.byteLength := by
  induction text with
  | nil => rfl
  | cons c rest ih =>
      rw [String.ofList_cons, String.utf8ByteSize_append, String.utf8ByteSize_singleton, ih]
      rfl

theorem isBoundary_byteLength_append (front behind : Text) :
    isBoundary (front ++ behind) front.byteLength = true := by
  rw [isBoundary_iff, clamp, takeBytes_byteLength_append]

/-- The boundaries of a text are the positions between the characters of its string. -/
theorem isBoundary_iff_isValid :
    isBoundary text offset = true ↔
      (⟨offset⟩ : String.Pos.Raw).IsValid (String.ofList text) := by
  rw [String.Pos.Raw.isValid_ofList]
  constructor
  · intro boundary
    refine ⟨(takeBytes offset text).length, ?_⟩
    have front : takeBytes offset text = text.take (takeBytes offset text).length :=
      List.prefix_iff_eq_take.mp ⟨_, takeBytes_append_dropBytes offset text⟩
    rw [← front, utf8ByteSize_ofList]
    exact (isBoundary_iff.mp boundary).symm
  · rintro ⟨count, length⟩
    have same : offset = byteLength (text.take count) := by
      rw [← utf8ByteSize_ofList]
      exact length
    have boundary := isBoundary_byteLength_append (text.take count) (text.drop count)
    rwa [List.take_append_drop, ← same] at boundary

/-- A cursor further right is never clamped to an earlier boundary. -/
theorem clamp_mono (text : Text) {first second : Nat} (ordered : first ≤ second) :
    clamp text first ≤ clamp text second := by
  obtain ⟨more, rfl⟩ := Nat.exists_eq_add_of_le ordered
  obtain ⟨rest, whole⟩ := takeBytes_prefix text first more
  rw [clamp, clamp, ← whole, byteLength_append]
  exact Nat.le_add_right _ _

/-- Clamping takes an offset to the greatest boundary that it has reached. -/
theorem clamp_isGreatest (text : Text) (offset : Nat) :
    IsGreatest {boundary | (⟨boundary⟩ : String.Pos.Raw).IsValid (String.ofList text) ∧
      boundary ≤ min offset (String.ofList text).utf8ByteSize} (clamp text offset) := by
  rw [utf8ByteSize_ofList]
  constructor
  · constructor
    · exact isBoundary_iff_isValid.mp (isBoundary_clamp text offset)
    · exact Nat.le_min.mpr ⟨clamp_le text offset, clamp_le_byteLength text offset⟩
  · rintro boundary ⟨valid, reached⟩
    have stays := isBoundary_iff.mp (isBoundary_iff_isValid.mpr valid)
    rw [← stays]
    exact clamp_mono text (Nat.le_trans reached (Nat.min_le_left _ _))

/-- A boundary stays where it is whatever follows the text that is cut there. -/
theorem clamp_takeBytes_append (offset : Nat) (text behind : Text) :
    clamp (takeBytes offset text ++ behind) (clamp text offset) = clamp text offset := by
  rw [clamp, clamp, takeBytes_byteLength_append]

end SerialCompletion.Text
