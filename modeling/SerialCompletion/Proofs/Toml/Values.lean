import Mathlib.Data.List.TakeDrop
import SerialCompletion.Proofs.Text.Pieces
import SerialCompletion.Proofs.Toml.Strings
import SerialCompletion.Settings.Storage
import SerialCompletion.Toml.Reader

/-!
# Written values are read back

Strings, numbers, truth values and arrays of strings, as settings are written,
are read back in front of the end of their line.  Every bound that the reader
of nested values counts down is at least the number of items that are left, so
no bound is ever met.
-/

namespace SerialCompletion.Toml

variable {word rest : Text} {bound depth : Nat} {c : Char}

/-! ## What stands between values -/

/-- Whether a text starts with a character that no reader passes over. -/
def StartsVisible (text : Text) : Prop :=
  ∃ c ∈ text.head?, c ∉ ['\n', '\r', ' ', '\t', '#']

/-- A text is visible from its first character on, if that satisfies a test that none of these
satisfies. -/
theorem startsVisible_cons {test : Char → Bool} (first : test c = true)
    (spared : ['\n', '\r', ' ', '\t', '#'].all (fun mark => !test mark) = true) (rest : Text) :
    StartsVisible (c :: rest) := by
  refine ⟨c, rfl, fun member => ?_⟩
  have other := List.all_eq_true.mp spared c member
  rw [first] at other
  cases other

theorem StartsVisible.append {text : Text} (starts : StartsVisible text) (rest : Text) :
    StartsVisible (text ++ rest) := by
  obtain ⟨c, head, visible⟩ := starts
  cases text with
  | nil => cases head
  | cons d text => exact ⟨c, head, visible⟩

theorem StartsVisible.ne_nil {text : Text} (starts : StartsVisible text) : text ≠ [] := by
  rintro rfl
  obtain ⟨c, head, -⟩ := starts
  cases head

theorem skipFiller_visible {text : Text} (starts : StartsVisible text) :
    skipFiller false text = .ok text := by
  obtain ⟨c, head, visible⟩ := starts
  cases text with
  | nil => cases head
  | cons d text =>
      cases head
      simp only [List.mem_cons, List.not_mem_nil, or_false, not_or] at visible
      simp [skipFiller, isReturn, visible]

theorem skipBlanks_visible {text : Text} (starts : StartsVisible text) : skipBlanks text = text := by
  obtain ⟨c, head, visible⟩ := starts
  cases text with
  | nil => cases head
  | cons d text =>
      cases head
      simp only [List.mem_cons, List.not_mem_nil, or_false, not_or] at visible
      simp [skipBlanks, visible]

theorem skipBlanks_space (rest : Text) : skipBlanks (' ' :: rest) = skipBlanks rest := by
  simp [skipBlanks]

@[simp] theorem skipFiller_lineFeed (rest : Text) :
    skipFiller false ('\n' :: rest) = skipFiller false rest := by
  simp [skipFiller]

@[simp] theorem skipFiller_space (rest : Text) :
    skipFiller false (' ' :: rest) = skipFiller false rest := by
  simp [skipFiller, isReturn]

/-! ## Strings -/

theorem exists_writeString (text : Text) :
    ∃ quote tail, writeString text = quote :: tail ∧ (quote = '"' ∨ quote = '\'') := by
  unfold writeString
  generalize StringForm.ofText text = form
  cases form with
  | basic | basicLines => exact ⟨'"', _, rfl, .inl rfl⟩
  | literal | literalLines => exact ⟨'\'', _, rfl, .inr rfl⟩

theorem startsVisible_writeString (text : Text) : StartsVisible (writeString text) := by
  obtain ⟨quote, tail, written, kind⟩ := exists_writeString text
  rw [written]
  refine ⟨quote, rfl, ?_⟩
  rcases kind with rfl | rfl <;> decide

theorem value_writeString (text : Text) (noDouble : rest.head? ≠ some '"')
    (noSingle : rest.head? ≠ some '\'') :
    value (bound + 1) depth (writeString text ++ rest) = .ok (.text text, rest) := by
  have read := quotedString_writeString text noDouble noSingle
  obtain ⟨quote, tail, written, kind⟩ := exists_writeString text
  rw [written, List.cons_append] at read ⊢
  rcases kind with rfl | rfl <;> simp [value, read, Except.map]

/-! ## Bare values -/

theorem span_append_of_forall {test : Char → Bool} {front : Text}
    (each : ∀ c ∈ front, test c = true) {stop : Char} (stops : test stop = false) (behind : Text) :
    (front ++ stop :: behind).span test = (front, stop :: behind) := by
  rw [List.span_eq_takeWhile_dropWhile, List.takeWhile_append_of_pos each,
    List.dropWhile_append_of_pos each]
  simp [stops]

theorem lexeme_word (scalars : ∀ c ∈ word, isScalarChar c = true) (rest : Text) :
    lexeme (word ++ '\n' :: rest) = (word, '\n' :: rest) := by
  have spans := span_append_of_forall scalars (show isScalarChar '\n' = false from rfl) rest
  unfold lexeme
  split
  case h_1 first c behind found => cases spans ▸ found
  case h_2 parts no => exact spans

/-- A bare word is read as the value that it stands for. -/
theorem scalar_word {found : Value} (some : word ≠ [])
    (scalars : ∀ c ∈ word, isScalarChar c = true) (means : scalarOf word = .ok found) (rest : Text) :
    scalar (word ++ '\n' :: rest) = .ok (found, '\n' :: rest) := by
  obtain ⟨c, tail, rfl⟩ := List.exists_cons_of_ne_nil some
  simp only [scalar, lexeme_word scalars rest, means]
  rfl

section Numbers

variable {number : Nat}

theorem digitIn?_of_isDigit (digit : c.isDigit = true) :
    digitIn? 10 c = some (c.toNat - '0'.toNat) := by
  have range : '0' ≤ c ∧ c ≤ '9' := Char.isDigit_iff_toNat.mp digit
  have high : c.toNat ≤ 57 := range.2
  have small : c.toNat - '0'.toNat < 10 := by
    have zero : '0'.toNat = 48 := rfl
    omega
  rw [digitIn?, hexValue?, if_pos range, Option.filter_some, if_pos (decide_eq_true small)]

theorem groupedDigits?_of_free {base : Nat} {text : Text} (some : text ≠ [])
    (free : ∀ c ∈ text, (c == '_') = false) :
    groupedDigits? base text = text.mapM (digitIn? base) := by
  obtain ⟨c, rest, rfl⟩ := List.exists_cons_of_ne_nil some
  rw [groupedDigits?, List.splitOnP_eq_singleton free]
  change [c :: rest].flatten.mapM (digitIn? base) = _
  rw [List.flatten_singleton]

theorem grouped?_ofNat (number : Nat) : grouped? 10 (Text.ofNat number) = some number := by
  have free : ∀ c ∈ Text.ofNat number, (c == '_') = false := by
    intro c member
    rw [beq_eq_false_iff_ne]
    rintro rfl
    exact Text.not_mem_ofNat rfl member
  have digits : (Text.ofNat number).mapM (digitIn? 10) = some _ :=
    Text.mapM_of_forall fun c member => digitIn?_of_isDigit (Text.isDigit_of_mem_ofNat member)
  rw [grouped?, groupedDigits?_of_free (Text.ofNat_ne_nil number) free, digits, Option.map_some,
    Text.digitsFrom_ofNat]

theorem signed_ofNat (number : Nat) : signed (Text.ofNat number) = (false, Text.ofNat number) := by
  unfold signed
  split
  case h_1 same => exact absurd (same ▸ List.mem_cons_self) (@Text.not_mem_ofNat '-' number rfl)
  case h_2 same => exact absurd (same ▸ List.mem_cons_self) (@Text.not_mem_ofNat '+' number rfl)
  case h_3 => rfl

theorem decimal?_ofNat (number : Nat) : decimal? (Text.ofNat number) = some number := by
  have allowed : ¬ ((Text.ofNat number).head? = some '0' ∧ Text.ofNat number ≠ ['0']) := by
    rcases Nat.eq_zero_or_pos number with rfl | positive
    · simp [Text.ofNat]
    · exact fun zero => Text.head?_ofNat_ne positive zero.1
  rw [decimal?, if_neg allowed, grouped?_ofNat]

/-- A written number is read as an integer. -/
theorem integer?_ofNat (number : Nat) : integer? (Text.ofNat number) = some (.ofNat number) := by
  have unmarked (mark : Char) (other : mark.isDigit = false) (digits : Text) :
      Text.ofNat number ≠ '0' :: mark :: digits := by
    intro written
    exact Text.not_mem_ofNat other (written ▸ List.mem_cons_of_mem _ List.mem_cons_self)
  unfold integer?
  split
  case h_1 written => exact absurd written (unmarked 'x' rfl _)
  case h_2 written => exact absurd written (unmarked 'o' rfl _)
  case h_3 written => exact absurd written (unmarked 'b' rfl _)
  case h_4 => simp [signed_ofNat, decimal?_ofNat]

theorem scalarOf_ofNat (sized : number < Nat.pow 2 128) :
    scalarOf (Text.ofNat number) = .ok (.integer (.ofNat number)) := by
  have sizedToo : isSized (.ofNat number) = true := decide_eq_true sized
  rw [scalarOf, if_neg (Text.ofNat_ne_of_mem 't' (by decide) rfl number),
    if_neg (Text.ofNat_ne_of_mem 'f' (by decide) rfl number), integer?_ofNat]
  simp only [sizedToo, if_true]

end Numbers

/-! ## Arrays -/

section Arrays

variable {start behind : Text} {item : Value}

/-- An item with a comma behind it is followed by the items behind the comma. -/
theorem items_comma {text : Text} (notLast : start.head? ≠ some ']')
    (skipped : skipFiller false text = .ok start)
    (first : value bound depth start = .ok (item, ',' :: behind)) :
    items (bound + 1) depth text =
      (items bound depth behind).map fun (others, rest) => (item :: others, rest) := by
  have comma : skipFiller false (',' :: behind) = .ok (',' :: behind) :=
    skipFiller_visible ⟨',', rfl, by decide⟩
  simp only [items, skipped, bind, Except.bind]
  split
  case h_1 rest => exact absurd rfl notLast
  case h_2 =>
    simp only [first, comma]
    cases items bound depth behind <;> rfl

theorem items_last {text : Text} (notLast : start.head? ≠ some ']')
    (skipped : skipFiller false text = .ok start)
    (first : value bound depth start = .ok (item, ']' :: behind)) :
    items (bound + 1) depth text = .ok ([item], behind) := by
  have bracket : skipFiller false (']' :: behind) = .ok (']' :: behind) :=
    skipFiller_visible ⟨']', rfl, by decide⟩
  simp only [items, skipped, bind, Except.bind]
  split
  case h_1 rest => exact absurd rfl notLast
  case h_2 =>
    simp only [first, bracket, expect]
    rfl

theorem items_close (rest : Text) : items (bound + 1) depth (']' :: rest) = .ok ([], rest) := by
  have bracket : skipFiller false (']' :: rest) = .ok (']' :: rest) :=
    skipFiller_visible ⟨']', rfl, by decide⟩
  simp only [items, bracket, bind, Except.bind]
  rfl

theorem head?_writeString_ne (text rest : Text) : (writeString text ++ rest).head? ≠ some ']' := by
  obtain ⟨quote, tail, written, kind⟩ := exists_writeString text
  rw [written]
  rcases kind with rfl | rfl <;> simp

theorem items_lineFeed (rest : Text) : items bound depth ('\n' :: rest) = items bound depth rest := by
  cases bound with
  | zero => simp only [items]
  | succ bound => simp only [items, skipFiller_lineFeed]

theorem skipFiller_writeItemLine (text rest : Text) :
    skipFiller false (writeItemLine text ++ rest) =
      .ok (writeString text ++ ',' :: '\n' :: rest) := by
  have start := skipFiller_visible ((startsVisible_writeString text).append (',' :: '\n' :: rest))
  simpa [writeItemLine] using start

/-- The lines of an array are read one by one, each with one step of the bound. -/
theorem items_flatMap_writeItemLine {texts : List Text} (enough : texts.length < bound)
    (rest : Text) :
    items bound depth (texts.flatMap writeItemLine ++ ']' :: rest) = .ok (texts.map .text, rest) := by
  induction texts generalizing bound with
  | nil =>
      obtain ⟨bound, rfl⟩ := Nat.exists_eq_add_one_of_ne_zero (Nat.ne_zero_of_lt enough)
      exact items_close rest
  | cons text texts ih =>
      have two : 2 ≤ bound := Nat.le_trans (Nat.le_add_left 2 texts.length) enough
      obtain ⟨left, rfl⟩ := Nat.exists_eq_add_of_le' two
      have others := ih (Nat.lt_of_succ_lt_succ enough)
      have first (behind : Text) : value (left + 1) depth (writeString text ++ ',' :: behind) =
          .ok (.text text, ',' :: behind) :=
        value_writeString text (by simp) (by simp)
      rw [List.flatMap_cons, List.append_assoc,
        items_comma (head?_writeString_ne _ _) (skipFiller_writeItemLine _ _) (first _),
        items_lineFeed, others]
      rfl

theorem writeTexts_many (first second : Text) (others : List Text) :
    writeTexts (first :: second :: others) =
      '[' :: '\n' :: ((first :: second :: others).flatMap writeItemLine ++ [']']) :=
  rfl

theorem value_bracket (rest : Text) :
    value (bound + 1) (depth + 1) ('[' :: rest) =
      (items bound depth rest).map fun (found, rest) => (.array found, rest) := by
  simp only [value]

/-- A written array of texts is read back. -/
theorem value_writeTexts {texts : List Text} (enough : texts.length < bound) (rest : Text) :
    value (bound + 1) (depth + 1) (writeTexts texts ++ rest) =
      .ok (.array (texts.map .text), rest) := by
  obtain ⟨left, rfl⟩ := Nat.exists_eq_add_one_of_ne_zero (Nat.ne_zero_of_lt enough)
  match texts with
  | [] =>
      change value (left + 1 + 1) (depth + 1) ('[' :: ']' :: rest) = _
      rw [value_bracket, items_close]
      rfl
  | [text] =>
      have some := Nat.ne_zero_of_lt (Nat.lt_of_succ_lt_succ enough)
      obtain ⟨left, rfl⟩ := Nat.exists_eq_add_one_of_ne_zero some
      have item : value (left + 1) depth (writeString text ++ ']' :: rest) = _ :=
        value_writeString text (by simp) (by simp)
      have written : writeTexts [text] ++ rest = '[' :: (writeString text ++ ']' :: rest) := by
        simp [writeTexts]
      rw [written, value_bracket, items_last (head?_writeString_ne _ _)
        (skipFiller_visible ((startsVisible_writeString _).append _)) item]
      rfl
  | first :: second :: others =>
      rw [writeTexts_many, List.cons_append, value_bracket, List.cons_append, items_lineFeed,
        List.append_assoc, List.singleton_append, items_flatMap_writeItemLine enough]
      rfl

theorem length_le_flatMap_writeItemLine (texts : List Text) :
    texts.length ≤ (texts.flatMap writeItemLine).length := by
  induction texts with
  | nil => exact Nat.zero_le _
  | cons text texts ih =>
      have line : 0 < (writeItemLine text).length := by simp [writeItemLine]
      rw [List.flatMap_cons, List.length_append, List.length_cons]
      omega

theorem length_lt_writeTexts (texts : List Text) : texts.length < (writeTexts texts).length := by
  match texts with
  | [] => exact Nat.two_pos
  | [text] => simp [writeTexts]
  | first :: second :: others =>
      have lines := length_le_flatMap_writeItemLine (first :: second :: others)
      rw [writeTexts_many]
      simp only [List.length_cons, List.length_append] at lines ⊢
      omega

end Arrays

/-! ## Written values -/

/-- A text that is read as a value in front of the end of its line. -/
structure Writes (written : Text) (found : Value) : Prop where
  starts : StartsVisible written
  read : ∀ rest, topValue (written ++ '\n' :: rest) = .ok (found, '\n' :: rest)

theorem writes_string (text : Text) : Writes (writeString text) (.text text) where
  starts := startsVisible_writeString text
  read _ := value_writeString text (by simp) (by simp)

theorem writes_texts (texts : List Text) : Writes (writeTexts texts) (.array (texts.map .text)) where
  starts := by
    refine ⟨'[', ?_, by decide⟩
    match texts with
    | [] | [_] | _ :: _ :: _ => rfl
  read rest := by
    refine value_writeTexts ?_ _
    have items := length_lt_writeTexts texts
    rw [List.length_append]
    omega

theorem writes_scalar {found : Value} (some : word ≠ [])
    (scalars : ∀ c ∈ word, isScalarChar c = true) (means : scalarOf word = .ok found) : Writes word found := by
  obtain ⟨c, tail, rfl⟩ := List.exists_cons_of_ne_nil some
  have apart (mark : Char) (other : isScalarChar mark = false) : c ≠ mark := by
    rintro rfl
    exact absurd (scalars _ List.mem_cons_self) (other ▸ Bool.false_ne_true)
  refine ⟨startsVisible_cons (scalars c List.mem_cons_self) rfl tail, fun rest => ?_⟩
  rw [topValue, List.cons_append, value]
  · exact scalar_word some scalars means rest
  · exact fun _ same => apart '[' rfl (List.cons.inj same).1
  · exact fun _ same => apart '{' rfl (List.cons.inj same).1
  · exact fun _ same => apart '"' rfl (List.cons.inj same).1
  · exact fun _ same => apart '\'' rfl (List.cons.inj same).1

theorem writes_boolean (flag : Bool) : Writes (writeBoolean flag) (.boolean flag) := by
  cases flag with
  | true => exact writes_scalar (by decide) (List.all_eq_true.mp rfl) rfl
  | false => exact writes_scalar (by decide) (List.all_eq_true.mp rfl) rfl

theorem writes_ofNat {number : Nat} (sized : number < Nat.pow 2 128) :
    Writes (Text.ofNat number) (.integer (.ofNat number)) := by
  refine writes_scalar (Text.ofNat_ne_nil number) (fun c member => ?_) (scalarOf_ofNat sized)
  have digit := Text.isDigit_of_mem_ofNat member
  simp [isScalarChar, Char.isAlphanum, digit]

end SerialCompletion.Toml
