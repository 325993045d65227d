import Mathlib.Data.List.Forall2
import Mathlib.Data.List.TakeDrop
import Mathlib.Data.List.TakeWhile
import SerialCompletion.Proofs.Json.Reader
import SerialCompletion.Proofs.Text.Pieces
import SerialCompletion.Proofs.Toml.Strings
import SerialCompletion.Text.Quoted

/-!
# Written JSON is read back

A string is read back whatever its text is: each character is written by
itself, by a name or by its number, and no way ends the string or the line.
Numbers, names and strings are tokens, and a value that is read in front of any
mark makes up the item of an array or the member of an object.
-/

namespace SerialCompletion.Json

open Text

namespace Lexing

variable {lexing next : Lexing} {c : Char} {tokens : List Token}

theorem tokens?_cons (step : lexing.next? c = some (tokens, next)) (rest : Text) :
    lexing.tokens? (c :: rest) = (next.tokens? rest).map (tokens ++ ·) := by
  rw [tokens?, step]

theorem tokens?_cons_nil (step : lexing.next? c = some ([], next)) (rest : Text) :
    lexing.tokens? (c :: rest) = next.tokens? rest := by
  rw [tokens?_cons step]
  exact Option.map_id'

end Lexing

/-! ## Strings -/

inductive CharForm (c : Char) : Text → Prop where
  | named {name : Char} (meant : namedChar? name = some c) : CharForm c ['\\', name]
  /-- By its number, in four digits of which two are zeros. -/
  | numbered (small : c.toNat < 32) :
      CharForm c ['\\', 'u', '0', '0', hexDigit (c.toNat / 16), hexDigit c.toNat]
  | plain (noQuote : c ≠ '"') (noSlash : c ≠ '\\') (visible : ¬ c < ' ') : CharForm c [c]

theorem jsonChar_form (c : Char) : CharForm c (jsonChar c) := by
  unfold jsonChar
  split_ifs with quote slash backspace formFeed lineFeed carriageReturn tab control
  · subst quote; exact .named rfl
  · subst slash; exact .named rfl
  · subst backspace; exact .named rfl
  · subst formFeed; exact .named rfl
  · subst lineFeed; exact .named rfl
  · subst carriageReturn; exact .named rfl
  · subst tab; exact .named rfl
  · exact .numbered control
  · exact .plain quote slash control

theorem hexValue?_hexDigit (value : Nat) : Toml.hexValue? (hexDigit value) = some (value % 16) :=
  Toml.hexValue?_lowerDigit (Nat.mod_lt value (by decide))

namespace CharForm

variable {c : Char} {written : Text}

/-- A character is read back in whatever way it is written. -/
theorem tokens?_append (form : CharForm c written) (front rest : Text) :
    (Lexing.string .plain front).tokens? (written ++ rest) =
      (Lexing.string .plain (front ++ [c])).tokens? rest := by
  cases form with
  | @named name meant =>
      have noNumber : name ≠ 'u' := by
        rintro rfl
        cases meant
      simp [Lexing.tokens?, Lexing.next?, Within.next?, noNumber, meant]
  | numbered small =>
      have zero : Toml.hexValue? '0' = some 0 := rfl
      have number : 16 * (c.toNat / 16 % 16) + c.toNat % 16 = c.toNat := by omega
      have single : ¬ (0xd800 ≤ c.toNat ∧ c.toNat < 0xdc00) := by omega
      have unit : codeUnit? none c.toNat = some ([c], .plain) := by
        rw [codeUnit?, if_neg single, contentOf?, Toml.charOf?_toNat]
        rfl
      simp [Lexing.tokens?, Lexing.next?, Within.next?, zero, hexValue?_hexDigit, number, unit]
  | plain noQuote noSlash visible =>
      simp [Lexing.tokens?, Lexing.next?, Within.next?, noQuote, noSlash, visible]

/-- No way to write a character takes a line feed. -/
theorem lineFeed_free (form : CharForm c written) : '\n' ∉ written := by
  cases form with
  | @named name meant =>
      have noLine : '\n' ≠ name := by
        rintro rfl
        cases meant
      simp [noLine]
  | numbered =>
      have noDigit (value : Nat) : '\n' ≠ hexDigit value := by
        intro same
        have value? := hexValue?_hexDigit value
        rw [← same] at value?
        cases value?
      simp [noDigit]
  | plain _ _ visible =>
      rw [List.mem_singleton]
      rintro rfl
      exact visible (by decide)

end CharForm

theorem tokens?_jsonString (text rest : Text) :
    Lexing.between.tokens? (jsonString text ++ rest) =
      (Lexing.between.tokens? rest).map (.text text :: ·) := by
  have body (front : Text) :
      (Lexing.string .plain front).tokens? (text.flatMap jsonChar ++ '"' :: rest) =
        (Lexing.between.tokens? rest).map (.text (front ++ text) :: ·) := by
    induction text generalizing front with
    | nil => simp [Lexing.tokens?, Lexing.next?]
    | cons c text ih =>
        rw [List.flatMap_cons, List.append_assoc, (jsonChar_form c).tokens?_append, ih,
          List.append_assoc]
        rfl
  have opened := body []
  simpa [jsonString, Lexing.tokens?, Lexing.next?, Lexing.afterOpening?, isSpace, isMark] using opened

theorem lineFeed_free_jsonString (text : Text) : '\n' ∉ jsonString text := by
  have body : '\n' ∉ text.flatMap jsonChar := by
    rw [List.mem_flatMap]
    rintro ⟨c, _, member⟩
    exact (jsonChar_form c).lineFeed_free member
  simp [jsonString, body]

/-! ## Tokens -/

/-- Whether a number or a name in front of a text would end there. -/
def Apart (rest : Text) : Prop :=
  ∀ c ∈ rest.head?, isWordChar c = false

theorem apart_nil : Apart [] := by
  intro c first
  cases first

theorem apart_cons {c : Char} (mark : isWordChar c = false) (rest : Text) : Apart (c :: rest) := by
  intro d first
  cases first
  exact mark

theorem tokens?_mark {c : Char} (mark : isMark c = true) (rest : Text) :
    Lexing.between.tokens? (c :: rest) = (Lexing.between.tokens? rest).map (.mark c :: ·) := by
  have other (space : Char) (noMark : isMark space = false) : c ≠ space := by
    rintro rfl
    rw [mark] at noMark
    cases noMark
  have noSpace : isSpace c = false := by
    simp [isSpace, other ' ' rfl, other '\t' rfl, other '\n' rfl, other '\r' rfl]
  have opened : Lexing.between.next? c = some ([.mark c], .between) := by
    simp [Lexing.next?, Lexing.afterOpening?, noSpace, mark]
  exact Lexing.tokens?_cons opened rest

/-- A number or a name ends in front of a character that cannot stand in it. -/
theorem tokens?_word_apart {rest : Text} (apart : Apart rest) (front : Text) :
    (Lexing.word front).tokens? rest = (Lexing.between.tokens? rest).map (.word front :: ·) := by
  cases rest with
  | nil => rfl
  | cons c rest =>
      have mark : isWordChar c = false := apart c rfl
      rw [Lexing.tokens?, Lexing.tokens?, Lexing.next?, Lexing.next?, mark]
      cases Lexing.afterOpening? c with
      | none => rfl
      | some opened =>
          obtain ⟨tokens, next⟩ := opened
          simp [Option.map_map, Function.comp_def]

theorem tokens?_word_append {word rest : Text} (chars : ∀ c ∈ word, isWordChar c = true)
    (apart : Apart rest) (front : Text) :
    (Lexing.word front).tokens? (word ++ rest) =
      (Lexing.between.tokens? rest).map (.word (front ++ word) :: ·) := by
  induction word generalizing front with
  | nil => rw [List.append_nil, List.nil_append, tokens?_word_apart apart]
  | cons c word ih =>
      obtain ⟨first, others⟩ := List.forall_mem_cons.mp chars
      have step : (Lexing.word front).next? c = some ([], .word (front ++ [c])) := if_pos first
      rw [List.cons_append, Lexing.tokens?_cons_nil step, ih others, List.append_assoc]
      rfl

theorem next?_between_word {c : Char} (char : isWordChar c = true) :
    Lexing.between.next? c = some ([], .word [c]) := by
  have other (mark : Char) (noWord : isWordChar mark = false) : c ≠ mark := by
    rintro rfl
    rw [char] at noWord
    cases noWord
  have noSpace : isSpace c = false := by
    simp [isSpace, other ' ' rfl, other '\t' rfl, other '\n' rfl, other '\r' rfl]
  have noMark : isMark c = false := by
    simp [isMark, other '[' rfl, other ']' rfl, other '\x7b' rfl, other '\x7d' rfl, other ',' rfl,
      other ':' rfl]
  simp [Lexing.next?, Lexing.afterOpening?, noSpace, noMark, other '"' rfl, char]

/-- A number or a name is one token in front of what is apart from it. -/
theorem tokens?_word {word rest : Text} (some : word ≠ [])
    (chars : ∀ c ∈ word, isWordChar c = true) (apart : Apart rest) :
    Lexing.between.tokens? (word ++ rest) =
      (Lexing.between.tokens? rest).map (.word word :: ·) := by
  obtain ⟨c, word, rfl⟩ := List.exists_cons_of_ne_nil some
  obtain ⟨first, others⟩ := List.forall_mem_cons.mp chars
  rw [List.cons_append, Lexing.tokens?_cons_nil (next?_between_word first),
    tokens?_word_append others apart]
  rfl

/-! ## Values -/

namespace Parsing

/-- A token in front of a text is read before the text. -/
theorem read?_token {piece rest : Text} {token : Token}
    (first : Lexing.between.tokens? (piece ++ rest) =
      (Lexing.between.tokens? rest).map (token :: ·)) (parsing : Parsing) :
    parsing.read? (piece ++ rest) = (parsing.next? token).bind fun after => after.read? rest := by
  unfold read?
  rw [first]
  cases Lexing.between.tokens? rest with
  | none => cases parsing.next? token <;> rfl
  | some tokens => rfl

theorem read?_mark {c : Char} (mark : isMark c = true) (parsing : Parsing) (rest : Text) :
    parsing.read? (c :: rest) = (parsing.next? (.mark c)).bind fun after => after.read? rest := by
  have first : Lexing.between.tokens? ([c] ++ rest) = _ := tokens?_mark mark rest
  exact read?_token first parsing

end Parsing

/-- A text that is read as a value in front of anything apart from it, whatever is open around. -/
def Writes (written : Text) (value : Value) : Prop :=
  ∀ frames rest, Apart rest →
    Parsing.read? ⟨frames, .value⟩ (written ++ rest) = Parsing.read? ⟨frames, .behind value⟩ rest

theorem Writes.read? {written : Text} {value : Value} (writes : Writes written value) :
    read? written = some value := by
  have whole := writes [] [] apart_nil
  rw [List.append_nil] at whole
  rw [Json.read?, Parsing.start, whole]
  rfl

theorem writes_string (text : Text) : Writes (jsonString text) (.text text) := by
  intro frames rest _
  rw [Parsing.read?_token (tokens?_jsonString text rest)]
  rfl

theorem writes_scalar {word : Text} {value : Value} (some : word ≠ [])
    (chars : ∀ c ∈ word, isWordChar c = true) (means : scalar? word = .some value) :
    Writes word value := by
  intro frames rest apart
  have step : Parsing.next? ⟨frames, .value⟩ (.word word) = .some ⟨frames, .behind value⟩ := by
    simp [Parsing.next?, Parsing.nextValue?, means]
  rw [Parsing.read?_token (tokens?_word some chars apart), step]
  rfl

theorem writes_null : Writes "null" .null :=
  writes_scalar (by decide) (List.all_eq_true.mp rfl) rfl

theorem writes_boolean (flag : Bool) : Writes (jsonBool flag) (.boolean flag) := by
  cases flag with
  | true => exact writes_scalar (by decide) (List.all_eq_true.mp rfl) rfl
  | false => exact writes_scalar (by decide) (List.all_eq_true.mp rfl) rfl

/-! ### Numbers -/

theorem behindDigits?_of_digits {digits : Text} (some : digits ≠ [])
    (each : ∀ c ∈ digits, c.isDigit = true) : behindDigits? digits = .some [] := by
  have spans : digits.span Char.isDigit = (digits, []) := by
    rw [List.span_eq_takeWhile_dropWhile, List.takeWhile_eq_self_iff.mpr each,
      List.dropWhile_eq_nil_iff.mpr each]
  obtain ⟨c, rest, rfl⟩ := List.exists_cons_of_ne_nil some
  rw [behindDigits?, spans]

/-- No zero leads a written number, and nothing but digits stands in it. -/
theorem behindWhole?_ofNat (number : Nat) : behindWhole? (ofNat number) = some [] := by
  rcases Nat.eq_zero_or_pos number with rfl | positive
  · rfl
  · unfold behindWhole?
    split
    case h_1 rest written =>
      have head := head?_ofNat_ne positive
      rw [written] at head
      exact absurd rfl head
    case h_2 =>
      exact behindDigits?_of_digits (ofNat_ne_nil number) fun c => isDigit_of_mem_ofNat

theorem isNumeral_ofNat (number : Nat) : isNumeral (ofNat number) = true := by
  have unsigned : (ofNat number).head? ≠ some '-' := by
    intro first
    exact not_mem_ofNat rfl (List.mem_of_mem_head? first)
  simp [isNumeral, unsigned, behindWhole?_ofNat, behindFraction?, behindExponent?]

theorem writes_ofNat (number : Nat) : Writes (ofNat number) (.number (ofNat number)) := by
  refine writes_scalar (ofNat_ne_nil number) (fun c member => ?_) ?_
  · have digit := isDigit_of_mem_ofNat member
    simp [isWordChar, Char.isAlphanum, digit]
  · rw [scalar?, if_neg (ofNat_ne_of_mem 'u' (by decide) rfl number),
      if_neg (ofNat_ne_of_mem 'u' (by decide) rfl number),
      if_neg (ofNat_ne_of_mem 'a' (by decide) rfl number), isNumeral_ofNat]
    rfl

/-! ### Arrays and objects -/

section Containers

variable {α : Type} {before whole : List α → Parsing} {close : Char} {frames : List Frame}

/-- A part that is read behind some others, in front of a comma and in front of the closing mark.
The parts that are read lead to `before`, and to `whole` with the closing mark. -/
structure IsPart (before whole : List α → Parsing) (close : Char) (written : Text) (part : α) :
    Prop where
  comma : ∀ read rest,
    (before read).read? (written ++ ',' :: rest) = (before (read ++ [part])).read? rest
  last : ∀ read rest,
    (before read).read? (written ++ close :: rest) = (whole (read ++ [part])).read? rest

/-- Parts with commas between them are read one by one behind those that are read. -/
theorem read?_parts {written : List Text} {parts : List α}
    (each : List.Forall₂ (IsPart before whole close) written parts) (some : written ≠ [])
    (read : List α) (rest : Text) :
    (before read).read? (List.intercalate [','] written ++ close :: rest) =
      (whole (read ++ parts)).read? rest := by
  induction each generalizing read with
  | nil => exact absurd rfl some
  | @cons text part written parts first others ih =>
      cases others with
      | nil => rw [List.intercalate_singleton, first.last]
      | cons second others =>
          have next := ih (List.cons_ne_nil _ _) (read ++ [part])
          rw [List.append_assoc] at next
          rw [intercalate_mark_cons text (List.cons_ne_nil _ _), List.append_assoc, List.cons_append,
            first.comma]
          exact next

theorem Writes.isPart {written : Text} {value : Value} (writes : Writes written value)
    (frames : List Frame) :
    IsPart (fun read => ⟨.items read :: frames, .value⟩) (fun read => ⟨frames, .behind (.array read)⟩)
      ']' written value where
  comma read rest := by
    rw [writes _ _ (apart_cons rfl rest), Parsing.read?_mark rfl]
    rfl
  last read rest := by
    rw [writes _ _ (apart_cons rfl rest), Parsing.read?_mark rfl]
    rfl

theorem Writes.array {written : List Text} {items : List Value}
    (each : List.Forall₂ Writes written items) : Writes (jsonArray written) (.array items) := by
  intro frames rest _
  have opened : Parsing.read? ⟨frames, .value⟩ (jsonArray written ++ rest) =
      Parsing.read? ⟨.items [] :: frames, .value⟩ (List.intercalate [','] written ++ ']' :: rest) := by
    rw [jsonArray, List.append_assoc, List.append_assoc, List.singleton_append,
      Parsing.read?_mark rfl]
    rfl
  rw [opened]
  cases each with
  | nil =>
      rw [List.intercalate_nil, List.nil_append, Parsing.read?_mark rfl]
      rfl
  | cons first others =>
      have parts := (List.Forall₂.cons first others).imp fun _ _ writes => writes.isPart frames
      exact read?_parts parts (List.cons_ne_nil _ _) [] rest

def writeMember (part : Text × Text) : Text :=
  jsonString part.1 ++ [':'] ++ part.2

def WritesMember (part : Text × Text) (member : Text × Value) : Prop :=
  part.1 = member.1 ∧ Writes part.2 member.2

namespace WritesMember

variable {part : Text × Text} {member : Text × Value}

theorem read? (writes : WritesMember part member) (read : List (Text × Value)) {rest : Text}
    (apart : Apart rest) :
    Parsing.read? ⟨frames, .name read⟩ (writeMember part ++ rest) =
      Parsing.read? ⟨.member read member.1 :: frames, .behind member.2⟩ rest := by
  obtain ⟨name, value⟩ := writes
  rw [writeMember, name, List.append_assoc, List.append_assoc,
    Parsing.read?_token (tokens?_jsonString _ _)]
  have named : Parsing.next? ⟨frames, .name read⟩ (.text member.1) =
      some ⟨frames, .colon read member.1⟩ := by
    cases read <;> rfl
  rw [named, Option.bind_some, List.singleton_append, Parsing.read?_mark rfl]
  exact value _ _ apart

theorem isPart (writes : WritesMember part member) (frames : List Frame) :
    IsPart (fun read => ⟨frames, .name read⟩) (fun read => ⟨frames, .behind (.object read)⟩)
      '\x7d' (writeMember part) member where
  comma read rest := by
    rw [writes.read? _ (apart_cons rfl rest), Parsing.read?_mark rfl]
    rfl
  last read rest := by
    rw [writes.read? _ (apart_cons rfl rest), Parsing.read?_mark rfl]
    rfl

end WritesMember

theorem Writes.object {parts : List (Text × Text)} {members : List (Text × Value)}
    (each : List.Forall₂ WritesMember parts members) : Writes (jsonObject parts) (.object members) := by
  intro frames rest _
  have opened : Parsing.read? ⟨frames, .value⟩ (jsonObject parts ++ rest) =
      Parsing.read? ⟨frames, .name []⟩
        (List.intercalate [','] (parts.map writeMember) ++ '\x7d' :: rest) := by
    rw [jsonObject, List.append_assoc, List.append_assoc, List.singleton_append,
      Parsing.read?_mark rfl]
    rfl
  rw [opened]
  cases each with
  | nil =>
      rw [List.map_nil, List.intercalate_nil, List.nil_append, Parsing.read?_mark rfl]
      rfl
  | cons first others =>
      have parts := (List.Forall₂.cons first others).imp fun _ _ writes => writes.isPart frames
      exact read?_parts (List.forall₂_map_left_iff.mpr parts) (List.cons_ne_nil _ _) [] rest

end Containers

/-! ### Lines -/

theorem lineFeed_free_jsonArray {parts : List Text} (free : ∀ part ∈ parts, '\n' ∉ part) :
    '\n' ∉ jsonArray parts := by
  have items : '\n' ∉ List.intercalate [','] parts := not_mem_intercalate (by decide) free
  simp [jsonArray, items]

theorem lineFeed_free_jsonObject {parts : List (Text × Text)} (free : ∀ part ∈ parts, '\n' ∉ part.2) :
    '\n' ∉ jsonObject parts := by
  have members : '\n' ∉ List.intercalate [','] (parts.map writeMember) := by
    refine not_mem_intercalate (by decide) ?_
    rw [List.forall_mem_map]
    intro part member
    simp [writeMember, lineFeed_free_jsonString, free part member]
  have whole : jsonObject parts =
      ['\x7b'] ++ List.intercalate [','] (parts.map writeMember) ++ ['\x7d'] := rfl
  simp [whole, members]

end SerialCompletion.Json
