import SerialCompletion.Proofs.Text.Pieces
import SerialCompletion.Proofs.Toml.Strings
import SerialCompletion.Text.Quoted

/-!
# Quoted texts are read back

A quoted text is one word on one line: no tab and no line feed stands in it,
and a reader that undoes the escapes gives the text again.  A character is
written by itself, by a name or by its number, and each of these ways is read
back.  So it does not matter which characters are written by their numbers.
-/

namespace SerialCompletion.Text

/-! ## Hexadecimal numbers -/

def hexadecimal? (digits : Text) : Option Nat :=
  if digits.isEmpty then none else (digits.mapM Toml.hexValue?).map (digitsFrom 16 0)

theorem digitsFrom_concat (base value : Nat) (digits : List Nat) (digit : Nat) :
    digitsFrom base value (digits ++ [digit]) = base * digitsFrom base value digits + digit := by
  induction digits generalizing value with
  | nil => rfl
  | cons first digits ih => exact ih _

theorem hexadecimal_of_lt {number : Nat} (small : number < 16) :
    hexadecimal number = [Nat.digitChar number] :=
  Nat.toDigits_of_lt_base small

theorem hexadecimal_of_le {number : Nat} (large : 16 ≤ number) :
    hexadecimal number = hexadecimal (number / 16) ++ [Nat.digitChar (number % 16)] :=
  Nat.toDigits_of_base_le (by decide) large

/-- The values of the digits of a written number make up the number. -/
theorem exists_values_hexadecimal (number : Nat) :
    ∃ values, (hexadecimal number).mapM Toml.hexValue? = some values ∧
      digitsFrom 16 0 values = number := by
  induction number using Nat.strongRecOn with
  | ind number ih =>
      rcases Nat.lt_or_ge number 16 with small | large
      · refine ⟨[number], ?_, by simp [digitsFrom]⟩
        rw [hexadecimal_of_lt small, List.mapM_cons, Toml.hexValue?_lowerDigit small]
        rfl
      · obtain ⟨values, front, value⟩ := ih (number / 16) (by omega)
        have last : Toml.hexValue? (Nat.digitChar (number % 16)) = some (number % 16) :=
          Toml.hexValue?_lowerDigit (by omega)
        refine ⟨values ++ [number % 16], ?_, ?_⟩
        · rw [hexadecimal_of_le large, List.mapM_append, front, List.mapM_cons, last]
          rfl
        · rw [digitsFrom_concat, value]
          omega

@[simp] theorem hexadecimal?_hexadecimal (number : Nat) :
    hexadecimal? (hexadecimal number) = some number := by
  have filled : (hexadecimal number).isEmpty = false :=
    List.isEmpty_eq_false_iff.mpr Nat.toDigits_ne_nil
  obtain ⟨values, digits, value⟩ := exists_values_hexadecimal number
  rw [hexadecimal?, filled, digits, Option.map_some, value]
  rfl

theorem isAlphanum_of_mem_hexadecimal {number : Nat} {c : Char} (member : c ∈ hexadecimal number) :
    c.isAlphanum = true := by
  have digit : ∀ value < 16, (Nat.digitChar value).isAlphanum = true := by decide
  induction number using Nat.strongRecOn with
  | ind number ih =>
      rcases Nat.lt_or_ge number 16 with small | large
      · rw [hexadecimal_of_lt small, List.mem_singleton] at member
        exact member ▸ digit number small
      · rw [hexadecimal_of_le large, List.mem_append, List.mem_singleton] at member
        rcases member with front | rfl
        · exact ih (number / 16) (by omega) front
        · exact digit (number % 16) (by omega)

/-! ## The reader -/

inductive Unquoting where
  | plain
  | escape
  /-- Behind the backslash and the letter of a numbered escape. -/
  | brace
  | number (digits : Text)
  deriving DecidableEq, Repr

def namedChar? (c : Char) : Option Char :=
  if c = '0' then some '\x00'
  else if c = 't' then some '\t'
  else if c = 'r' then some '\r'
  else if c = 'n' then some '\n'
  else if c = '"' ∨ c = '\'' ∨ c = '\\' then some c
  else none

/-- The text in front of the closing quote, behind which nothing may stand. -/
def unquoteFrom : Unquoting → Text → Option Text
  | _, [] => none
  | .plain, c :: rest =>
      if c = '"' then if rest.isEmpty then some [] else none
      else if c = '\\' then unquoteFrom .escape rest
      else (unquoteFrom .plain rest).map (c :: ·)
  | .escape, c :: rest =>
      if c = 'u' then unquoteFrom .brace rest
      else
        match namedChar? c with
        | none => none
        | some meant => (unquoteFrom .plain rest).map (meant :: ·)
  | .brace, c :: rest => if c = '\x7b' then unquoteFrom (.number []) rest else none
  | .number digits, c :: rest =>
      if c = '\x7d' then
        match (hexadecimal? digits).bind Toml.charOf? with
        | none => none
        | some meant => (unquoteFrom .plain rest).map (meant :: ·)
      else unquoteFrom (.number (digits ++ [c])) rest

def unquoted? : Text → Option Text
  | '"' :: rest => unquoteFrom .plain rest
  | _ => none

/-! ## Characters of quoted texts -/

inductive QuotedForm (c : Char) : Text → Prop where
  | named {name : Char} (meant : namedChar? name = some c) : QuotedForm c ['\\', name]
  | numbered : QuotedForm c (numberedEscape c)
  | plain (noQuote : c ≠ '"') (noSlash : c ≠ '\\') (noTab : c ≠ '\t') (noLine : c ≠ '\n') :
      QuotedForm c [c]

theorem quotedChar_form (c : Char) : QuotedForm c (quotedChar c) := by
  unfold quotedChar
  split_ifs with zero tab carriageReturn lineFeed quote slash unprintable
  · subst zero; exact .named rfl
  · subst tab; exact .named rfl
  · subst carriageReturn; exact .named rfl
  · subst lineFeed; exact .named rfl
  · subst quote; exact .named rfl
  · subst slash; exact .named rfl
  · exact .numbered
  · exact .plain quote slash tab lineFeed

theorem unquoteFrom_digits {digits : Text} (inside : '\x7d' ∉ digits) (front rest : Text) :
    unquoteFrom (.number front) (digits ++ rest) = unquoteFrom (.number (front ++ digits)) rest := by
  induction digits generalizing front with
  | nil => rw [List.nil_append, List.append_nil]
  | cons c digits ih =>
      rw [List.mem_cons, not_or] at inside
      rw [List.cons_append, unquoteFrom, if_neg (Ne.symm inside.1), ih inside.2, List.append_assoc]
      rfl

namespace QuotedForm

variable {c : Char} {written : Text}

/-- A character is read back in whatever way it is written. -/
theorem unquoteFrom_append (form : QuotedForm c written) (rest : Text) :
    unquoteFrom .plain (written ++ rest) = (unquoteFrom .plain rest).map (c :: ·) := by
  cases form with
  | @named name meant =>
      have noNumber : name ≠ 'u' := by
        rintro rfl
        cases meant
      simp [unquoteFrom, noNumber, meant]
  | numbered =>
      have inside : '\x7d' ∉ hexadecimal c.toNat := fun member =>
        absurd (isAlphanum_of_mem_hexadecimal member) (by decide)
      have digits := unquoteFrom_digits inside [] ('\x7d' :: rest)
      simp [numberedEscape, unquoteFrom, digits, Toml.charOf?_toNat]
  | plain noQuote noSlash => simp [unquoteFrom, noQuote, noSlash]

theorem not_mem (form : QuotedForm c written) {mark : Char} (breaks : mark = '\t' ∨ mark = '\n') :
    mark ∉ written := by
  cases form with
  | @named name meant =>
      have noSlash : mark ≠ '\\' := by rcases breaks with rfl | rfl <;> decide
      have noName : namedChar? mark = none := by rcases breaks with rfl | rfl <;> rfl
      have other : mark ≠ name := by
        rintro rfl
        rw [meant] at noName
        cases noName
      simp [noSlash, other]
  | numbered =>
      have noSign : mark ∉ ['\\', 'u', '\x7b', '\x7d'] := by rcases breaks with rfl | rfl <;> decide
      have noLetter : mark.isAlphanum = false := by rcases breaks with rfl | rfl <;> rfl
      have outside : mark ∉ hexadecimal c.toNat := fun member => by
        rw [isAlphanum_of_mem_hexadecimal member] at noLetter
        cases noLetter
      simpa [numberedEscape, outside] using noSign
  | plain _ _ noTab noLine =>
      rw [List.mem_singleton]
      rcases breaks with rfl | rfl
      · exact noTab.symm
      · exact noLine.symm

end QuotedForm

/-! ## Quoted texts -/

/-- A quoted text is read back, whatever the text is. -/
@[simp] theorem unquoted?_quoted (text : Text) : unquoted? (quoted text) = some text := by
  have body : unquoteFrom .plain (text.flatMap quotedChar ++ ['"']) = some text := by
    induction text with
    | nil => rfl
    | cons c text ih =>
        rw [List.flatMap_cons, List.append_assoc, (quotedChar_form c).unquoteFrom_append, ih]
        rfl
  exact body

/-- A quoted text is one field on one line. -/
theorem not_mem_quoted {mark : Char} (breaks : mark = '\t' ∨ mark = '\n') (text : Text) :
    mark ∉ quoted text := by
  have noQuote : mark ≠ '"' := by rcases breaks with rfl | rfl <;> decide
  have body : mark ∉ text.flatMap quotedChar := by
    rw [List.mem_flatMap]
    rintro ⟨c, _, member⟩
    exact (quotedChar_form c).not_mem breaks member
  simp [quoted, noQuote, body]

end SerialCompletion.Text
