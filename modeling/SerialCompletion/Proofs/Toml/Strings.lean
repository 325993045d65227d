import Mathlib.Tactic.SplitIfs
import SerialCompletion.Toml.Strings

/-!
# Written strings are read back

A text is written in one of four forms, and each is read back whatever the
text holds.  Between single quotes a text stands as it is, which is why that
form is taken only for texts that need no escapes.  On several lines the
reader looks two characters ahead for the closing quotes, so what matters is
that three quotes in a row never stand inside, and that quotes at the end of
the text are told from the closing ones.
-/

namespace SerialCompletion.Toml

variable {lines : Bool} {quote c : Char} {text extra rest : Text}

@[simp] theorem Read.cons_ok (c : Char) (content rest : Text) :
    Read.cons c (.ok (content, rest)) = .ok (c :: content, rest) :=
  rfl

/-! ## Closing quotes -/

theorem close?_of_ne (other : c ≠ quote) (rest : Text) : close? lines quote c rest = none :=
  if_pos other

/-- On several lines a quote without two more behind it closes nothing. -/
theorem close?_lines_of_ne (other : rest.take 2 ≠ [quote, quote]) :
    close? true quote c rest = none := by
  simp [close?, other]

@[simp] theorem close?_line (quote : Char) (rest : Text) :
    close? false quote quote rest = some ([], rest) := by
  simp [close?]

/-- Up to two quotes in front of the closing ones belong to the content. -/
theorem close?_lines (quotes : ∀ c ∈ extra, c = quote) (few : extra.length ≤ 2)
    (ends : rest.head? ≠ some quote) :
    close? true quote quote ([quote, quote] ++ (extra ++ rest)) = some (extra, rest) := by
  have run : ((extra ++ rest).take 2).takeWhile (· == quote) = extra := by
    rw [List.take_append, List.take_of_length_le few, List.takeWhile_append_of_pos (by simpa using quotes)]
    have stop : (rest.take (2 - extra.length)).takeWhile (· == quote) = [] := by
      cases rest with
      | nil => simp
      | cons d rest =>
          have other : d ≠ quote := fun same => ends (congrArg some same)
          cases 2 - extra.length <;> simp [other]
    rw [stop, List.append_nil]
  simp [close?, closing, run]

/-! ## Characters of basic strings -/

inductive CharForm (c : Char) : Text → Prop where
  | named {name : Char} (meant : escape? name = some (.char c)) : CharForm c ['\\', name]
  /-- By its number, in four digits of which two are zeros. -/
  | numbered {high low : Nat} (highSmall : high < 16) (lowSmall : low < 16)
      (number : 16 * high + low = c.toNat) :
      CharForm c
        ['\\', 'u', '0', '0', (Nat.digitChar high).toUpper, (Nat.digitChar low).toUpper]
  | plain (noSlash : c ≠ '\\') (noControl : isControl c = false) (noLine : c ≠ '\n') :
      CharForm c [c]

theorem toNat_lt_of_control (control : c < ' ' ∨ c = '\x7f') : c.toNat < 256 := by
  rcases control with small | rfl
  · have bound : c.toNat < 32 := small
    omega
  · decide

theorem basicChar_form (c : Char) : CharForm c (basicChar c) := by
  unfold basicChar
  split_ifs with backspace tab lineFeed formFeed carriageReturn slash control
  · subst backspace; exact .named rfl
  · subst tab; exact .named rfl
  · subst lineFeed; exact .named rfl
  · subst formFeed; exact .named rfl
  · subst carriageReturn; exact .named rfl
  · subst slash; exact .named rfl
  · have bound := toNat_lt_of_control control
    exact .numbered (by omega) (by omega) (by omega)
  · refine .plain slash ?_ lineFeed
    obtain ⟨noControl, noDelete⟩ := not_or.mp control
    simp [isControl, noControl, noDelete]

theorem hexValue?_digitChar {digit : Nat} (small : digit < 16) :
    hexValue? (Nat.digitChar digit).toUpper = some digit := by
  have all : ∀ digit < 16, hexValue? (Nat.digitChar digit).toUpper = some digit := by decide
  exact all digit small

theorem hexValue?_lowerDigit {digit : Nat} (small : digit < 16) :
    hexValue? (Nat.digitChar digit) = some digit := by
  have all : ∀ digit < 16, hexValue? (Nat.digitChar digit) = some digit := by decide
  exact all digit small

theorem charOf?_toNat (c : Char) : charOf? c.toNat = some c := by
  have valid : c.toNat < 0xd800 ∨ (0xdfff < c.toNat ∧ c.toNat < 0x110000) := c.valid
  rw [charOf?, if_pos valid, Char.ofNat_toNat]

/-- A written character of a basic string is read back. -/
theorem CharForm.basicBody {written : Text} (form : CharForm c written) (noQuote : c ≠ '"')
    (rest : Text) :
    basicBody lines .plain (written ++ rest) = Read.cons c (basicBody lines .plain rest) := by
  have noClose (rest : Text) : close? lines '"' '\\' rest = none := close?_of_ne (by decide) rest
  cases form with
  | named meant => simp [Toml.basicBody, noClose, meant]
  | @numbered high low highSmall lowSmall number =>
      have escape : escape? 'u' = some (.digits 4) := rfl
      have zero : hexValue? '0' = some 0 := rfl
      simp [Toml.basicBody, noClose, escape, zero, hexValue?_digitChar highSmall,
        hexValue?_digitChar lowSmall, number, charOf?_toNat]
  | plain noSlash noControl =>
      simp [Toml.basicBody, close?_of_ne noQuote, noSlash, isAllowed, noControl]

theorem CharForm.head {written : Text} (form : CharForm c written) (noQuote : c ≠ '"') :
    ∃ d tail, written = d :: tail ∧ d ≠ '"' ∧ d ≠ '\n' ∧ d ≠ '\r' := by
  cases form with
  | named | numbered => exact ⟨_, _, rfl, by decide, by decide, by decide⟩
  | plain _ noControl noLine =>
      refine ⟨c, [], rfl, noQuote, noLine, ?_⟩
      rintro rfl
      cases noControl

/-! ## Basic strings -/

section Basic

/-- A basic string on one line is read back, whatever its text is. -/
theorem basicBody_line (text rest : Text) :
    basicBody false .plain (basicContent false 0 text ++ '"' :: rest) = .ok (text, rest) := by
  induction text with
  | nil => simp [basicContent, basicBody]
  | cons c text ih =>
      by_cases quote : c = '"'
      · subst quote
        have escape : escape? '"' = some (.char '"') := rfl
        simp [basicContent, basicBody, close?, escape, ih]
      · have form := basicChar_form c
        simp [basicContent, quote, form.basicBody quote, ih]

/-- A character of a basic string on several lines that is no quote, with what follows it. -/
theorem basicContent_lines_cons (noQuote : c ≠ '"') (quotes : Nat) (text : Text) :
    ∃ written, basicContent true quotes (c :: text) = written ++ basicContent true 0 text ∧
      (∃ d tail, written = d :: tail ∧ d ≠ '"') ∧
      ∀ rest, basicBody true .plain (written ++ rest) = Read.cons c (basicBody true .plain rest) := by
  by_cases line : c = '\n'
  · subst line
    refine ⟨['\n'], by simp [basicContent], ⟨'\n', [], rfl, by decide⟩, fun rest => ?_⟩
    simp [basicBody, close?, isAllowed]
  · have form := basicChar_form c
    obtain ⟨d, tail, written, other, _⟩ := form.head noQuote
    exact ⟨basicChar c, by simp [basicContent, noQuote, line], ⟨d, tail, written, other⟩,
      form.basicBody noQuote⟩

/-- The content of a basic string on several lines with its closing quotes and what follows. -/
def closedLines (quotes : Nat) (text rest : Text) : Text :=
  basicContent true quotes text ++ (['"', '"', '"'] ++ rest)

theorem closedLines_quote {quotes : Nat} (few : quotes < 2) (text rest : Text) :
    closedLines quotes ('"' :: text) rest = '"' :: closedLines (quotes + 1) text rest := by
  simp [closedLines, basicContent, few]

theorem closedLines_thirdQuote {quotes : Nat} (many : ¬ quotes < 2) (text rest : Text) :
    closedLines quotes ('"' :: text) rest = '\\' :: '"' :: closedLines 0 text rest := by
  simp [closedLines, basicContent, many]

/-- Content starts with a quote only where its text does, and not behind two quotes. -/
theorem head_closedLines {quotes : Nat} (apart : c = '"' → ¬ quotes < 2) (text rest : Text) :
    ∃ d tail, closedLines quotes (c :: text) rest = d :: tail ∧ d ≠ '"' := by
  by_cases quote : c = '"'
  · subst quote
    exact ⟨_, _, closedLines_thirdQuote (apart rfl) text rest, by decide⟩
  · obtain ⟨written, content, ⟨d, tail, head, other⟩, _⟩ :=
      basicContent_lines_cons quote quotes text
    exact ⟨d, tail ++ closedLines 0 text rest, by simp [closedLines, content, head], other⟩

/-- Behind a quote two more stand only if the text ends with at most one of them. -/
theorem take_closedLines {quotes : Nat} (few : quotes < 2)
    (opens : (closedLines (quotes + 1) text rest).take 2 = ['"', '"']) :
    text = [] ∨ (quotes = 0 ∧ text = ['"']) := by
  cases text with
  | nil => exact .inl rfl
  | cons c text =>
      by_cases apart : c = '"' → ¬ quotes + 1 < 2
      · obtain ⟨d, tail, head, other⟩ := head_closedLines apart text rest
        rw [head] at opens
        exact absurd (List.cons.inj opens).1 other
      · obtain ⟨rfl, one⟩ := Classical.not_imp.mp apart
        have first : quotes = 0 := by omega
        subst first
        rw [closedLines_quote (by decide)] at opens
        cases text with
        | nil => exact .inr ⟨rfl, rfl⟩
        | cons d text =>
            obtain ⟨e, tail, head, other⟩ := @head_closedLines d 2 (fun _ => by decide) text rest
            rw [head] at opens
            simp [other] at opens

theorem basicBody_closes (closes : close? lines '"' c text = some (extra, rest)) :
    basicBody lines .plain (c :: text) = .ok (extra, rest) := by
  simp [basicBody, closes]

/-- A basic string on several lines is read back, whatever its text is. -/
theorem basicBody_lines (ends : rest.head? ≠ some '"') (text : Text) (quotes : Nat) :
    basicBody true .plain (closedLines quotes text rest) = .ok (text, rest) := by
  induction text generalizing quotes with
  | nil => exact basicBody_closes (@close?_lines '"' [] rest (by simp) (by simp) ends)
  | cons c text ih =>
      by_cases quote : c = '"'
      · subst quote
        by_cases few : quotes < 2
        · rw [closedLines_quote few]
          by_cases opens : (closedLines (quotes + 1) text rest).take 2 = ['"', '"']
          · rcases take_closedLines few opens with rfl | ⟨rfl, rfl⟩
            · exact basicBody_closes (@close?_lines '"' ['"'] rest (by simp) (by simp) ends)
            · rw [closedLines_quote (by decide)]
              exact basicBody_closes (@close?_lines '"' ['"', '"'] rest (by simp) (by simp) ends)
          · simp [basicBody, close?_lines_of_ne opens, isAllowed, isControl, ih]
        · have escape : escape? '"' = some (.char '"') := rfl
          rw [closedLines_thirdQuote few]
          simp [basicBody, close?, escape, ih]
      · obtain ⟨written, content, _, read⟩ := basicContent_lines_cons quote quotes text
        have parts : closedLines quotes (c :: text) rest = written ++ closedLines 0 text rest := by
          simp [closedLines, content]
        rw [parts, read, ih, Read.cons_ok]

end Basic

/-! ## Literal strings -/

section Literal

theorem longestRun_mono {mark : Char} {shorter longer : Nat} (le : shorter ≤ longer) (text : Text) :
    longestRun mark shorter text ≤ longestRun mark longer text := by
  induction text generalizing shorter longer with
  | nil => exact le
  | cons c text ih =>
      simp only [longestRun]
      split
      · exact ih (Nat.succ_le_succ le)
      · omega

theorem le_longestRun (mark : Char) (run : Nat) (text : Text) : run ≤ longestRun mark run text := by
  induction text generalizing run with
  | nil => exact Nat.le_refl _
  | cons c text ih =>
      simp only [longestRun]
      split
      · exact Nat.le_trans (Nat.le_succ run) (ih (run + 1))
      · exact Nat.le_max_left _ _

theorem longestRun_tail (mark c : Char) (text : Text) :
    longestRun mark 0 text ≤ longestRun mark 0 (c :: text) := by
  simp only [longestRun]
  split
  · exact longestRun_mono (Nat.zero_le 1) text
  · exact Nat.le_max_right _ _

/-- What needs no escape may stand in a literal string, line feeds only on several lines. -/
theorem isAllowed_of_unescaped (unescaped : needsEscape c = false) (line : c = '\n' → lines = true)
    (rest : Text) : isAllowed lines c rest = true := by
  by_cases feed : c = '\n'
  · subst feed
    simp [isAllowed, line rfl]
  · have other : (c != '\n') = true := bne_iff_ne.mpr feed
    have same : isControl c = needsEscape c := by simp [isControl, needsEscape, other]
    rw [isAllowed, same, unescaped]
    rfl

theorem literalBody_cons (noClose : close? lines '\'' c text = none)
    (allowed : isAllowed lines c text = true) :
    literalBody lines (c :: text) = Read.cons c (literalBody lines text) := by
  simp [literalBody, noClose, allowed]

theorem literalBody_closes (closes : close? lines '\'' c text = some (extra, rest)) :
    literalBody lines (c :: text) = .ok (extra, rest) := by
  simp [literalBody, closes]

/-- A literal string on one line is read back if it could stand there. -/
theorem literalBody_line (unescaped : ∀ c ∈ text, needsEscape c = false) (oneLine : '\n' ∉ text)
    (noQuote : '\'' ∉ text) (rest : Text) :
    literalBody false (text ++ '\'' :: rest) = .ok (text, rest) := by
  induction text with
  | nil => exact literalBody_closes (close?_line '\'' rest)
  | cons c text ih =>
      obtain ⟨first, others⟩ := List.forall_mem_cons.mp unescaped
      obtain ⟨noLine, oneLine⟩ := not_or.mp (mt List.mem_cons.mpr oneLine)
      obtain ⟨other, noQuote⟩ := not_or.mp (mt List.mem_cons.mpr noQuote)
      rw [List.cons_append, literalBody_cons (close?_of_ne (Ne.symm other) _)
        (isAllowed_of_unescaped first (fun same => absurd same.symm noLine) _), ih others oneLine noQuote,
        Read.cons_ok]

/-- A literal string on several lines is read back if no three quotes stand in a row. -/
theorem literalBody_lines (ends : rest.head? ≠ some '\'') (unescaped : ∀ c ∈ text, needsEscape c = false)
    (few : longestRun '\'' 0 text ≤ 2) :
    literalBody true (text ++ (['\'', '\'', '\''] ++ rest)) = .ok (text, rest) := by
  induction text with
  | nil => exact literalBody_closes (@close?_lines '\'' [] rest (by simp) (by simp) ends)
  | cons c text ih =>
      obtain ⟨first, others⟩ := List.forall_mem_cons.mp unescaped
      have tail := ih others (Nat.le_trans (longestRun_tail '\'' c text) few)
      have allowed := fun rest => @isAllowed_of_unescaped true c first (fun _ => rfl) rest
      rw [List.cons_append]
      by_cases quote : c = '\''
      · subst quote
        by_cases opens : (text ++ (['\'', '\'', '\''] ++ rest)).take 2 = ['\'', '\'']
        · match text, opens, few with
          | [], _, _ =>
              exact literalBody_closes (@close?_lines '\'' ['\''] rest (by simp) (by simp) ends)
          | [d], opens, _ =>
              obtain ⟨rfl, _⟩ := List.cons.inj opens
              exact literalBody_closes (@close?_lines '\'' ['\'', '\''] rest (by simp) (by simp) ends)
          | d :: e :: text, opens, few =>
              obtain ⟨rfl, second⟩ := List.cons.inj opens
              obtain ⟨rfl, _⟩ := List.cons.inj second
              exact absurd (Nat.le_trans (le_longestRun '\'' 3 text) few) (by decide)
        · rw [literalBody_cons (close?_lines_of_ne opens) (allowed _), tail, Read.cons_ok]
      · rw [literalBody_cons (close?_of_ne quote _) (allowed _), tail, Read.cons_ok]

end Literal

/-! ## All forms -/

section Forms

/-- What a text satisfies for the form in which it is written. -/
def StringForm.Suits (text : Text) : StringForm → Prop
  | .basic | .basicLines => True
  | .literal => (∀ c ∈ text, needsEscape c = false) ∧ '\n' ∉ text ∧ longestRun '\'' 0 text = 0
  | .literalLines => (∀ c ∈ text, needsEscape c = false) ∧ longestRun '\'' 0 text ≤ 2

theorem not_mem_of_longestRun {mark : Char} (none : longestRun mark 0 text = 0) : mark ∉ text := by
  induction text with
  | nil => exact List.not_mem_nil
  | cons c text ih =>
      simp only [longestRun] at none
      split at none
      case isTrue =>
        have one := le_longestRun mark (0 + 1) text
        omega
      case isFalse other =>
        have rest : longestRun mark 0 text = 0 := by omega
        rintro (_ | ⟨_, member⟩)
        · exact other rfl
        · exact ih rest member

theorem StringForm.ofText_suits (text : Text) : (StringForm.ofText text).Suits text := by
  have unescaped (none : (!text.any needsEscape) = true) : ∀ c ∈ text, needsEscape c = false := by
    intro c member
    rw [Bool.not_eq_true'] at none
    exact Bool.eq_false_iff.mpr (List.any_eq_false.mp none c member)
  dsimp only [StringForm.ofText]
  split_ifs with basic literal basicLines literalLines lineFeeds
  · trivial
  · simp only [Bool.and_eq_true, beq_iff_eq] at literal
    obtain ⟨⟨noControl, oneLine⟩, noQuote⟩ := literal
    exact ⟨unescaped noControl, by simpa using oneLine, noQuote⟩
  · trivial
  · simp only [Bool.and_eq_true, decide_eq_true_eq] at literalLines
    exact ⟨unescaped literalLines.1, literalLines.2⟩
  · trivial
  · trivial

section Opening

/-- One quote opens a string on one line, unless two more follow it. -/
theorem quotedString_basic (alone : text.take 2 ≠ ['"', '"']) :
    quotedString ('"' :: text) = basicBody false .plain text :=
  quotedString.eq_2 text fun _ same => alone (same ▸ rfl)

theorem quotedString_literal (alone : text.take 2 ≠ ['\'', '\'']) :
    quotedString ('\'' :: text) = literalBody false text :=
  quotedString.eq_4 text fun _ same => alone (same ▸ rfl)

/-- The line end behind the opening quotes is dropped, and nothing else is. -/
theorem dropFirstLineEnd_opening {body : Text}
    (starts : '\n' ∉ text → ∀ c ∈ body.head?, c ≠ '\n' ∧ c ≠ '\r') :
    dropFirstLineEnd ((if text.contains '\n' then ['\n'] else []) ++ body) = body := by
  split
  case isTrue => rfl
  case isFalse oneLine =>
    have starts := starts fun member => oneLine (List.contains_iff_mem.mpr member)
    simp only [List.nil_append]
    unfold dropFirstLineEnd
    split
    · exact absurd rfl (starts _ rfl).1
    · exact absurd rfl (starts _ rfl).2
    · rfl

theorem take_two_ne (ends : rest.head? ≠ some quote) : (quote :: rest).take 2 ≠ [quote, quote] := by
  intro same
  cases rest with
  | nil => cases same
  | cons d rest => exact ends (congrArg some (List.cons.inj (List.cons.inj same).2).1)

/-- The content of a basic string on one line holds no bare quote in front. -/
theorem take_basicContent (ends : rest.head? ≠ some '"') (text : Text) :
    (basicContent false 0 text ++ '"' :: rest).take 2 ≠ ['"', '"'] := by
  cases text with
  | nil => exact take_two_ne ends
  | cons c text =>
      by_cases quote : c = '"'
      · simp [basicContent, quote]
      · obtain ⟨d, tail, written, other, _⟩ := (basicChar_form c).head quote
        simp [basicContent, quote, written, other]

theorem take_literal (ends : rest.head? ≠ some '\'') (noQuote : '\'' ∉ text) :
    (text ++ '\'' :: rest).take 2 ≠ ['\'', '\''] := by
  cases text with
  | nil => exact take_two_ne ends
  | cons c text =>
      have other : c ≠ '\'' := fun same => noQuote (same ▸ List.mem_cons_self)
      simp [other]

/-- Content without a line feed starts with no line end. -/
theorem head_closedLines_ne (oneLine : '\n' ∉ text) :
    ∀ d ∈ (closedLines 0 text rest).head?, d ≠ '\n' ∧ d ≠ '\r' := by
  cases text with
  | nil => simp [closedLines, basicContent]
  | cons c text =>
      by_cases quote : c = '"'
      · simp [closedLines, basicContent, quote]
      · have noFeed : c ≠ '\n' := fun same => oneLine (same ▸ List.mem_cons_self)
        obtain ⟨d, tail, written, _, feed, carriageReturn⟩ := (basicChar_form c).head quote
        simp [closedLines, basicContent, quote, noFeed, written, feed, carriageReturn]

theorem head_literal_ne (unescaped : ∀ c ∈ text, needsEscape c = false) (oneLine : '\n' ∉ text) :
    ∀ d ∈ (text ++ (['\'', '\'', '\''] ++ rest)).head?, d ≠ '\n' ∧ d ≠ '\r' := by
  cases text with
  | nil => simp
  | cons c text =>
      have noFeed : c ≠ '\n' := fun same => oneLine (same ▸ List.mem_cons_self)
      have noReturn : c ≠ '\r' := by
        rintro rfl
        exact absurd (unescaped '\r' List.mem_cons_self) (by decide)
      simp [noFeed, noReturn]

end Opening

theorem quotedString_writeString (text : Text) (noDouble : rest.head? ≠ some '"')
    (noSingle : rest.head? ≠ some '\'') :
    quotedString (writeString text ++ rest) = .ok (text, rest) := by
  have suits := StringForm.ofText_suits text
  unfold writeString
  generalize StringForm.ofText text = form at suits
  cases form with
  | basic =>
      have written := basicBody_line text rest
      rw [← quotedString_basic (take_basicContent noDouble text)] at written
      simpa [StringForm.quotes, StringForm.onLines, StringForm.content] using written
  | literal =>
      obtain ⟨unescaped, oneLine, noQuote⟩ := suits
      have free := not_mem_of_longestRun noQuote
      have written := literalBody_line unescaped oneLine free rest
      rw [← quotedString_literal (take_literal noSingle free)] at written
      simpa [StringForm.quotes, StringForm.onLines, StringForm.content] using written
  | basicLines =>
      have written := basicBody_lines noDouble text 0
      rw [← dropFirstLineEnd_opening head_closedLines_ne] at written
      simpa [StringForm.quotes, StringForm.onLines, StringForm.content, closedLines, quotedString]
        using written
  | literalLines =>
      obtain ⟨unescaped, few⟩ := suits
      have written := literalBody_lines noSingle unescaped few
      rw [← dropFirstLineEnd_opening (head_literal_ne unescaped)] at written
      simpa [StringForm.quotes, StringForm.onLines, StringForm.content, quotedString] using written

end Forms

end SerialCompletion.Toml
