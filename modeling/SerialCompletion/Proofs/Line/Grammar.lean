import SerialCompletion.Proofs.Line.Spacing

/-!
# The quoting grammar of words

A word is a sequence of items: plain characters, escapes, lone dollars, quoted
spans and expansions, where spans and expansions hold items of their own.  The
splitter keeps a stack instead of a grammar.  It absorbs the items of a region
in the mode of that region and stands in the same mode behind them, so a word
of the grammar is read as one word and ends at every delimiter.
-/

namespace SerialCompletion.Line

/-- The parts of a word that have rules of their own. -/
inductive Region where
  | word
  | singleQuotes
  | doubleQuotes
  | backticks
  | parens
  | braces
  deriving DecidableEq, Repr

namespace Region

def opening : Region → Text
  | .word => []
  | .singleQuotes => ['\'']
  | .doubleQuotes => ['"']
  | .backticks => ['\x60']
  | .parens => ['$', '(']
  | .braces => ['$', '{']

def closing : Region → Text
  | .word => []
  | .singleQuotes => ['\'']
  | .doubleQuotes => ['"']
  | .backticks => ['\x60']
  | .parens => [')']
  | .braces => ['}']

def holds : Region → Region → Bool
  | _, .word => false
  | .singleQuotes, _ | .backticks, _ => false
  | .doubleQuotes, .singleQuotes | .doubleQuotes, .doubleQuotes => false
  | .doubleQuotes, _ | .word, _ | .parens, _ | .braces, _ => true

def special : Region → List Char
  | .word => ['\'', '"', '\x60', '\\', '$']
  | .singleQuotes => ['\'']
  | .doubleQuotes => ['"', '\x60', '\\', '$']
  | .backticks => ['\x60', '\\']
  | .parens => ['\'', '"', '\x60', '\\', '$', ')']
  | .braces => ['\'', '"', '\x60', '\\', '$', '}']

/-- A character that stands for itself; in a word it neither delimits nor separates. -/
structure Plain (classes : Classes) (region : Region) (c : Char) : Prop where
  not_special : c ∉ region.special
  ordinary : region = .word → classes.isDelimiter c = false ∧ classes.isSeparator c = false

def mode : Region → Mode
  | .word => .word
  | .singleQuotes => .singleQuote
  | .doubleQuotes => .doubleQuote
  | .backticks => .backtick
  | .parens => .parenExpansion
  | .braces => .braceExpansion

end Region

/-- The sequences of items of a region. -/
inductive Items (classes : Classes) : Region → Text → Prop where
  | nil (region : Region) : Items classes region []
  | plain {region : Region} {c : Char} {rest : Text} (plain : region.Plain classes c)
      (items : Items classes region rest) : Items classes region (c :: rest)
  | escape {region : Region} {rest : Text} (c : Char) (some : region ≠ .singleQuotes)
      (items : Items classes region rest) : Items classes region ('\\' :: c :: rest)
  | dollar {region : Region} {rest : Text} (quotes : region ≠ .singleQuotes)
      (ticks : region ≠ .backticks) (alone : ∀ c ∈ rest.head?, c ≠ '(' ∧ c ≠ '{')
      (items : Items classes region rest) : Items classes region ('$' :: rest)
  | span {region inner : Region} {body rest : Text} (holds : region.holds inner = true)
      (inside : Items classes inner body) (items : Items classes region rest) :
      Items classes region (inner.opening ++ body ++ inner.closing ++ rest)

/-- A word of the quoting grammar. -/
structure IsWord (classes : Classes) (word : Text) : Prop where
  ne_nil : word ≠ []
  items : Items classes .word word

/-- Classes that leave the characters alone that do not stand for themselves in a word. -/
def Classes.SparesSpecial (classes : Classes) : Prop :=
  ∀ c ∈ Region.word.special, classes.isDelimiter c = false ∧ classes.isSeparator c = false

/-- Classes that leave the opening brackets alone as well. -/
def Classes.SparesQuoting (classes : Classes) : Prop :=
  ∀ c ∈ Region.word.special ++ ['(', '{'],
    classes.isDelimiter c = false ∧ classes.isSeparator c = false

instance (classes : Classes) : Decidable classes.SparesQuoting :=
  List.decidableBAll _ _

theorem Classes.SparesQuoting.special {classes : Classes} (spares : classes.SparesQuoting) :
    classes.SparesSpecial := by
  intro c special
  exact spares c (List.mem_append_left _ special)

/-! ## Grammar words are read as one word -/

section Reading

open Scan

variable {classes : Classes} {region inner : Region} {enclosing : List Mode} {pending : Pending}
  {c : Char}

theorem Region.Plain.take (plain : region.Plain classes c) (enclosing : List Mode) :
    Scan.take ⟨region.mode, enclosing, .nothing⟩ c = ⟨region.mode, enclosing, .nothing⟩ := by
  have different := plain.not_special
  have noEscape : ¬ (c = '\\' ∧ region.mode.escapes = true) := by
    rintro ⟨rfl, escapes⟩
    cases region <;> simp [Region.special, Region.mode, Mode.escapes] at different escapes
  have noDollar : ¬ (c = '$' ∧ region.mode.expands = true) := by
    rintro ⟨rfl, expands⟩
    cases region <;> simp [Region.special, Region.mode, Mode.expands] at different expands
  have noCloser : region.mode.closer? ≠ some c := by
    intro closes
    cases region <;> cases closes <;> simp [Region.special] at different
  have noOpener : region.mode.opensQuote c = false := by
    cases region <;> simp_all [Region.special, Region.mode, Mode.opensQuote, isQuoteOpener]
  simp [Scan.take, noEscape, noDollar, noCloser, noOpener]

/-- A character inside a word that neither delimits nor separates where the word is bare. -/
theorem move_region (placed : region = .word → enclosing = []) (idle : pending.Idle c)
    (ordinary : region = .word → classes.isDelimiter c = false ∧ classes.isSeparator c = false) :
    Scan.move classes ⟨region.mode, enclosing, pending⟩ c =
      ⟨false, true, Scan.take ⟨region.mode, enclosing, .nothing⟩ c⟩ := by
  cases region with
  | word =>
      obtain ⟨noDelimiter, noSeparator⟩ := ordinary rfl
      rw [placed rfl]
      exact move_ordinary idle noDelimiter noSeparator
  | singleQuotes | doubleQuotes | backticks | parens | braces => exact move_nested _ rfl idle

/-- What may be open between two items: nothing, or a dollar in front of no bracket. -/
def Pending.Between (pending : Pending) (text : Text) : Prop :=
  (pending = .nothing ∨ pending = .dollar) ∧ ∀ c ∈ text.head?, pending.Idle c

theorem Pending.Between.nothing (text : Text) : Pending.Between .nothing text :=
  ⟨.inl rfl, fun _ _ => .nothing⟩

theorem ofBracket?_eq_none (noParen : c ≠ '(') (noBrace : c ≠ '{') : Mode.ofBracket? c = none := by
  simp [Mode.ofBracket?, noParen, noBrace]

theorem take_dollar (quotes : region ≠ .singleQuotes) (ticks : region ≠ .backticks)
    (enclosing : List Mode) :
    Scan.take ⟨region.mode, enclosing, .nothing⟩ '$' = ⟨region.mode, enclosing, .dollar⟩ := by
  cases region with
  | singleQuotes => exact absurd rfl quotes
  | backticks => exact absurd rfl ticks
  | word | doubleQuotes | parens | braces => rfl

theorem take_escape (some : region ≠ .singleQuotes) (enclosing : List Mode) :
    Scan.take ⟨region.mode, enclosing, .nothing⟩ '\\' = ⟨region.mode, enclosing, .escape⟩ := by
  cases region with
  | singleQuotes => exact absurd rfl some
  | word | doubleQuotes | backticks | parens | braces => rfl

theorem take_opening (holds : region.holds inner = true) (quote : inner.opening = [c])
    (enclosing : List Mode) :
    Scan.take ⟨region.mode, enclosing, .nothing⟩ c = ⟨inner.mode, region.mode :: enclosing, .nothing⟩ := by
  cases region <;> cases inner <;> cases holds <;> cases quote <;> rfl

theorem Region.ne_of_holds (holds : region.holds inner = true) :
    region ≠ .singleQuotes ∧ region ≠ .backticks := by
  constructor <;> rintro rfl <;> cases inner <;> cases holds

theorem Region.ne_word_of_holds (holds : region.holds inner = true) : inner ≠ .word := by
  rintro rfl
  cases region <;> cases holds

theorem absorbs_bracket (spares : classes.SparesSpecial)
    (placed : region = .word → enclosing = []) (holds : region.holds inner = true)
    (idle : pending.Idle '$') (bracket : Mode.ofBracket? c = some inner.mode) :
    Absorbs classes ⟨region.mode, enclosing, pending⟩ ['$', c]
      ⟨inner.mode, region.mode :: enclosing, .nothing⟩ := by
  obtain ⟨quotes, ticks⟩ := Region.ne_of_holds holds
  have made := move_region placed idle fun _ => spares _ (by decide)
  rw [take_dollar quotes ticks] at made
  exact .cons made (.single (move_expands _ _ bracket))

theorem absorbs_plain (placed : region = .word → enclosing = []) (idle : pending.Idle c)
    (plain : region.Plain classes c) :
    Absorbs classes ⟨region.mode, enclosing, pending⟩ [c] ⟨region.mode, enclosing, .nothing⟩ := by
  have made := move_region placed idle plain.ordinary
  rw [plain.take] at made
  exact .single made

theorem absorbs_plain_text (placed : region = .word → enclosing = []) {text : Text}
    (plain : ∀ c ∈ text, region.Plain classes c) :
    Absorbs classes ⟨region.mode, enclosing, .nothing⟩ text ⟨region.mode, enclosing, .nothing⟩ := by
  have each := Absorbs.flatMap fun c member => absorbs_plain placed .nothing (plain c member)
  rw [List.flatMap_singleton'] at each
  exact each

theorem absorbs_escape (spares : classes.SparesSpecial) (placed : region = .word → enclosing = [])
    (some : region ≠ .singleQuotes) (idle : pending.Idle '\\') (c : Char) :
    Absorbs classes ⟨region.mode, enclosing, pending⟩ ['\\', c] ⟨region.mode, enclosing, .nothing⟩ := by
  have made := move_region placed idle fun _ => spares _ (by decide)
  rw [take_escape some] at made
  exact .cons made (.single rfl)

theorem absorbs_opening (spares : classes.SparesSpecial) (placed : region = .word → enclosing = [])
    (holds : region.holds inner = true) (between : pending.Between inner.opening) :
    Absorbs classes ⟨region.mode, enclosing, pending⟩ inner.opening
      ⟨inner.mode, region.mode :: enclosing, .nothing⟩ := by
  have quoted (c : Char) (quote : inner.opening = [c]) (reserved : c ∈ Region.word.special) :
      Scan.move classes ⟨region.mode, enclosing, pending⟩ c =
        ⟨false, true, ⟨inner.mode, region.mode :: enclosing, .nothing⟩⟩ := by
    have idle := between.2 c (by simp [quote])
    rw [move_region placed idle fun _ => spares c reserved,
      take_opening holds quote]
  cases inner with
  | word => exact absurd rfl (Region.ne_word_of_holds holds)
  | singleQuotes | doubleQuotes | backticks => exact .single (quoted _ rfl (by decide))
  | parens | braces => exact absorbs_bracket spares placed holds (between.2 '$' rfl) rfl

theorem absorbs_closing (some : inner ≠ .word) (outer : Mode) (enclosing : List Mode)
    (free : pending = .nothing ∨ pending = .dollar) :
    Absorbs classes ⟨inner.mode, outer :: enclosing, pending⟩ inner.closing
      ⟨outer, enclosing, .nothing⟩ := by
  have idle (c : Char) (noBracket : Mode.ofBracket? c = none) : pending.Idle c := by
    rcases free with rfl | rfl
    · exact .nothing
    · exact .dollar noBracket
  cases inner with
  | word => exact absurd rfl some
  | singleQuotes | doubleQuotes | backticks | parens | braces =>
      exact .single (move_nested _ rfl (idle _ rfl))

/-- A span around absorbed text is absorbed, and what was open in front of it is settled. -/
theorem absorbs_span (spares : classes.SparesSpecial) (placed : region = .word → enclosing = [])
    (holds : region.holds inner = true) (between : pending.Between inner.opening)
    {middle : Pending} (free : middle = .nothing ∨ middle = .dollar) {body : Text}
    (read : Absorbs classes ⟨inner.mode, region.mode :: enclosing, .nothing⟩ body
      ⟨inner.mode, region.mode :: enclosing, middle⟩) :
    Absorbs classes ⟨region.mode, enclosing, pending⟩ (inner.opening ++ body ++ inner.closing)
      ⟨region.mode, enclosing, .nothing⟩ := by
  have opened := absorbs_opening spares placed holds between
  have closed := @absorbs_closing classes inner middle (Region.ne_word_of_holds holds) region.mode enclosing free
  exact (opened.append read).append closed

/-- The items of a region are absorbed by its mode. -/
theorem Items.absorbs (spares : classes.SparesSpecial) {text : Text} (items : Items classes region text)
    (placed : region = .word → enclosing = []) (between : pending.Between text) :
    ∃ last, (last = .nothing ∨ last = .dollar) ∧
      Absorbs classes ⟨region.mode, enclosing, pending⟩ text ⟨region.mode, enclosing, last⟩ := by
  induction items generalizing enclosing pending with
  | nil region => exact ⟨pending, between.1, .nil _⟩
  | @plain region c rest plain items ih =>
      obtain ⟨last, free, absorbed⟩ := ih placed (.nothing rest)
      exact ⟨last, free, (absorbs_plain placed (between.2 c rfl) plain).append absorbed⟩
  | @escape region rest c some items ih =>
      obtain ⟨last, free, absorbed⟩ := ih placed (.nothing rest)
      exact ⟨last, free, (absorbs_escape spares placed some (between.2 '\\' rfl) c).append absorbed⟩
  | @dollar region rest quotes ticks alone items ih =>
      have follows : Pending.Between .dollar rest :=
        ⟨.inr rfl, fun c head => .dollar (ofBracket?_eq_none (alone c head).1 (alone c head).2)⟩
      obtain ⟨last, free, absorbed⟩ := ih placed follows
      have made := move_region placed (between.2 '$' rfl) fun _ => spares _ (by decide)
      rw [take_dollar quotes ticks] at made
      exact ⟨last, free, .cons made absorbed⟩
  | @span region inner body rest holds inside items ihBody ihRest =>
      have some := Region.ne_word_of_holds holds
      have front : pending.Between inner.opening := by
        refine ⟨between.1, fun c head => between.2 c ?_⟩
        cases inner with
        | word => exact absurd rfl some
        | singleQuotes | doubleQuotes | backticks | parens | braces => exact head
      obtain ⟨middle, freeBody, read⟩ := ihBody (fun same => absurd same some) (.nothing body)
      obtain ⟨last, free, absorbed⟩ := ihRest placed (.nothing rest)
      exact ⟨last, free, (absorbs_span spares placed holds front freeBody read).append absorbed⟩

/-- A nonempty sequence of items starts with a character that neither delimits nor separates. -/
theorem IsWord.startsOrdinary (spares : classes.SparesSpecial) {word : Text}
    (isWord : IsWord classes word) : classes.StartsOrdinary word := by
  obtain ⟨some, items⟩ := isWord
  generalize same : Region.word = region at items
  cases items with
  | nil => exact absurd rfl some
  | plain plain items => exact ⟨_, rfl, plain.ordinary same.symm⟩
  | escape c _ items => exact ⟨_, rfl, spares _ (by decide)⟩
  | dollar _ _ _ items => exact ⟨_, rfl, spares _ (by decide)⟩
  | @span _ inner body rest holds inside items =>
      cases inner with
      | word => exact absurd rfl (Region.ne_word_of_holds holds)
      | singleQuotes | doubleQuotes | backticks | parens | braces =>
          exact ⟨_, rfl, spares _ (by decide)⟩

/-- Grammar words end at every delimiter and nowhere before. -/
theorem IsWord.selfContained (spares : classes.SparesQuoting) {word : Text}
    (isWord : IsWord classes word) : classes.SelfContained word := by
  intro d delimits
  obtain ⟨last, free, absorbed⟩ :=
    isWord.items.absorbs spares.special (fun _ => rfl) (.nothing word)
  have idle : last.Idle d := by
    rcases free with rfl | rfl
    · exact .nothing
    · refine .dollar (ofBracket?_eq_none ?_ ?_) <;> rintro rfl
      · rw [(spares '(' (by decide)).1] at delimits
        cases delimits
      · rw [(spares '{' (by decide)).1] at delimits
        cases delimits
  exact absorbed.endsAt isWord.ne_nil idle delimits

end Reading

end SerialCompletion.Line
