import Mathlib.Data.List.Forall2
import SerialCompletion.Proofs.Line.Grammar
import SerialCompletion.Proofs.Settings.Validity
import SerialCompletion.Proofs.Word.Reading

/-!
# Quoting argument texts

Any text can be written as a raw word: piece by piece, bare, in quotes or
behind backslashes.  The splitter and the reading of literal values know
nothing of each other, but each comes back from every piece to where it was in
front of it.  So a line of quoted texts is split into their words, and the
literal values of the words are the texts.
-/

namespace SerialCompletion.Word

open Line

def escape (c : Char) : Text :=
  ['\\', c]

def escapeInDouble (c : Char) : Text :=
  if c ∈ ['"', '\\', '\x60', '$'] then escape c else [c]

inductive Piece (classes : Classes) : Text → Text → Prop where
  | bare {part : Text} (plain : ∀ c ∈ part, Region.word.Plain classes c) : Piece classes part part
  | singleQuoted {part : Text} (noQuote : '\'' ∉ part) :
      Piece classes part (['\''] ++ part ++ ['\''])
  | doubleQuoted (part : Text) : Piece classes part (['"'] ++ part.flatMap escapeInDouble ++ ['"'])
  | escaped (part : Text) : Piece classes part (part.flatMap escape)

/-- Texts in pieces, one written behind the other. -/
inductive Pieces (classes : Classes) : Text → Text → Prop where
  | nil : Pieces classes [] []
  | cons {part more written rest : Text} (piece : Piece classes part written)
      (pieces : Pieces classes more rest) : Pieces classes (part ++ more) (written ++ rest)

/-- Whether a word is a text in pieces; the empty text needs a pair of quotes. -/
structure Encodes (classes : Classes) (text word : Text) : Prop where
  ne_nil : word ≠ []
  pieces : Pieces classes text word

/-! ## The splitter comes back into the word -/

section Splitting

variable {classes : Classes} {part written : Text}

theorem plain_single {c : Char} (noQuote : c ≠ '\'') : Region.singleQuotes.Plain classes c :=
  ⟨by simpa [Region.special] using noQuote, Region.noConfusion⟩

theorem plain_double {c : Char} (noEscape : c ∉ ['"', '\\', '\x60', '$']) :
    Region.doubleQuotes.Plain classes c := by
  refine ⟨fun special => noEscape ?_, Region.noConfusion⟩
  simp only [Region.special, List.mem_cons] at special ⊢
  tauto

theorem absorbs_escapeInDouble (spares : classes.SparesSpecial) (enclosing : List Mode) (c : Char) :
    Scan.Absorbs classes ⟨.doubleQuote, enclosing, .nothing⟩ (escapeInDouble c)
      ⟨.doubleQuote, enclosing, .nothing⟩ := by
  have placed : Region.doubleQuotes = .word → enclosing = [] := Region.noConfusion
  unfold escapeInDouble
  split
  · exact absorbs_escape spares placed Region.noConfusion .nothing c
  · exact absorbs_plain placed .nothing (plain_double ‹_›)

theorem Piece.absorbs (spares : classes.SparesSpecial) (piece : Piece classes part written) :
    Scan.Absorbs classes ⟨.word, [], .nothing⟩ written ⟨.word, [], .nothing⟩ := by
  have placed : Region.word = .word → ([] : List Mode) = [] := fun _ => rfl
  cases piece with
  | bare plain => exact absorbs_plain_text placed plain
  | singleQuoted noQuote =>
      have holds : Region.word.holds .singleQuotes = true := rfl
      refine absorbs_span spares placed holds (.nothing _) (.inl rfl) ?_
      refine absorbs_plain_text Region.noConfusion fun c member => plain_single ?_
      rintro rfl
      exact noQuote member
  | doubleQuoted =>
      have holds : Region.word.holds .doubleQuotes = true := rfl
      refine absorbs_span spares placed holds (.nothing _) (.inl rfl) ?_
      exact Scan.Absorbs.flatMap fun c _ => absorbs_escapeInDouble spares [.word] c
  | escaped =>
      exact Scan.Absorbs.flatMap fun c _ => absorbs_escape spares placed Region.noConfusion .nothing c

theorem Pieces.absorbs (spares : classes.SparesSpecial) (pieces : Pieces classes part written) :
    Scan.Absorbs classes ⟨.word, [], .nothing⟩ written ⟨.word, [], .nothing⟩ := by
  induction pieces with
  | nil => exact .nil _
  | cons piece _ ih => exact (piece.absorbs spares).append ih

end Splitting

/-! ## The reading comes back to its beginning -/

section Unquoting

variable {classes : Classes} {part written : Text}

theorem returns_bare {c : Char} (plain : c ∉ Region.word.special) :
    Returns Reading.start [c] [c] := by
  simp only [Region.special, List.mem_cons, not_or] at plain
  constructor <;> simp [Reading.gives, Reading.run, Reading.output, Reading.next, Reading.start, plain]

theorem returns_single {c : Char} (noQuote : c ≠ '\'') : Returns ⟨.single, false⟩ [c] [c] := by
  constructor <;> simp [Reading.gives, Reading.run, Reading.output, Reading.next, noQuote]

theorem returns_escape {quotation : Quotation} (reads : quotation ≠ .single) (c : Char) :
    Returns ⟨quotation, false⟩ (escape c) [c] := by
  cases quotation with
  | single => exact absurd rfl reads
  | outside | double => exact ⟨rfl, rfl⟩

theorem returns_escapeInDouble (c : Char) : Returns ⟨.double, false⟩ (escapeInDouble c) [c] := by
  unfold escapeInDouble
  split
  case isTrue => exact returns_escape Quotation.noConfusion c
  case isFalse noEscape =>
    simp only [List.mem_cons, not_or] at noEscape
    constructor <;> simp [Reading.gives, Reading.run, Reading.output, Reading.next, noEscape]

theorem Piece.returns (piece : Piece classes part written) : Returns Reading.start written part := by
  cases piece with
  | bare plain =>
      have each := Returns.flatMap fun c member => returns_bare (plain c member).not_special
      rw [List.flatMap_singleton'] at each
      exact each
  | singleQuoted noQuote =>
      have inside (c : Char) (member : c ∈ part) : Returns ⟨.single, false⟩ [c] [c] := by
        apply returns_single
        rintro rfl
        exact noQuote member
      have each := Returns.flatMap inside
      rw [List.flatMap_singleton'] at each
      exact .wrap rfl rfl each rfl rfl
  | doubleQuoted => exact .wrap rfl rfl (.flatMap fun c _ => returns_escapeInDouble c) rfl rfl
  | escaped => exact .flatMap fun c _ => returns_escape Quotation.noConfusion c

theorem Pieces.returns (pieces : Pieces classes part written) :
    Returns Reading.start written part := by
  induction pieces with
  | nil => exact .nil _
  | cons piece _ ih => exact piece.returns.append ih

end Unquoting

/-! ## Lines of quoted texts -/

section Lines

variable {classes : Classes} {text word : Text} {texts words : List Text}

theorem sparesSpecial_of_valid (valid : classes.fault? = none) : classes.SparesSpecial := by
  obtain ⟨_, delimiters, separators, _⟩ := classes.fault?_eq_none_iff.mp valid
  intro c special
  exact ⟨delimiters c special, separators c special⟩

theorem Encodes.selfContained (spares : classes.SparesSpecial) (encodes : Encodes classes text word) :
    classes.SelfContained word := by
  intro d delimits
  exact (encodes.pieces.absorbs spares).endsAt encodes.ne_nil .nothing delimits

theorem Encodes.words_eq (spares : classes.SparesSpecial) (encodes : Encodes classes text word) :
    Line.words classes word = [word] :=
  words_of_absorbed ((encodes.pieces.absorbs spares).of_word encodes.ne_nil)

theorem exists_text_of_encoded (encoded : List.Forall₂ (Encodes classes) texts words) :
    ∀ word ∈ words, ∃ text, Encodes classes text word := by
  induction encoded with
  | nil => simp
  | cons encodes _ ih => exact List.forall_mem_cons.mpr ⟨⟨_, encodes⟩, ih⟩

theorem literals_of_encoded (encoded : List.Forall₂ (Encodes classes) texts words) :
    words.map literal = texts := by
  induction encoded with
  | nil => rfl
  | cons encodes _ ih => rw [List.map_cons, encodes.pieces.returns.literal, ih]

end Lines

/--
Quoting is undone.  Whatever the texts are and however each is quoted, a line
of the quoted texts, with gaps of delimiters in front of them that are nonempty
between two, is split into the quoted texts, and their literal values are the
texts.
-/
theorem split_quoted {classes : Classes} (valid : classes.fault? = none) {texts : List Text}
    {tiles : List Tile} (some : tiles ≠ []) (spaced : Spaced classes tiles)
    (encoded : List.Forall₂ (Encodes classes) texts (tiles.map Tile.word)) :
    split classes (cover tiles) (cover tiles).byteLength = tiles.map Tile.word ∧
      (split classes (cover tiles) (cover tiles).byteLength).map literal = texts := by
  have spares := sparesSpecial_of_valid valid
  have quoted (tile : Tile) (member : tile ∈ tiles) : ∃ text, Encodes classes text tile.word :=
    exists_text_of_encoded encoded tile.word (List.mem_map_of_mem member)
  have read : split classes (cover tiles) (cover tiles).byteLength = tiles.map Tile.word := by
    obtain ⟨init, last, rfl⟩ := (List.eq_nil_or_concat' tiles).resolve_left some
    rw [split_byteLength]
    obtain ⟨_, encodes⟩ := quoted last (List.mem_append_right init List.mem_cons_self)
    refine words_cover spaced (fun tile member => ?_) (encodes.words_eq spares)
    obtain ⟨_, encodes⟩ := quoted tile (List.mem_append_left [last] member)
    exact encodes.selfContained spares
  refine ⟨read, ?_⟩
  rw [read]
  exact literals_of_encoded encoded

/-- Four styles in one word, and then an empty text. -/
theorem split_quoted_mixed :
    Classes.standard.fault? = none ∧
      split .standard ['a', '\'', '=', '\'', '"', '\\', '$', '"', '\\', ' ', '\t', ' ', '"', '"'] 14 =
        [['a', '\'', '=', '\'', '"', '\\', '$', '"', '\\', ' '], ['"', '"']] ∧
      (split .standard ['a', '\'', '=', '\'', '"', '\\', '$', '"', '\\', ' ', '\t', ' ', '"', '"'] 14).map
        literal = [['a', '=', '$', ' '], []] := by
  have valid : Classes.standard.fault? = none := by decide
  have bare : Piece .standard ['a'] ['a'] :=
    .bare (List.forall_mem_singleton.mpr ⟨by decide, by decide⟩)
  have single : Piece .standard ['='] ['\'', '=', '\''] := .singleQuoted (by decide)
  have double : Piece .standard ['$'] ['"', '\\', '$', '"'] := .doubleQuoted ['$']
  have slashed : Piece .standard [' '] ['\\', ' '] := .escaped [' ']
  have empty : Piece .standard [] ['"', '"'] := .doubleQuoted []
  have read := @split_quoted _ valid _
    [⟨[], ['a', '\'', '=', '\'', '"', '\\', '$', '"', '\\', ' ']⟩, ⟨['\t', ' '], ['"', '"']⟩]
    (by decide) ⟨by simp [Classes.isDelimiter, Classes.standard], by simp⟩
    (.cons ⟨by decide, .cons bare (.cons single (.cons double (.cons slashed .nil)))⟩
      (.cons ⟨by decide, .cons empty .nil⟩ .nil))
  exact ⟨valid, read⟩

end SerialCompletion.Word
