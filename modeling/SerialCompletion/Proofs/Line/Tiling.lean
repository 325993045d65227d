import Mathlib.Data.List.Chain
import SerialCompletion.Proofs.Line.Growth
import SerialCompletion.Proofs.Line.Moves

/-!
# Tilings of a line

The words of a line cover it: each stands behind a gap of delimiters, and the
gaps and words in order are the text that the cursor has passed.  The tiling
is at the same time the invariant of the scan.  One move either adds its
character to the last tile or sets a new tile behind it, and in both cases
the tiling of the text so far becomes a tiling of the text with the character.
-/

namespace SerialCompletion.Line

namespace Classes

/-- Whether a word starts with a character that neither delimits nor separates. -/
def StartsOrdinary (classes : Classes) (word : Text) : Prop :=
  ∃ c ∈ word.head?, classes.isDelimiter c = false ∧ classes.isSeparator c = false

variable {classes : Classes}

theorem isSeparatorRun_concat {word : Text} (some : word ≠ []) (c : Char) :
    classes.isSeparatorRun (word ++ [c]) = (classes.isSeparatorRun word && classes.isSeparator c) := by
  cases word with
  | nil => exact absurd rfl some
  | cons d rest => simp [isSeparatorRun, Bool.and_assoc]

theorem isSeparatorRun_singleton (c : Char) :
    classes.isSeparatorRun [c] = classes.isSeparator c := by
  simp [isSeparatorRun]

theorem StartsOrdinary.not_run {word : Text} (starts : classes.StartsOrdinary word) :
    classes.isSeparatorRun word = false := by
  obtain ⟨c, first, _, noSeparator⟩ := starts
  cases word with
  | nil => cases first
  | cons d rest =>
      cases first
      simp [isSeparatorRun, noSeparator]

theorem StartsOrdinary.append {word : Text} (starts : classes.StartsOrdinary word) (more : Text) :
    classes.StartsOrdinary (word ++ more) := by
  obtain ⟨c, first, ordinary⟩ := starts
  cases word with
  | nil => cases first
  | cons d rest => exact ⟨c, first, ordinary⟩

theorem StartsOrdinary.of_append {word more : Text} (some : word ≠ [])
    (starts : classes.StartsOrdinary (word ++ more)) : classes.StartsOrdinary word := by
  obtain ⟨c, first, ordinary⟩ := starts
  cases word with
  | nil => exact absurd rfl some
  | cons d rest => exact ⟨c, first, ordinary⟩

end Classes

/-- A word of a line with the gap in front of it. -/
structure Tile where
  /-- The delimiters in front of the word. -/
  gap : Text
  word : Text
  deriving DecidableEq, Repr

namespace Tile

def empty : Tile := ⟨[], []⟩

def text (tile : Tile) : Text :=
  tile.gap ++ tile.word

def add (tile : Tile) (keeps : Bool) (c : Char) : Tile :=
  if keeps then ⟨tile.gap, tile.word ++ [c]⟩ else ⟨tile.gap ++ [c], tile.word⟩

/-- A gap of delimiters, and a word that is a run of separators or starts with neither. -/
structure Sound (classes : Classes) (tile : Tile) : Prop where
  gap_delimiters : ∀ c ∈ tile.gap, classes.isDelimiter c = true
  word_shape : tile.word ≠ [] →
    classes.isSeparatorRun tile.word = true ∨ classes.StartsOrdinary tile.word

/--
What a tile demands of the tile in front of it: a word that has ended, a gap
between them if its own word is empty, and if there is no gap, that exactly
one of the two words is a run of separators.
-/
structure Follows (classes : Classes) (first second : Tile) : Prop where
  word_ne_nil : first.word ≠ []
  gap_ne_nil : second.word = [] → second.gap ≠ []
  run_ne : second.gap = [] →
    classes.isSeparatorRun first.word ≠ classes.isSeparatorRun second.word

theorem Follows.replace {classes : Classes} {first second new : Tile}
    (follows : Follows classes first second) (gap : new.gap = second.gap) (some : new.word ≠ [])
    (run : second.word ≠ [] → classes.isSeparatorRun new.word = classes.isSeparatorRun second.word) :
    Follows classes first new := by
  refine ⟨follows.word_ne_nil, fun none => absurd none some, ?_⟩
  intro noGap
  rw [gap] at noGap
  rw [run fun none => follows.gap_ne_nil none noGap]
  exact follows.run_ne noGap

end Tile

structure Tiling (classes : Classes) (text : Text) (tiles : List Tile) : Prop where
  ne_nil : tiles ≠ []
  text_eq : text = tiles.flatMap Tile.text
  sound : ∀ tile ∈ tiles, tile.Sound classes
  neighbours : tiles.IsChain (Tile.Follows classes)

namespace Tiling

variable {classes : Classes} {text : Text} {closed : List Tile} {tile new : Tile} {c : Char}

theorem replaceLast (tiling : Tiling classes text (closed ++ [tile]))
    (adds : new.text = tile.text ++ [c]) (sound : new.Sound classes)
    (follows : ∀ first, Tile.Follows classes first tile → Tile.Follows classes first new) :
    Tiling classes (text ++ [c]) (closed ++ [new]) where
  ne_nil := by simp
  text_eq := by simp [tiling.text_eq, adds]
  sound := by
    intro other member
    rcases List.mem_append.mp member with before | last
    · exact tiling.sound other (List.mem_append_left _ before)
    · rw [List.mem_singleton.mp last]
      exact sound
  neighbours := by
    obtain ⟨before, _, meets⟩ := List.isChain_append.mp tiling.neighbours
    refine List.isChain_append.mpr ⟨before, .singleton new, ?_⟩
    intro first last second head
    cases head
    exact follows first (meets first last tile rfl)

theorem concat (tiling : Tiling classes text (closed ++ [tile])) (adds : new.text = [c])
    (sound : new.Sound classes) (follows : Tile.Follows classes tile new) :
    Tiling classes (text ++ [c]) (closed ++ [tile] ++ [new]) where
  ne_nil := by simp
  text_eq := by simp [tiling.text_eq, adds]
  sound := by
    intro other member
    rcases List.mem_append.mp member with before | last
    · exact tiling.sound other before
    · rw [List.mem_singleton.mp last]
      exact sound
  neighbours := by
    refine List.isChain_append.mpr ⟨tiling.neighbours, .singleton new, ?_⟩
    intro first last second head
    cases head
    rw [List.getLast?_concat] at last
    cases last
    exact follows

end Tiling

/-! ## The open tile -/

/-- What a scan knows about the tile that its next character may join. -/
structure Scan.Opens (classes : Classes) (scan : Scan) (tile : Tile) : Prop where
  formed : scan.WellFormed
  sound : tile.Sound classes
  word_eq_nil_iff : tile.word = [] ↔ scan.mode = .delimiter
  run_iff : classes.isSeparatorRun tile.word = true ↔ scan.pending = .separators

namespace Scan.Opens

variable {classes : Classes} {scan next : Scan} {tile : Tile} {c : Char}

theorem start (classes : Classes) : Opens classes Scan.start .empty where
  formed := .between
  sound := ⟨by simp [Tile.empty], fun some => absurd rfl some⟩
  word_eq_nil_iff := ⟨fun _ => rfl, fun _ => rfl⟩
  run_iff := by simp [Tile.empty, Classes.isSeparatorRun, Scan.start]

/-- A character behind a gap joins the tile of that gap. -/
theorem begins {gap : Text} {keeps : Bool} (opens : Opens classes Scan.start ⟨gap, []⟩)
    (begun : Begins classes c keeps next) :
    Opens classes next (Tile.add ⟨gap, []⟩ keeps c) := by
  have gaps := opens.sound.gap_delimiters
  cases begun with
  | delimiter delimits =>
      refine ⟨.between, ⟨?_, fun some => absurd rfl some⟩, by simp [Tile.add, Scan.start], opens.run_iff⟩
      intro d member
      rcases List.mem_append.mp member with before | last
      · exact gaps d before
      · rw [List.mem_singleton.mp last]
        exact delimits
  | separator noDelimiter separates =>
      have run : classes.isSeparatorRun [c] = true := by
        rw [Classes.isSeparatorRun_singleton, separates]
      exact ⟨.word _, ⟨gaps, fun _ => .inl run⟩, by simp [Tile.add], by simp [Tile.add, run]⟩
  | ordinary noDelimiter noSeparator =>
      have starts : classes.StartsOrdinary [c] := ⟨c, rfl, noDelimiter, noSeparator⟩
      obtain ⟨formed, inside, noRun⟩ :=
        (WellFormed.word .nothing).take Mode.noConfusion c
      exact ⟨formed, ⟨gaps, fun _ => .inr starts⟩, by simp [Tile.add, inside],
        by simp [Tile.add, starts.not_run, noRun]⟩

theorem joins (opens : Opens classes scan tile) (inside : scan.mode ≠ .delimiter)
    (noRun : scan.pending ≠ .separators)
    (kept : next.WellFormed ∧ next.mode ≠ .delimiter ∧ next.pending ≠ .separators) :
    Opens classes next (tile.add true c) ∧
      classes.isSeparatorRun (tile.add true c).word = classes.isSeparatorRun tile.word := by
  have some : tile.word ≠ [] := fun none => inside (opens.word_eq_nil_iff.mp none)
  have starts : classes.StartsOrdinary tile.word :=
    (opens.sound.word_shape some).resolve_left fun run => noRun (opens.run_iff.mp run)
  have longer : classes.StartsOrdinary (tile.word ++ [c]) := starts.append [c]
  refine ⟨⟨kept.1, ⟨opens.sound.gap_delimiters, fun _ => .inr longer⟩, ?_, ?_⟩, ?_⟩
  · simp [Tile.add, kept.2.1]
  · simp [Tile.add, longer.not_run, kept.2.2]
  · change classes.isSeparatorRun (tile.word ++ [c]) = _
    rw [longer.not_run, starts.not_run]

theorem joinsRun (opens : Opens classes ⟨.word, [], .separators⟩ tile)
    (separates : classes.isSeparator c = true) :
    Opens classes ⟨.word, [], .separators⟩ (tile.add true c) ∧
      classes.isSeparatorRun (tile.add true c).word = classes.isSeparatorRun tile.word := by
  have run : classes.isSeparatorRun tile.word = true := opens.run_iff.mpr rfl
  have some : tile.word ≠ [] := fun none => Mode.noConfusion (opens.word_eq_nil_iff.mp none)
  have longer : classes.isSeparatorRun (tile.word ++ [c]) = true := by
    rw [Classes.isSeparatorRun_concat some, run, separates]
    rfl
  refine ⟨⟨.word _, ⟨opens.sound.gap_delimiters, fun _ => .inl longer⟩, ?_, ?_⟩, ?_⟩
  · simp [Tile.add]
  · simp [Tile.add, longer]
  · change classes.isSeparatorRun (tile.word ++ [c]) = _
    rw [longer, run]

/-- A character that ends a word stands at the beginning of a tile that may follow it. -/
theorem follows {pending : Pending} {keeps : Bool} (opens : Opens classes ⟨.word, [], pending⟩ tile)
    (turns : keeps = true → (classes.isSeparator c = true ↔ pending ≠ .separators)) :
    Tile.Follows classes tile (Tile.empty.add keeps c) := by
  have some : tile.word ≠ [] := fun none => Mode.noConfusion (opens.word_eq_nil_iff.mp none)
  cases keeps with
  | false => exact ⟨some, fun _ => List.cons_ne_nil _ _, fun noGap => absurd noGap (List.cons_ne_nil _ _)⟩
  | true =>
      refine ⟨some, fun none => absurd none (List.cons_ne_nil _ _), ?_⟩
      intro _ same
      change classes.isSeparatorRun tile.word = classes.isSeparatorRun [c] at same
      rw [Classes.isSeparatorRun_singleton] at same
      have pendingRun : pending ≠ .separators ↔ pending = .separators := by
        rw [← turns rfl, ← same]
        exact opens.run_iff
      exact not_iff_self pendingRun

end Scan.Opens

/-! ## One move and a whole line -/

section Steps

variable {classes : Classes} {scan next : Scan} {keeps : Bool} {c : Char}

/-- A move inside a tile, seen on the words. -/
theorem glue_joins (made : scan.move classes c = ⟨false, keeps, next⟩) (closed : List Tile)
    (tile : Tile) :
    glue ((closed ++ [tile]).map Tile.word) (wordsFrom classes scan [c]) =
      (closed ++ [tile.add keeps c]).map Tile.word := by
  rw [List.map_append, List.map_singleton, glue_concat]
  cases keeps with
  | false => simp [wordsFrom_of_drops _ made, prependFirst, Tile.add]
  | true => simp [wordsFrom_of_joins _ made, consFirst, prependFirst, Tile.add]

/-- A move that sets a new tile, seen on the words. -/
theorem glue_ends (made : scan.move classes c = ⟨true, keeps, next⟩) (closed : List Tile)
    (tile : Tile) :
    glue ((closed ++ [tile]).map Tile.word) (wordsFrom classes scan [c]) =
      (closed ++ [tile] ++ [Tile.empty.add keeps c]).map Tile.word := by
  rw [List.map_append, List.map_singleton, glue_concat]
  cases keeps with
  | false => simp [wordsFrom_of_ends _ made, prependFirst, Tile.add, Tile.empty]
  | true => simp [wordsFrom_of_turns _ made, consFirst, prependFirst, Tile.add, Tile.empty]

end Steps

/-- A tiling of the text so far whose last tile is the one that the scan has open. -/
structure TiledTo (classes : Classes) (scan : Scan) (text : Text) (words : List Text)
    (closed : List Tile) (tile : Tile) : Prop where
  tiling : Tiling classes text (closed ++ [tile])
  opens : scan.Opens classes tile
  words_eq : (closed ++ [tile]).map Tile.word = words

namespace TiledTo

variable {classes : Classes} {scan next : Scan} {text : Text} {words : List Text}
  {closed : List Tile} {tile : Tile} {keeps : Bool} {c : Char}

/-- A character joins the word of the open tile, which stays a run or stays none. -/
theorem joins (tiled : TiledTo classes scan text words closed tile)
    (made : scan.move classes c = ⟨false, true, next⟩)
    (joined : next.Opens classes (tile.add true c) ∧
      classes.isSeparatorRun (tile.add true c).word = classes.isSeparatorRun tile.word) :
    TiledTo classes next (text ++ [c]) (glue words (wordsFrom classes scan [c])) closed
      (tile.add true c) where
  tiling := by
    refine tiled.tiling.replaceLast ?_ joined.1.sound ?_
    · simp [Tile.text, Tile.add]
    · intro first follows
      exact follows.replace rfl (by simp [Tile.add]) fun _ => joined.2
  opens := joined.1
  words_eq := by rw [← tiled.words_eq, glue_joins made]

theorem begins {gap : Text} (tiled : TiledTo classes Scan.start text words closed ⟨gap, []⟩)
    (made : Scan.start.move classes c = ⟨false, keeps, next⟩)
    (begun : Scan.Begins classes c keeps next) :
    TiledTo classes next (text ++ [c]) (glue words (wordsFrom classes Scan.start [c])) closed
      (Tile.add ⟨gap, []⟩ keeps c) where
  tiling := by
    refine tiled.tiling.replaceLast ?_ (tiled.opens.begins begun).sound ?_
    · cases keeps <;> simp [Tile.text, Tile.add]
    · intro first follows
      have some : gap ≠ [] := follows.gap_ne_nil rfl
      cases keeps <;> exact ⟨follows.word_ne_nil, by simp [Tile.add, some], by simp [Tile.add, some]⟩
  opens := tiled.opens.begins begun
  words_eq := by rw [← tiled.words_eq, glue_joins made]

theorem ends {pending : Pending} (tiled : TiledTo classes ⟨.word, [], pending⟩ text words closed tile)
    (made : Scan.move classes ⟨.word, [], pending⟩ c = ⟨true, keeps, next⟩)
    (begun : Scan.Begins classes c keeps next)
    (turns : keeps = true → (classes.isSeparator c = true ↔ pending ≠ .separators)) :
    TiledTo classes next (text ++ [c]) (glue words (wordsFrom classes ⟨.word, [], pending⟩ [c]))
      (closed ++ [tile]) (Tile.empty.add keeps c) where
  tiling := by
    refine tiled.tiling.concat ?_ ?_ (tiled.opens.follows turns)
    · cases keeps <;> rfl
    · exact ((Scan.Opens.start classes).begins begun).sound
  opens := (Scan.Opens.start classes).begins begun
  words_eq := by rw [← tiled.words_eq, glue_ends made]

/-- One move leads from a tiling of the text so far to a tiling of the text with its character. -/
theorem move (tiled : TiledTo classes scan text words closed tile) (c : Char) :
    ∃ closed' tile', TiledTo classes (scan.move classes c).next (text ++ [c])
      (glue words (wordsFrom classes scan [c])) closed' tile' := by
  have moves := tiled.opens.formed.moves classes c
  generalize made : scan.move classes c = move at moves
  cases moves with
  | first begun =>
      obtain ⟨gap, word⟩ := tile
      have none : word = [] := tiled.opens.word_eq_nil_iff.mpr rfl
      subst none
      exact ⟨_, _, tiled.begins made begun⟩
  | escaped mode enclosing =>
      have inside := tiled.opens.formed.ne_delimiter Pending.noConfusion
      have kept := tiled.opens.formed.withPending inside .nothing rfl
      exact ⟨_, _, tiled.joins made
        (tiled.opens.joins inside Pending.noConfusion ⟨kept, inside, Pending.noConfusion⟩)⟩
  | expands mode enclosing bracket =>
      have inside := tiled.opens.formed.ne_delimiter Pending.noConfusion
      have entered := tiled.opens.formed.move classes c
      rw [made] at entered
      exact ⟨_, _, tiled.joins made (tiled.opens.joins inside Pending.noConfusion
        ⟨entered, Scan.ne_delimiter_of_inside (Scan.ofBracket?_inside bracket), Pending.noConfusion⟩)⟩
  | nested enclosing inside idle =>
      have some := Scan.ne_delimiter_of_inside inside
      have kept := tiled.opens.formed.take some c
      exact ⟨_, _, tiled.joins made (tiled.opens.joins some idle.ne_separators kept)⟩
  | ordinary idle noDelimiter noSeparator =>
      have kept := tiled.opens.formed.take Mode.noConfusion c
      exact ⟨_, _, tiled.joins made (tiled.opens.joins Mode.noConfusion idle.ne_separators kept)⟩
  | run separates => exact ⟨_, _, tiled.joins made (tiled.opens.joinsRun separates)⟩
  | ends idle breaks begun =>
      refine ⟨_, _, tiled.ends made begun ?_⟩
      intro kept
      subst kept
      exact ⟨fun _ => idle.ne_separators, fun _ => begun.separates breaks⟩
  | endsRun noSeparator begun =>
      refine ⟨_, _, tiled.ends made begun fun _ => ?_⟩
      simp [noSeparator]

end TiledTo

/-- The words of every text tile it, and the scan knows the last tile. -/
theorem tiledTo_words (classes : Classes) (text : Text) :
    ∃ closed tile, TiledTo classes (Scan.start.run classes text) text (words classes text)
      closed tile := by
  induction text using List.reverseRecOn with
  | nil =>
      refine ⟨[], .empty, ⟨?_, .start classes, rfl⟩⟩
      refine ⟨List.cons_ne_nil _ _, rfl, ?_, .singleton _⟩
      intro tile member
      rw [List.mem_singleton.mp member]
      exact (Scan.Opens.start classes).sound
  | append_singleton text c ih =>
      obtain ⟨closed, tile, tiled⟩ := ih
      rw [Scan.run_append, words, wordsFrom_append]
      exact tiled.move c

/--
The words of a line up to any cursor, with gaps of delimiters before them,
are the text that the cursor has passed: no character is lost, doubled, moved
or changed, and the last word ends at the cursor.  A word with a successor is
not empty, a last word behind others is empty only behind a gap, every word is
a run of separators or starts with a character that is neither delimiter nor
separator, and of two words without a gap exactly one is a run of separators.
-/
theorem split_tiles (classes : Classes) (line : Text) (cursor : Nat) :
    ∃ tiles : List Tile, tiles.map Tile.word = split classes line cursor ∧
      Tiling classes (Text.takeBytes (Text.clamp line cursor) line) tiles := by
  obtain ⟨closed, tile, tiled⟩ := tiledTo_words classes (beforeCursor line cursor)
  refine ⟨closed ++ [tile], tiled.words_eq, ?_⟩
  rw [Text.takeBytes_clamp]
  exact tiled.tiling

end SerialCompletion.Line
