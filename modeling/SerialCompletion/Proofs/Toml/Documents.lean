import Mathlib.Data.List.Forall2
import SerialCompletion.Proofs.Toml.Tables
import SerialCompletion.Proofs.Toml.Values
import SerialCompletion.Settings.Storage

/-!
# Written documents are read back

A document that consists of tables, each with a header and one line for each
of its keys, is read as these tables.  The lines are first read as statements,
and the statements then build the tables, each of them at the end of what has
been built before.
-/

namespace SerialCompletion.Toml

variable {key name written rest text : Text} {found : Value} {stop : Char}

/-! ## Keys -/

def isBareKey (key : Text) : Bool :=
  !key.isEmpty && key.all isKeyChar

theorem isBareKey_cons {c : Char} {tail : Text} :
    isBareKey (c :: tail) = true ↔ isKeyChar c = true ∧ ∀ d ∈ tail, isKeyChar d = true := by
  simp [isBareKey]

theorem exists_of_isBareKey (bare : isBareKey key = true) :
    ∃ c tail, key = c :: tail ∧ isKeyChar c = true ∧ ∀ d ∈ key, isKeyChar d = true := by
  cases key with
  | nil => cases bare
  | cons c tail =>
      obtain ⟨first, others⟩ := isBareKey_cons.mp bare
      exact ⟨c, tail, rfl, first, List.forall_mem_cons.mpr ⟨first, others⟩⟩

theorem isKeyChar_ne {c other : Char} (keyChar : isKeyChar c = true)
    (spared : isKeyChar other = false) : c ≠ other := by
  rintro rfl
  rw [spared] at keyChar
  cases keyChar

/-- A bare key ends in front of the first character that no key holds. -/
theorem simpleKey_bare (bare : isBareKey key = true) (stops : isKeyChar stop = false)
    (rest : Text) : simpleKey (key ++ stop :: rest) = .ok (key, stop :: rest) := by
  obtain ⟨c, tail, rfl, first, each⟩ := exists_of_isBareKey bare
  have spans := span_append_of_forall each stops rest
  unfold simpleKey
  split
  case h_1 same => exact absurd (List.cons.inj same).1 (isKeyChar_ne first rfl)
  case h_2 same => exact absurd (List.cons.inj same).1 (isKeyChar_ne first rfl)
  case h_3 => rw [spans]

theorem startsVisible_of_isBareKey (bare : isBareKey key = true) : StartsVisible key := by
  obtain ⟨c, tail, rfl, first, -⟩ := exists_of_isBareKey bare
  exact startsVisible_cons first rfl tail

theorem dottedKey_bare {bound : Nat} (bare : isBareKey key = true) (stops : isKeyChar stop = false)
    (rest : Text) (alone : (skipBlanks (stop :: rest)).head? ≠ some '.') :
    dottedKey (bound + 1) (key ++ stop :: rest) = .ok ([key], skipBlanks (stop :: rest)) := by
  simp only [dottedKey, skipBlanks_visible ((startsVisible_of_isBareKey bare).append _),
    simpleKey_bare bare stops, bind, Except.bind]
  split
  case h_1 dotted => exact absurd (congrArg List.head? dotted) alone
  case h_2 => rfl

/-! ## Statements -/

theorem statement_header (bare : isBareKey name = true) (rest : Text) :
    statement ('[' :: (name ++ ']' :: rest)) = .ok (.header [name], rest) := by
  have keys : headerKeys (name ++ ']' :: rest) = .ok ([name], rest) := by
    have stands : skipBlanks (']' :: rest) = ']' :: rest :=
      skipBlanks_visible ⟨']', rfl, by decide⟩
    have alone : (skipBlanks (']' :: rest)).head? ≠ some '.' := by simp [stands]
    simp only [headerKeys, dottedKey_bare bare rfl rest alone, stands, bind, Except.bind]
    rfl
  unfold statement
  split
  case h_1 same =>
    obtain ⟨c, tail, rfl, first, -⟩ := exists_of_isBareKey bare
    exact absurd (List.cons.inj (List.cons.inj same).2).1 (isKeyChar_ne first rfl)
  case h_2 same =>
    cases same
    simp only [keys, bind, Except.bind]
    rfl
  case h_3 _ other => exact absurd rfl (other _)

theorem statement_pair (bare : isBareKey key = true) (writes : Writes written found) (rest : Text) :
    statement (key ++ ' ' :: '=' :: ' ' :: (written ++ '\n' :: rest)) =
      .ok (.pair [key] found, '\n' :: rest) := by
  have stands : skipBlanks (' ' :: '=' :: ' ' :: (written ++ '\n' :: rest)) =
      '=' :: ' ' :: (written ++ '\n' :: rest) := by
    rw [skipBlanks_space, skipBlanks_visible ⟨'=', rfl, by decide⟩]
  have value : skipBlanks (' ' :: (written ++ '\n' :: rest)) = written ++ '\n' :: rest := by
    rw [skipBlanks_space, skipBlanks_visible (writes.starts.append _)]
  obtain ⟨c, tail, rfl, first, -⟩ := exists_of_isBareKey bare
  unfold statement
  split
  case h_1 same => exact absurd (List.cons.inj same).1 (isKeyChar_ne first rfl)
  case h_2 same => exact absurd (List.cons.inj same).1 (isKeyChar_ne first rfl)
  case h_3 =>
    rw [dottedKey_bare bare rfl _ (by simp [stands]), stands]
    simp only [bind, Except.bind, expect, if_true, value, writes.read rest]
    rfl

/-- A text that is read as statements, in no more steps than it has characters. -/
structure States (text : Text) (parsed : List Statement) : Prop where
  length_le : parsed.length ≤ text.length
  read : ∀ bound, parsed.length < bound → statements bound text = .ok parsed

namespace States

variable {parsed : List Statement} {first : Statement}

theorem nil : States [] [] where
  length_le := Nat.le_refl 0
  read bound enough := by
    obtain ⟨bound, rfl⟩ := Nat.exists_eq_add_one_of_ne_zero (Nat.ne_zero_of_lt enough)
    rfl

theorem lineFeed (behind : States text parsed) : States ('\n' :: text) parsed where
  length_le := Nat.le_succ_of_le behind.length_le
  read bound enough := by
    rw [← behind.read bound enough]
    cases bound with
    | zero => rfl
    | succ bound => simp only [statements, skipFiller_lineFeed]

/-- A line with a statement comes in front of the statements of the lines behind it. -/
theorem line {line : Text} (starts : StartsVisible line)
    (read : statement (line ++ '\n' :: text) = .ok (first, '\n' :: text))
    (behind : States text parsed) : States (line ++ '\n' :: text) (first :: parsed) where
  length_le := by
    have others := behind.length_le
    simp only [List.length_cons, List.length_append]
    omega
  read bound enough := by
    obtain ⟨bound, rfl⟩ := Nat.exists_eq_add_one_of_ne_zero (Nat.ne_zero_of_lt enough)
    have visible := skipFiller_visible (starts.append ('\n' :: text))
    have ends : lineEnd ('\n' :: text) = .ok text := rfl
    have others := behind.read bound (Nat.lt_of_succ_lt_succ enough)
    simp only [statements, visible, bind, Except.bind]
    split
    case h_1 empty => exact absurd empty (starts.append _).ne_nil
    case h_2 =>
      simp only [read, ends, others]
      rfl

end States

/-! ## Lines, tables and documents -/

inductive WritesPair : Text → Text × Value → Prop
  | intro {key written : Text} {found : Value} (bare : isBareKey key = true)
      (writes : Writes written found) :
      WritesPair (writePair key written) (key, found)

inductive WritesTable : Text → Section → Prop
  | intro {name : Text} {lines : List Text} {entries : Entries} (bare : isBareKey name = true)
      (pairs : List.Forall₂ WritesPair lines entries) :
      WritesTable (writeTable name lines) (name, entries)

theorem WritesPair.states {line : Text} {entry : Text × Value} {parsed : List Statement}
    (writes : WritesPair line entry) (behind : States rest parsed) :
    States (line ++ rest) (.pair [entry.1] entry.2 :: parsed) := by
  cases writes with
  | @intro key written found bare writes =>
      have joined : writePair key written ++ rest =
          (key ++ [' ', '=', ' '] ++ written) ++ '\n' :: rest := by simp [writePair]
      have read := statement_pair bare writes rest
      rw [joined]
      refine States.line ?_ ?_ behind
      · rw [List.append_assoc]
        exact (startsVisible_of_isBareKey bare).append _
      · simpa using read

theorem states_pairs {lines : List Text} {entries : Entries} {parsed : List Statement}
    (pairs : List.Forall₂ WritesPair lines entries) (behind : States rest parsed) :
    States (lines.flatten ++ rest)
      ((entries.map fun entry => Statement.pair [entry.1] entry.2) ++ parsed) := by
  induction pairs with
  | nil => exact behind
  | cons first others ih =>
      rw [List.flatten_cons, List.append_assoc]
      exact first.states ih

theorem WritesTable.states {table : Text} {part : Section} {parsed : List Statement}
    (writes : WritesTable table part) (behind : States rest parsed) :
    States (table ++ rest) (part.statements ++ parsed) := by
  cases writes with
  | @intro name lines entries bare pairs =>
      have joined : writeTable name lines ++ rest =
          ('[' :: (name ++ [']'])) ++ '\n' :: (lines.flatten ++ rest) := by simp [writeTable]
      have read := statement_header bare ('\n' :: (lines.flatten ++ rest))
      rw [joined]
      refine States.line ⟨'[', rfl, by decide⟩ ?_ (states_pairs pairs behind)
      simpa using read

theorem states_join {tables : List Text} {parts : List Section}
    (writes : List.Forall₂ WritesTable tables parts) :
    States (List.intercalate ['\n'] tables) (parts.flatMap Section.statements) := by
  induction writes with
  | nil => exact States.nil
  | @cons table part tables parts first others ih =>
      cases others with
      | nil =>
          have alone := first.states States.nil
          simpa [List.intercalate_singleton] using alone
      | cons second others =>
          rw [Text.intercalate_mark_cons _ (List.cons_ne_nil _ _), List.flatMap_cons]
          exact first.states ih.lineFeed

/-- A document of tables with distinct names and distinct keys is read as these tables. -/
theorem read_join {tables : List Text} {parts : List Section}
    (writes : List.Forall₂ WritesTable tables parts) (names : (parts.map Prod.fst).Nodup)
    (distinct : ∀ part ∈ parts, (part.2.map Prod.fst).Nodup) :
    Toml.read (List.intercalate ['\n'] tables) = .ok (parts.map Section.entry) := by
  have states := states_join writes
  have unmarked : skipMark (List.intercalate ['\n'] tables) = List.intercalate ['\n'] tables := by
    cases writes with
    | nil => rfl
    | cons first others =>
        cases first
        cases others with
        | nil => rfl
        | cons => rfl
  have parsed := states.read _ (Nat.lt_succ_of_le states.length_le)
  simp only [Toml.read, unmarked, bind, Except.bind]
  rw [parsed]
  exact Entries.ofStatements_flatMap names distinct

end SerialCompletion.Toml
