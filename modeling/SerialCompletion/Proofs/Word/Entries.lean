import Mathlib.Data.List.Nodup
import SerialCompletion.Proofs.Text.Pieces
import SerialCompletion.Proofs.Word.Reading
import SerialCompletion.Word.Literal

/-!
# Lists that grow by a name

A comma stands for itself in every reading and leaves no escape behind it.  So
the value of a list up to a comma is settled, whatever quotes are open there,
and a bare name and a comma behind it add the name to the entries of the list
and change nothing else.
-/

namespace SerialCompletion.Word

variable {reading : Reading} {head name : Text} {c : Char}

/-! ## Bare characters -/

/-- Whether a character stands for itself in every reading. -/
def isBare (c : Char) : Bool :=
  !(c == '\\' || c == '\'' || c == '"')

theorem Reading.output_bare (bare : isBare c = true) (reading : Reading) :
    reading.output c = [c] := by
  obtain ⟨quotation, escaped⟩ := reading
  cases escaped with
  | true => rfl
  | false => cases quotation <;> simp_all [Reading.output, isBare]

theorem Reading.next_bare (bare : isBare c = true) (reading : Reading) :
    reading.next c = ⟨reading.quotation, false⟩ := by
  obtain ⟨quotation, escaped⟩ := reading
  cases escaped with
  | true => rfl
  | false => cases quotation <;> simp_all [Reading.next, isBare]

/-- Bare text is read as itself where no escape is open. -/
theorem returns_of_bare {text : Text} (calm : reading.escaped = false)
    (bare : ∀ c ∈ text, isBare c = true) : Returns reading text text := by
  obtain ⟨quotation, escaped⟩ := reading
  cases calm
  have each (c : Char) (member : c ∈ text) : Returns ⟨quotation, false⟩ [c] [c] := by
    constructor
    · simp only [Reading.gives, Reading.output_bare (bare c member), List.append_nil]
    · simp only [Reading.run, Reading.next_bare (bare c member)]
  have read := Returns.flatMap each
  rwa [List.flatMap_singleton'] at read

theorem literal_of_bare {text : Text} (bare : ∀ c ∈ text, isBare c = true) : literal text = text :=
  (returns_of_bare rfl bare).literal

/-- Bare text behind a word that leaves no escape open adds itself to the value. -/
theorem literal_append_of_calm {word text : Text} (calm : (Reading.start.run word).escaped = false)
    (bare : ∀ c ∈ text, isBare c = true) :
    literal (word ++ text) = Reading.start.gives word ++ text := by
  have read := literalFrom_append (Reading.start.run word) text []
  have returned := returns_of_bare calm bare
  rw [List.append_nil, returned.gives, returned.run, literalFrom, Reading.finish, calm] at read
  rw [literal, literalFrom_append, read]
  exact congrArg _ (List.append_nil text)

theorem literal_concat {word : Text} (calm : (Reading.start.run word).escaped = false)
    (bare : isBare c = true) : literal (word ++ [c]) = literal word ++ [c] := by
  have longer : literal (word ++ [c]) = Reading.start.gives word ++ [c] :=
    literal_append_of_calm calm fun d member => List.mem_singleton.mp member ▸ bare
  have whole : literal (word ++ []) = Reading.start.gives word ++ [] :=
    literal_append_of_calm calm (List.forall_mem_nil fun d => isBare d = true)
  rw [List.append_nil, List.append_nil] at whole
  rw [longer, whole]

/-! ## The head of a list -/

/-- Behind a comma no escape is open, and none is at the beginning of a word. -/
theorem run_head_calm (ends : Text.EndsAt ',' head) : (Reading.start.run head).escaped = false := by
  rcases ends with rfl | ⟨front, rfl⟩
  · rfl
  · rw [Reading.run_append, Reading.run, Reading.next_bare rfl]
    rfl

/-- Bare text goes on with the value of a list behind a comma. -/
theorem literal_head_append (ends : Text.EndsAt ',' head) {text : Text}
    (bare : ∀ c ∈ text, isBare c = true) :
    literal (head ++ text) = Reading.start.gives head ++ text :=
  literal_append_of_calm (run_head_calm ends) bare

theorem literal_head (ends : Text.EndsAt ',' head) : literal head = Reading.start.gives head := by
  have read := literal_head_append ends (List.forall_mem_nil fun c => isBare c = true)
  rwa [List.append_nil, List.append_nil] at read

theorem literal_head_endsAt (ends : Text.EndsAt ',' head) : Text.EndsAt ',' (literal head) := by
  rw [literal_head ends]
  rcases ends with rfl | ⟨front, rfl⟩
  · exact .inl rfl
  · refine .inr ⟨Reading.start.gives front, ?_⟩
    rw [Reading.gives_append, Reading.gives, Reading.output_bare rfl]
    rfl

/-! ## Entries -/

theorem entriesOf_append_break (breaks : isEntryBreak c = true) (front behind : Text) :
    entriesOf (front ++ c :: behind) = entriesOf front ++ entriesOf behind :=
  Text.filledFields_append_break breaks front behind

theorem entriesOf_concat_comma (front : Text) : entriesOf (front ++ [',']) = entriesOf front :=
  (entriesOf_append_break rfl front []).trans (List.append_nil _)

/-- A list that ends in a comma has the entries in front of it, and then those behind it. -/
theorem entriesOf_append {value : Text} (ends : Text.EndsAt ',' value) (more : Text) :
    entriesOf (value ++ more) = entriesOf value ++ entriesOf more := by
  rcases ends with rfl | ⟨front, rfl⟩
  · rfl
  · rw [entriesOf_concat_comma, List.append_assoc, List.singleton_append, entriesOf_append_break rfl]

theorem entriesOf_of_free (some : name ≠ []) (free : ∀ c ∈ name, isEntryBreak c = false) :
    entriesOf name = [name] :=
  Text.filledFields_of_free some free

/-- Whether a text is one entry of a list wherever it is written behind a comma. -/
def isEntry (name : Text) : Bool :=
  !name.isEmpty && name.all fun c => isBare c && !isEntryBreak c

theorem isEntry_iff :
    isEntry name = true ↔ name ≠ [] ∧ ∀ c ∈ name, isBare c = true ∧ isEntryBreak c = false := by
  simp [isEntry]

theorem entriesOf_comma (entry : isEntry name = true) : entriesOf (name ++ [',']) = [name] := by
  obtain ⟨some, whole⟩ := isEntry_iff.mp entry
  rw [entriesOf_concat_comma, entriesOf_of_free some fun c member => (whole c member).2]

/-- An entry and a comma behind the head of a list add the entry. -/
theorem entries_append_comma (ends : Text.EndsAt ',' head) (entry : isEntry name = true) :
    entries (head ++ (name ++ [','])) = entries head ++ [name] := by
  have bare : ∀ c ∈ name ++ [','], isBare c = true := by
    intro c member
    rcases List.mem_append.mp member with inside | comma
    · exact ((isEntry_iff.mp entry).2 c inside).1
    · cases List.mem_singleton.mp comma
      rfl
  rw [entries, literal_head_append ends bare, ← literal_head ends,
    entriesOf_append (literal_head_endsAt ends), entriesOf_comma entry, entries]

theorem mem_remaining {raw : Text} {known : List Text} :
    name ∈ remaining raw known ↔ name ∈ known ∧ name ∉ entries raw := by
  simp [remaining]

/-- What remains behind a further entry is what remained, without the entry. -/
theorem remaining_append_comma {known : List Text} (distinct : known.Nodup)
    (ends : Text.EndsAt ',' head) (entry : isEntry name = true) :
    remaining (head ++ (name ++ [','])) known = (remaining head known).erase name := by
  rw [remaining, remaining, (distinct.filter _).erase_eq_filter, List.filter_filter,
    entries_append_comma ends entry]
  refine List.filter_congr fun value _ => ?_
  rw [Bool.eq_iff_iff]
  simp [and_comm]

/-- One name fewer remains behind each entry that remained. -/
theorem length_remaining_append_comma {known : List Text} (distinct : known.Nodup)
    (ends : Text.EndsAt ',' head) (entry : isEntry name = true) (remains : name ∈ remaining head known) :
    (remaining (head ++ (name ++ [','])) known).length + 1 = (remaining head known).length := by
  rw [remaining_append_comma distinct ends entry, List.length_erase_of_mem remains]
  exact Nat.sub_add_cancel (List.length_pos_of_mem remains)

/-! ## Lists in which names are filled in -/

/-- What a list has become when some known names were chosen one after the other. -/
structure Grows (known : List Text) (head : Text) (names : List Text) (after : Text) : Prop where
  entries_eq : entries after = entries head ++ names
  distinct : names.Nodup
  fresh : ∀ name ∈ names, name ∈ remaining head known
  count : (remaining after known).length + names.length = (remaining head known).length

namespace Grows

variable {known names : List Text} {after : Text}

theorem start (known : List Text) (head : Text) : Grows known head [] head where
  entries_eq := (List.append_nil _).symm
  distinct := List.nodup_nil
  fresh := List.forall_mem_nil _
  count := rfl

/-- One more of the names that remain is chosen. -/
theorem round (grows : Grows known head names after) (each : known.Nodup)
    (ends : Text.EndsAt ',' after) (entry : isEntry name = true) (remains : name ∈ remaining after known) :
    Grows known head (names ++ [name]) (after ++ (name ++ [','])) := by
  obtain ⟨listed, notYet⟩ := mem_remaining.mp remains
  rw [grows.entries_eq, List.mem_append, not_or] at notYet
  constructor
  case entries_eq => rw [entries_append_comma ends entry, grows.entries_eq, List.append_assoc]
  case distinct => simpa using grows.distinct.concat notYet.2
  case fresh =>
    intro chosen member
    rcases List.mem_append.mp member with before | last
    · exact grows.fresh chosen before
    · rw [List.mem_singleton.mp last]
      exact mem_remaining.mpr ⟨listed, notYet.1⟩
  case count =>
    have fewer := length_remaining_append_comma each ends entry remains
    have count := grows.count
    rw [List.length_append, List.length_singleton]
    omega

theorem remaining_eq (grows : Grows known head names after) :
    remaining after known =
      known.filter fun name => !(entries head).contains name && !names.contains name := by
  rw [remaining, grows.entries_eq]
  refine List.filter_congr fun name _ => ?_
  simp

end Grows

end SerialCompletion.Word
