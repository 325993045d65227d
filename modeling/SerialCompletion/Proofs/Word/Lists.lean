import SerialCompletion.Proofs.Word.Entries
import SerialCompletion.Proofs.Word.Quoting

/-!
# List words that are put together

Behind a list word that leaves no quote and no escape open, a comma begins a
list word of its own, so the entries of the two stand one behind the other.
What remains of the known values depends on the set of the entries alone: it
is the same in every order and with every repetition.  A name that is written
in quotes, behind backslashes or bare is one entry, and so are names with
commas or white space between them, in one quoted span or in several.
-/

namespace SerialCompletion.Word

/-! ## Written names -/

def escapeQuote (c : Char) : Text :=
  if c = '"' ∨ c = '\\' then escape c else [c]

inductive Style : Text → Text → Prop where
  | bare {part : Text} (plain : ∀ c ∈ part, isBare c = true) : Style part part
  | singleQuoted {part : Text} (noQuote : '\'' ∉ part) : Style part (['\''] ++ part ++ ['\''])
  | doubleQuoted (part : Text) : Style part (['"'] ++ part.flatMap escapeQuote ++ ['"'])
  | escaped (part : Text) : Style part (part.flatMap escape)

/-- Texts written in parts, each in a style of its own. -/
inductive Mixture : Text → Text → Prop where
  | nil : Mixture [] []
  | cons {part more written others : Text} (style : Style part written)
      (rest : Mixture more others) : Mixture (part ++ more) (written ++ others)

/-- Names with commas or white space between them. -/
inductive Listed : List Text → Text → Prop where
  | nil : Listed [] []
  | single (name : Text) : Listed [name] name
  | cons {names : List Text} {text : Text} (name : Text) {gap : Text} (some : gap ≠ [])
      (breaks : ∀ c ∈ gap, isEntryBreak c = true) (more : names ≠ []) (rest : Listed names text) :
      Listed (name :: names) (name ++ (gap ++ text))

/-- Whether a text is an entry by its characters: there are some, and none breaks a list. -/
def Unbroken (name : Text) : Prop :=
  name ≠ [] ∧ ∀ c ∈ name, isEntryBreak c = false

instance (name : Text) : Decidable (Unbroken name) :=
  @instDecidableAnd _ _ _ (List.decidableBAll _ name)

section Writing

variable {part text written : Text}

theorem returns_escapeQuote (c : Char) : Returns ⟨.double, false⟩ (escapeQuote c) [c] := by
  unfold escapeQuote
  split
  case isTrue => exact returns_escape Quotation.noConfusion c
  case isFalse plain =>
    rw [not_or] at plain
    constructor <;> simp [Reading.gives, Reading.run, Reading.output, Reading.next, plain]

/-- The reading comes back to its beginning behind every style. -/
theorem Style.returns (style : Style part written) : Returns Reading.start written part := by
  cases style with
  | bare plain => exact returns_of_bare rfl plain
  | singleQuoted noQuote =>
      have inside (c : Char) (member : c ∈ part) : Returns ⟨.single, false⟩ [c] [c] := by
        apply returns_single
        rintro rfl
        exact noQuote member
      have each := Returns.flatMap inside
      rw [List.flatMap_singleton'] at each
      exact .wrap rfl rfl each rfl rfl
  | doubleQuoted => exact .wrap rfl rfl (.flatMap fun c _ => returns_escapeQuote c) rfl rfl
  | escaped => exact .flatMap fun c _ => returns_escape Quotation.noConfusion c

theorem Style.mixture (style : Style part written) : Mixture part written := by
  have alone := Mixture.cons style .nil
  rwa [List.append_nil, List.append_nil] at alone

theorem Mixture.returns (mixture : Mixture text written) : Returns Reading.start written text := by
  induction mixture with
  | nil => exact .nil _
  | cons style _ ih => exact style.returns.append ih

end Writing

/-! ## Entries of lists -/

section Lists

variable {first : Text} {names writings : List Text}

/-- A comma behind a list word that leaves nothing open begins another list. -/
theorem entries_append (ended : Reading.start.run first = Reading.start) (second : Text) :
    entries (first ++ ',' :: second) = entries first ++ entries second := by
  have comma : literal (',' :: second) = ',' :: literal second := rfl
  rw [entries, literal_append_of_returns (returns_of_run ended), comma, entriesOf_append_break rfl]
  rfl

theorem entriesOf_listed {text : Text} (listed : Listed names text)
    (unbroken : ∀ name ∈ names, Unbroken name) : entriesOf text = names := by
  induction listed with
  | nil => rfl
  | single name =>
      obtain ⟨filled, free⟩ := unbroken name List.mem_cons_self
      exact entriesOf_of_free filled free
  | @cons names text name gap some breaks _ _ ih =>
      obtain ⟨⟨filled, free⟩, others⟩ := List.forall_mem_cons.mp unbroken
      obtain ⟨c, gap, rfl⟩ := List.exists_cons_of_ne_nil some
      have behind : Text.filledFields isEntryBreak (c :: (gap ++ text)) = names :=
        (Text.filledFields_gap_append breaks text).trans (ih others)
      change Text.filledFields isEntryBreak (name ++ c :: (gap ++ text)) = _
      rw [Text.filledFields_append_of_free filled free (breaks c List.mem_cons_self), behind]

/-- Written names with commas between them have the names as entries. -/
theorem entries_join (each : List.Forall₂ Mixture names writings)
    (unbroken : ∀ name ∈ names, Unbroken name) : entries (List.intercalate [','] writings) = names := by
  induction each with
  | nil => rfl
  | @cons name written names writings mixture each ih =>
      obtain ⟨⟨filled, free⟩, others⟩ := List.forall_mem_cons.mp unbroken
      have alone : entries written = [name] := by
        rw [entries, mixture.returns.literal, entriesOf_of_free filled free]
      cases each with
      | nil => rwa [List.intercalate_singleton]
      | cons next rest =>
          rw [Text.intercalate_mark_cons written (List.cons_ne_nil _ _),
            entries_append mixture.returns.run, alone, ih others]
          rfl

end Lists

/-! ## What remains -/

section Remaining

variable {raw first second : Text} {known names : List Text}

theorem remaining_of_entries (read : entries raw = names) :
    remaining raw known = known.filter fun value => !names.contains value := by
  rw [remaining, read]

theorem remaining_congr (same : ∀ entry, entry ∈ entries first ↔ entry ∈ entries second) :
    remaining first known = remaining second known := by
  refine List.filter_congr fun value _ => ?_
  have equal : (entries first).contains value = (entries second).contains value := by
    rw [Bool.eq_iff_iff, List.contains_iff_mem, List.contains_iff_mem]
    exact same value
  rw [equal]

theorem remaining_append (ended : Reading.start.run first = Reading.start) (second : Text)
    (known : List Text) :
    remaining (first ++ ',' :: second) known = remaining second (remaining first known) := by
  rw [remaining, remaining, remaining, List.filter_filter, entries_append ended]
  refine List.filter_congr fun value _ => ?_
  rw [Bool.eq_iff_iff]
  simp [and_comm]

end Remaining

/--
Lists act by the set of their entries.  Behind a list word that leaves no quote
and no escape open, a comma and a second list word take away what each of the
two takes away, in either order if the second leaves nothing open either, and
nothing more if the second only repeats entries of the first.  For names
without commas and white space that are written in any mixture of styles, with
commas between them, or written together with commas or white space between
them, what remains are the known values that are none of the names, in their
order and as often as they are known.
-/
theorem remaining_lists (known : List Text) :
    (∀ first second : Text, Reading.start.run first = Reading.start →
      remaining (first ++ ',' :: second) known = remaining second (remaining first known) ∧
      (Reading.start.run second = Reading.start →
        remaining (first ++ ',' :: second) known = remaining (second ++ ',' :: first) known) ∧
      ((∀ entry ∈ entries second, entry ∈ entries first) →
        remaining (first ++ ',' :: second) known = remaining first known)) ∧
    ∀ names : List Text, (∀ name ∈ names, Unbroken name) →
      (∀ writings, List.Forall₂ Mixture names writings →
        remaining (List.intercalate [','] writings) known =
          known.filter fun value => !names.contains value) ∧
      ∀ text written, Listed names text → Mixture text written →
        remaining written known = known.filter fun value => !names.contains value := by
  constructor
  · intro first second ended
    refine ⟨remaining_append ended second known, fun endedToo => ?_, fun repeats => ?_⟩
    · apply remaining_congr
      intro entry
      rw [entries_append ended, entries_append endedToo, List.mem_append, List.mem_append, or_comm]
    · apply remaining_congr
      intro entry
      rw [entries_append ended, List.mem_append]
      exact ⟨fun either => either.elim id (repeats entry), .inl⟩
  · intro names unbroken
    refine ⟨fun writings each => ?_, fun text written listed mixture => ?_⟩
    · exact remaining_of_entries (entries_join each unbroken)
    · refine remaining_of_entries ?_
      rw [entries, mixture.returns.literal, entriesOf_listed listed unbroken]

/-- An open quote behind a comma, another order, a repetition, names in mixed styles, and names in
one quoted span. -/
theorem remaining_lists_quoted :
    let known : List Text := ["crlf", "igncr", "crlf", "lfcr"]
    let first : Text := "'crl'f"
    let second : Text := "ign\\cr"
    Reading.start.run first = Reading.start ∧ Reading.start.run second = Reading.start ∧
      remaining (first ++ ',' :: "\"igncr") known = ["lfcr"] ∧
      remaining (first ++ ',' :: second) known = remaining (second ++ ',' :: first) known ∧
      remaining (first ++ ',' :: "crlf,") known = remaining first known ∧
      remaining "'cr'lf,\\\"\\b" known = ["igncr", "lfcr"] ∧
      remaining "'crlf\t, igncr'" known = ["lfcr"] := by
  intro known first second
  have firstEnds : Reading.start.run first = Reading.start := by decide +kernel
  have secondEnds : Reading.start.run second = Reading.start := by decide +kernel
  obtain ⟨lists, writings⟩ := remaining_lists known
  have single : Style ['c', 'r'] ['\'', 'c', 'r', '\''] := .singleQuoted (by decide)
  have bare : Style ['l', 'f'] ['l', 'f'] := .bare (List.all_eq_true.mp (by decide))
  have slashed : Style ['"', 'b'] ['\\', '"', '\\', 'b'] := .escaped ['"', 'b']
  have written : List.Forall₂ Mixture ["crlf", "\"b"] ["'cr'lf", "\\\"\\b"] :=
    .cons (.cons single bare.mixture) (.cons slashed.mixture .nil)
  have listed : Listed ["crlf", "igncr"] "crlf\t, igncr" :=
    .cons "crlf" (List.cons_ne_nil '\t' [',', ' ']) (List.all_eq_true.mp (by decide))
      (List.cons_ne_nil _ _) (.single "igncr")
  have span : Style "crlf\t, igncr" "'crlf\t, igncr'" := .singleQuoted (by decide)
  have mixed := (writings ["crlf", "\"b"] (by decide)).1 _ written
  have spanned := (writings ["crlf", "igncr"] (by decide)).2 _ _ listed span.mixture
  refine ⟨firstEnds, secondEnds, ?_, (lists first second firstEnds).2.1 secondEnds,
    (lists first "crlf," firstEnds).2.2 (by decide +kernel), ?_, ?_⟩
  · exact (lists first "\"igncr" firstEnds).1.trans (by decide +kernel)
  · exact mixed.trans (by decide +kernel)
  · exact spanned.trans (by decide +kernel)

end SerialCompletion.Word
