import Mathlib.Data.Set.Finite.Basic
import SerialCompletion.Proofs.Word.Entries

/-!
# The entry that a list word leaves open

The value of a list word is the value of its head, up to the last comma, and
behind it the value of the fragment, read in the quotes that the head leaves
open.  The fragment on its own may have another value, but only where it holds
a quote or a backslash that these quotes read in their own way.  Of two values
that no name can tell apart, either both are the same or no name begins with
either of them.
-/

namespace SerialCompletion.Word

/-- The value of a list word behind the value of its head. -/
def openEntry (raw : Text) : Text :=
  (literal raw).drop (literal (Text.cutAfterLast ',' raw).1).length

/-- The value of a list word goes on behind the value of its head. -/
theorem literal_eq_append_openEntry (raw : Text) :
    literal raw = literal (Text.cutAfterLast ',' raw).1 ++ openEntry raw ∧
      openEntry raw = literalFrom (Reading.start.run (Text.cutAfterLast ',' raw).1)
        (Text.cutAfterLast ',' raw).2 := by
  have read : literal raw = literal (Text.cutAfterLast ',' raw).1 ++
      literalFrom (Reading.start.run (Text.cutAfterLast ',' raw).1)
        (Text.cutAfterLast ',' raw).2 := by
    rw [literal_head (Text.cutAfterLast_fst ',' raw), ← literalFrom_append, Text.cutAfterLast_append]
    rfl
  have behind : openEntry raw = literalFrom (Reading.start.run (Text.cutAfterLast ',' raw).1)
      (Text.cutAfterLast ',' raw).2 := by
    rw [openEntry, read, List.drop_left]
  exact ⟨read.trans (by rw [behind]), behind⟩

/-! ## Fragments in quotes and on their own -/

section Fragments

variable {c : Char} {text : Text}

theorem literalFrom_cons_bare (bare : isBare c = true) (reading : Reading) (rest : Text) :
    literalFrom reading (c :: rest) = c :: literalFrom ⟨reading.quotation, false⟩ rest := by
  rw [literalFrom, Reading.output_bare bare, Reading.next_bare bare]
  rfl

/-- Without single quotes a text has the same value outside quotes and in double quotes: a double
quote exchanges the two. -/
theorem literalFrom_outside_eq_double (noSingle : '\'' ∉ text) (escaped : Bool) :
    literalFrom ⟨.outside, escaped⟩ text = literalFrom ⟨.double, escaped⟩ text := by
  induction text generalizing escaped with
  | nil => rfl
  | cons c rest ih =>
      rw [List.mem_cons, not_or] at noSingle
      cases escaped with
      | true => exact congrArg ([c] ++ ·) (ih noSingle.2 false)
      | false =>
          by_cases quote : c = '"'
          · subst quote
            exact (ih noSingle.2 false).symm
          · by_cases escape : c = '\\'
            · subst escape
              exact ih noSingle.2 true
            · have bare : isBare c = true := by simp [isBare, quote, escape, Ne.symm noSingle.1]
              rw [literalFrom_cons_bare bare, literalFrom_cons_bare bare, ih noSingle.2 false]

/-- Without double quotes and backslashes a text has the same value outside quotes and in single
quotes: a single quote exchanges the two. -/
theorem literalFrom_outside_eq_single (noDouble : '"' ∉ text) (noEscape : '\\' ∉ text) :
    literalFrom ⟨.outside, false⟩ text = literalFrom ⟨.single, false⟩ text := by
  induction text with
  | nil => rfl
  | cons c rest ih =>
      rw [List.mem_cons, not_or] at noDouble noEscape
      by_cases quote : c = '\''
      · subst quote
        exact (ih noDouble.2 noEscape.2).symm
      · have bare : isBare c = true := by
          simp [isBare, quote, Ne.symm noDouble.1, Ne.symm noEscape.1]
        rw [literalFrom_cons_bare bare, literalFrom_cons_bare bare, ih noDouble.2 noEscape.2]

/-- Where the fragment holds nothing that the open quotes read in their own way, it has the same
value on its own. -/
theorem literal_fragment_eq_openEntry (raw : Text) :
    let fragment := (Text.cutAfterLast ',' raw).2
    let quotation := (Reading.start.run (Text.cutAfterLast ',' raw).1).quotation
    (quotation = .outside → literal fragment = openEntry raw) ∧
      (quotation = .double → '\'' ∉ fragment → literal fragment = openEntry raw) ∧
      (quotation = .single → '"' ∉ fragment → '\\' ∉ fragment →
        literal fragment = openEntry raw) := by
  intro fragment quotation
  have calm := run_head_calm (Text.cutAfterLast_fst ',' raw)
  have within : openEntry raw = literalFrom ⟨quotation, false⟩ fragment := by
    rw [(literal_eq_append_openEntry raw).2, ← calm]
  refine ⟨?_, ?_, ?_⟩
  · intro outside
    rw [within, outside]
    rfl
  · intro double noSingle
    rw [within, double]
    exact literalFrom_outside_eq_double noSingle false
  · intro single noDouble noEscape
    rw [within, single]
    exact literalFrom_outside_eq_single noDouble noEscape

end Fragments

/-! ## Names that tell values apart -/

def isFree (text : Text) : Bool :=
  text.all fun c => isBare c && !isEntryBreak c

section Names

variable {first second : Text} {c : Char}

theorem isFree_append : isFree (first ++ second) = (isFree first && isFree second) :=
  List.all_append

theorem isFree_of_begins (begins : first <+: second) (free : isFree second = true) :
    isFree first = true := by
  obtain ⟨more, rfl⟩ := begins
  rw [isFree_append, Bool.and_eq_true] at free
  exact free.1

theorem isBare_of_isFree (free : isFree first = true) : ∀ c ∈ first, isBare c = true := by
  intro c member
  have both := List.all_eq_true.mp free c member
  rw [Bool.and_eq_true] at both
  exact both.1

theorem isFree_replicate (plain : isFree [c] = true) (count : Nat) :
    isFree (List.replicate count c) = true := by
  apply List.all_eq_true.mpr
  intro d member
  rw [List.eq_of_mem_replicate member]
  exact List.all_eq_true.mp plain c List.mem_cons_self

/-- Some run of a character makes a text different from all texts of a list. -/
theorem exists_replicate_not_mem (taken : List Text) (text : Text) (c : Char) :
    ∃ count, text ++ List.replicate count c ∉ taken := by
  have injective : Function.Injective fun count => text ++ List.replicate count c :=
    (List.append_right_injective text).comp (List.replicate_left_injective c)
  obtain ⟨_, ⟨count, rfl⟩, fresh⟩ :=
    (Set.infinite_range_of_injective injective).exists_notMem_finite taken.finite_toSet
  exact ⟨count, fresh⟩

/-- Whether the second text stands in front of all names that the first stands in front of, but
for some names that are taken. -/
def Precedes (taken : List Text) (first second : Text) : Prop :=
  ∀ name, isFree name = true → name ∉ taken → first <+: name → second <+: name

theorem Precedes.prefix_or {taken : List Text} (precedes : Precedes taken first second)
    (free : isFree first = true) (plain : isFree [c] = true) :
    second <+: first ∨ ∃ rest, second = first ++ c :: rest := by
  obtain ⟨count, fresh⟩ := exists_replicate_not_mem taken first c
  have begins : second <+: first ++ List.replicate count c := by
    refine precedes _ ?_ fresh (List.prefix_append _ _)
    rw [isFree_append, free, isFree_replicate plain]
    rfl
  rcases List.prefix_or_prefix_of_prefix begins (List.prefix_append _ _) with shorter | longer
  · exact .inl shorter
  · obtain ⟨more, rfl⟩ := longer
    rw [List.prefix_append_right_inj] at begins
    cases more with
    | nil => exact .inl (by simp)
    | cons d rest =>
        have same : d = c := List.eq_of_mem_replicate (begins.subset List.mem_cons_self)
        exact .inr ⟨rest, by rw [same]⟩

theorem Precedes.isPrefix {taken : List Text} (precedes : Precedes taken first second)
    (free : isFree first = true) : second <+: first := by
  -- Two characters behind the first text cannot both go on with the second.
  rcases precedes.prefix_or (c := 'a') free rfl with shorter | ⟨rest, goesOn⟩
  · exact shorter
  · rcases precedes.prefix_or (c := 'b') free rfl with shorter | ⟨others, differs⟩
    · exact shorter
    · cases List.append_cancel_left (goesOn.symm.trans differs)

/-- Two texts that stand in front of the same names are equal, or stand in front of none. -/
theorem eq_or_of_precedes {taken : List Text} (ahead : Precedes taken first second)
    (behind : Precedes taken second first) :
    first = second ∨ isFree first = false ∧ isFree second = false := by
  cases free : isFree first with
  | true =>
      have shorter := ahead.isPrefix free
      have longer := behind.isPrefix (isFree_of_begins shorter free)
      exact .inl (longer.eq_of_length_le shorter.length_le)
  | false =>
      refine .inr ⟨rfl, Bool.eq_false_iff.mpr fun other => ?_⟩
      have begins := behind.isPrefix other
      rw [isFree_of_begins begins other] at free
      cases free

end Names

end SerialCompletion.Word
