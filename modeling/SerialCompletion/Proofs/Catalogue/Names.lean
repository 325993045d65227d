import Mathlib.Data.List.Nodup
import Mathlib.Data.List.Pairwise
import SerialCompletion.Catalogue.Options

/-!
# Names of the tables

Option spellings, fixed values and mapping names are written in letters,
digits and dashes.  No other character stands in any of them, so nothing that
quotes, escapes or breaks a line does.  No table holds a text twice.
-/

namespace SerialCompletion.Catalogue

/-- The texts that the tables hold: option spellings, fixed values and mapping names. -/
def IsName (text : Text) : Prop :=
  text ∈ optionNames ∨ (∃ kind : ArgumentKind, text ∈ kind.fixedValues?.getD []) ∨ text ∈ mapNames

def isPlain (text : Text) : Bool :=
  !text.isEmpty && text.all fun c => c.isAlphanum || c == '-'

/-- A number for a text: the codes of its characters, as digits behind a leading one. -/
def codeNumber (text : Text) : Nat :=
  Text.digitsFrom 256 1 (text.map Char.toNat)

/-- A table of plain names, all of them with a dash or none, in which no name stands twice. -/
def isTable (dashed : Bool) (names : List Text) : Bool :=
  (names.all fun name => isPlain name && name.contains '-' == dashed) &&
    decide (names.map codeNumber).Nodup

section Tables

variable {dashed : Bool} {names : List Text}

theorem all_of_isTable (table : isTable dashed names = true) :
    ∀ name ∈ names, isPlain name = true ∧ name.contains '-' = dashed := by
  rw [isTable, Bool.and_eq_true, List.all_eq_true] at table
  intro name listed
  simpa using table.1 name listed

theorem nodup_of_isTable (table : isTable dashed names = true) : names.Nodup := by
  rw [isTable, Bool.and_eq_true, decide_eq_true_eq] at table
  exact .of_map codeNumber table.2

end Tables

theorem isTable_optionNames : isTable true optionNames = true := by
  decide +kernel

theorem isTable_fixedValues (kind : ArgumentKind) :
    isTable false (kind.fixedValues?.getD []) = true := by
  cases kind <;> decide +kernel

theorem isTable_mapNames : isTable false mapNames = true := by
  decide +kernel

/-! ## The characters of a name -/

theorem IsName.isPlain {text : Text} (named : IsName text) : isPlain text = true := by
  rcases named with option | ⟨kind, value⟩ | map
  · exact (all_of_isTable isTable_optionNames text option).1
  · exact (all_of_isTable (isTable_fixedValues kind) text value).1
  · exact (all_of_isTable isTable_mapNames text map).1

theorem IsName.ne_nil {text : Text} (named : IsName text) : text ≠ [] := by
  rintro rfl
  cases named.isPlain

theorem IsName.char {text : Text} (named : IsName text) {c : Char} (member : c ∈ text) :
    c.isAlphanum = true ∨ c = '-' := by
  have plain := named.isPlain
  rw [Catalogue.isPlain, Bool.and_eq_true, List.all_eq_true] at plain
  simpa using plain.2 c member

theorem IsName.not_mem {text : Text} (named : IsName text) {c : Char}
    (other : (c.isAlphanum || c == '-') = false) : c ∉ text := by
  intro member
  rcases named.char member with alphanumeric | rfl
  · rw [alphanumeric] at other
    cases other
  · cases other

/-! ## Looking up an option -/

/-- No spelling stands for two options. -/
theorem findOption?_of_mem_spellings {entry : OptionEntry} (listed : entry ∈ options)
    {spelling : Text} (spelled : spelling ∈ entry.spellings) :
    findOption? spelling = some entry := by
  cases found : findOption? spelling with
  | none =>
      exact absurd (List.contains_iff_mem.mpr spelled) (List.find?_eq_none.mp found entry listed)
  | some other =>
      have among : other ∈ options := List.mem_of_find?_eq_some found
      have spells : spelling ∈ other.spellings := by
        rw [findOption?, List.find?_eq_some_iff_append] at found
        exact List.contains_iff_mem.mp found.1
      have apart := (List.nodup_flatMap.mp (nodup_of_isTable isTable_optionNames)).2
      have symmetric : Std.Symm (Function.onFun List.Disjoint OptionEntry.spellings) :=
        ⟨fun _ _ => List.disjoint_symm⟩
      by_contra differs
      have disjoint := apart.forall among listed fun same => differs (congrArg some same)
      exact disjoint spells spelled

theorem noDash_fixedValues (kind : ArgumentKind) :
    ∀ value ∈ kind.fixedValues?.getD [], '-' ∉ value := by
  intro value listed
  have dash := (all_of_isTable (isTable_fixedValues kind) value listed).2
  simpa using dash

theorem findOption?_eq_none {word : Text} (noDash : '-' ∉ word) : findOption? word = none := by
  refine List.find?_eq_none.mpr fun entry listed spelled => noDash ?_
  have named : word ∈ optionNames :=
    List.mem_flatMap.mpr ⟨entry, listed, List.contains_iff_mem.mp spelled⟩
  exact List.contains_iff_mem.mp (all_of_isTable isTable_optionNames word named).2

theorem exists_entry_of_mem {name : Text} (member : name ∈ optionNames) :
    ∃ entry ∈ options, name ∈ entry.spellings :=
  List.mem_flatMap.mp member

end SerialCompletion.Catalogue
