import Mathlib.Logic.ExistsUnique
import SerialCompletion.Settings.Basic

/-!
# What validation accepts

Character classes pass validation exactly when there is a delimiter, no
character has a meaning that is fixed, and no separator delimits.  In other
words, there is a delimiter, and every character plays exactly one role.  The
standard settings are valid in every home directory.
-/

namespace SerialCompletion

theorem not_holdsReserved_iff (characters : Text) :
    holdsReserved characters = false ↔ ∀ c ∈ reservedChars, characters.contains c = false := by
  rw [holdsReserved, List.any_eq_false]
  constructor
  · intro spared c reserved
    rw [Bool.eq_false_iff]
    intro holds
    exact spared c (List.contains_iff_mem.mp holds) (List.contains_iff_mem.mpr reserved)
  · intro spared c member reserved
    have absent := spared c (List.contains_iff_mem.mp reserved)
    rw [List.contains_iff_mem.mpr member] at absent
    cases absent

namespace Line.Classes

theorem fault?_eq_none_iff (classes : Classes) :
    classes.fault? = none ↔ classes.delimiters ≠ [] ∧
      (∀ c ∈ reservedChars, classes.isDelimiter c = false) ∧
      (∀ c ∈ reservedChars, classes.isSeparator c = false) ∧
      ∀ c ∈ classes.separators, classes.isDelimiter c = false := by
  have delimiters := not_holdsReserved_iff classes.delimiters
  have separators := not_holdsReserved_iff classes.separators
  simp only [isDelimiter, isSeparator] at *
  rw [← delimiters, ← separators]
  unfold fault?
  split
  case isTrue empty => simp_all
  case isFalse some =>
    split
    case isTrue reserved => simp_all
    case isFalse spared =>
      split
      case isTrue reserved => simp_all
      case isFalse sparedToo =>
        split
        case isTrue shared => simp_all [isDelimiter]
        case isFalse apart => simp_all [isDelimiter]

end Line.Classes

/-! ## Roles of characters -/

namespace Line

inductive Role where
  | delimiter
  | separator
  | quoteOpener
  | escape
  | dollar
  | ordinary
  deriving DecidableEq, Repr

theorem mem_reservedChars_iff {c : Char} :
    c ∈ reservedChars ↔ isQuoteOpener c = true ∨ c = '\\' ∨ c = '$' := by
  simp [reservedChars, isQuoteOpener, or_assoc]

namespace Classes

variable {classes : Classes} {c : Char} {role : Role}

def Plays (classes : Classes) (c : Char) : Role → Prop
  | .delimiter => classes.isDelimiter c = true
  | .separator => classes.isSeparator c = true
  | .quoteOpener => isQuoteOpener c = true
  | .escape => c = '\\'
  | .dollar => c = '$'
  | .ordinary =>
      classes.isDelimiter c = false ∧ classes.isSeparator c = false ∧ c ∉ reservedChars

/-- The role that the splitter sees in a character of a bare word. -/
def roleOf (classes : Classes) (c : Char) : Role :=
  if classes.isDelimiter c then .delimiter
  else if classes.isSeparator c then .separator
  else if isQuoteOpener c then .quoteOpener
  else if c = '\\' then .escape
  else if c = '$' then .dollar
  else .ordinary

theorem plays_roleOf (classes : Classes) (c : Char) : classes.Plays c (classes.roleOf c) := by
  unfold roleOf
  split
  case isTrue delimits => exact delimits
  case isFalse noDelimiter =>
    split
    case isTrue separates => exact separates
    case isFalse noSeparator =>
      split
      case isTrue opens => exact opens
      case isFalse noOpener =>
        split
        case isTrue escapes => exact escapes
        case isFalse noEscape =>
          split
          case isTrue expands => exact expands
          case isFalse noDollar =>
            refine ⟨Bool.eq_false_iff.mpr noDelimiter, Bool.eq_false_iff.mpr noSeparator, ?_⟩
            simp [mem_reservedChars_iff, noOpener, noEscape, noDollar]

/-- Where the sets are apart and spare the reserved characters, no character plays another role. -/
theorem Plays.eq_roleOf (plays : classes.Plays c role)
    (apart : classes.isSeparator c = true → classes.isDelimiter c = false)
    (spared : c ∈ reservedChars → classes.isDelimiter c = false ∧ classes.isSeparator c = false) :
    role = classes.roleOf c := by
  rw [mem_reservedChars_iff] at spared
  unfold roleOf
  cases role with
  | delimiter => exact (if_pos plays).symm
  | separator =>
      have separates : classes.isSeparator c = true := plays
      simp [apart separates, separates]
  | quoteOpener =>
      have opens : isQuoteOpener c = true := plays
      obtain ⟨noDelimiter, noSeparator⟩ := spared (.inl opens)
      simp [noDelimiter, noSeparator, opens]
  | escape =>
      obtain ⟨noDelimiter, noSeparator⟩ := spared (.inr (.inl plays))
      cases plays
      simp [noDelimiter, noSeparator, isQuoteOpener]
  | dollar =>
      obtain ⟨noDelimiter, noSeparator⟩ := spared (.inr (.inr plays))
      cases plays
      simp [noDelimiter, noSeparator, isQuoteOpener]
  | ordinary =>
      obtain ⟨noDelimiter, noSeparator, free⟩ := plays
      rw [mem_reservedChars_iff, not_or, not_or] at free
      simp [noDelimiter, noSeparator, free]

/-- Validation accepts the classes that have a delimiter and give every character one role. -/
theorem fault?_eq_none_iff_roles (classes : Classes) :
    classes.fault? = none ↔ classes.delimiters ≠ [] ∧ ∀ c, ∃! role, classes.Plays c role := by
  rw [fault?_eq_none_iff]
  constructor
  · rintro ⟨some, delimiters, separators, apart⟩
    refine ⟨some, fun c => ⟨classes.roleOf c, classes.plays_roleOf c, ?_⟩⟩
    intro role plays
    refine plays.eq_roleOf (fun separates => ?_) fun reserved => ?_
    · exact apart c (List.contains_iff_mem.mp separates)
    · exact ⟨delimiters c reserved, separators c reserved⟩
  · rintro ⟨some, unique⟩
    -- A reserved character plays a role of its own, so it can play no other.
    have spares (role : Role) (other : role = .delimiter ∨ role = .separator) (c : Char)
        (reserved : c ∈ reservedChars) : ¬ classes.Plays c role := by
      intro plays
      rcases mem_reservedChars_iff.mp reserved with opens | escapes | expands
      · have same := (unique c).unique plays (show classes.Plays c .quoteOpener from opens)
        simp [same] at other
      · have same := (unique c).unique plays (show classes.Plays c .escape from escapes)
        simp [same] at other
      · have same := (unique c).unique plays (show classes.Plays c .dollar from expands)
        simp [same] at other
    refine ⟨some, fun c reserved => ?_, fun c reserved => ?_, fun c separates => ?_⟩
    · exact Bool.eq_false_iff.mpr (spares .delimiter (.inl rfl) c reserved)
    · exact Bool.eq_false_iff.mpr (spares .separator (.inr rfl) c reserved)
    · rw [Bool.eq_false_iff]
      intro delimits
      have plays : classes.Plays c .separator := List.contains_iff_mem.mpr separates
      have same := (unique c).unique plays (show classes.Plays c .delimiter from delimits)
      cases same

/-- The sets of valid classes: a delimiter, nothing in both, and nothing with a fixed meaning. -/
theorem sets_of_valid (valid : classes.fault? = none) :
    classes.delimiters ≠ [] ∧ (∀ c ∈ classes.separators, c ∉ classes.delimiters) ∧
      ∀ c ∈ reservedChars, c ∉ classes.delimiters ∧ c ∉ classes.separators := by
  obtain ⟨some, delimiters, separators, apart⟩ := (fault?_eq_none_iff classes).mp valid
  simp only [isDelimiter, isSeparator, List.contains_eq_mem, decide_eq_false_iff_not] at *
  exact ⟨some, apart, fun c reserved => ⟨delimiters c reserved, separators c reserved⟩⟩

end Classes

end Line

/-! ## Settings -/

/-- The standard settings are valid in every home directory. -/
theorem Settings.fault?_standard (home : Text) : (Settings.standard home).fault? = none :=
  rfl

theorem Settings.fault?_lexer {settings : Settings} (valid : settings.fault? = none) :
    settings.lexer.fault? = none := by
  unfold Settings.fault? at valid
  cases found : settings.lexer.fault? with
  | none => rfl
  | some fault => simp [found] at valid

/-- Validation does not look at what is logged. -/
theorem Settings.fault?_withLogging (settings : Settings) (logging : LoggingSettings) :
    Settings.fault? { settings with logging := logging } = settings.fault? :=
  rfl

end SerialCompletion
