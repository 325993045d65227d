import Mathlib.Data.List.SplitBy
import SerialCompletion.Proofs.Line.Breaks
import SerialCompletion.Proofs.Line.Grammar
import SerialCompletion.Proofs.Text.Pieces

/-!
# Runs of equal class

A text without quotes, escapes and expansions is split by the classes of its
characters alone.  Its maximal runs of equal class are its words, except that
the runs of delimiters are dropped.  The argument goes from run to run: a
run of delimiters leads to a gap, and every other run is absorbed as one word,
which the first character of the next run ends.
-/

namespace SerialCompletion.Line

inductive Kind where
  | delimiter
  | separator
  | other
  deriving DecidableEq, Repr

namespace Classes

def kind (classes : Classes) (c : Char) : Kind :=
  if classes.isDelimiter c then .delimiter
  else if classes.isSeparator c then .separator
  else .other

/-- The maximal runs of characters of equal class. -/
def runs (classes : Classes) (text : Text) : List Text :=
  text.splitBy fun c d => classes.kind c == classes.kind d

def isGap (classes : Classes) (text : Text) : Bool :=
  text.all classes.isDelimiter

/-- The empty word at the end of a text that is empty or ends in a delimiter. -/
def openWord (classes : Classes) (text : Text) : List Text :=
  if text.getLast?.all classes.isDelimiter then [[]] else []

def Disjoint (classes : Classes) : Prop :=
  ∀ c ∈ classes.separators, classes.isDelimiter c = false

instance (classes : Classes) : Decidable classes.Disjoint :=
  List.decidableBAll _ _

end Classes

structure Unquoted (text : Text) : Prop where
  noQuote : ∀ c ∈ text, isQuoteOpener c = false
  noEscape : '\\' ∉ text
  noParen : ¬ ['$', '('] <:+: text
  noBrace : ¬ ['$', '{'] <:+: text

theorem Unquoted.of_infix {part text : Text} (unquoted : Unquoted text) (within : part <:+: text) :
    Unquoted part where
  noQuote c member := unquoted.noQuote c (within.subset member)
  noEscape member := unquoted.noEscape (within.subset member)
  noParen inside := unquoted.noParen (inside.trans within)
  noBrace inside := unquoted.noBrace (inside.trans within)

/-! ## Classes of characters -/

section Kinds

variable {classes : Classes} {c : Char}

theorem Classes.kind_eq_delimiter_iff :
    classes.kind c = .delimiter ↔ classes.isDelimiter c = true := by
  unfold kind
  split
  · simp_all
  · split <;> simp_all

theorem Classes.kind_eq_separator_iff :
    classes.kind c = .separator ↔
      classes.isDelimiter c = false ∧ classes.isSeparator c = true := by
  unfold kind
  split
  · simp_all
  · split <;> simp_all

theorem Classes.kind_eq_other_iff :
    classes.kind c = .other ↔ classes.isDelimiter c = false ∧ classes.isSeparator c = false := by
  unfold kind
  split
  · simp_all
  · split <;> simp_all

theorem Classes.Disjoint.noSeparator (disjoint : classes.Disjoint) (other : classes.kind c ≠ .separator) :
    classes.isSeparator c = false := by
  rw [Bool.eq_false_iff]
  intro separates
  refine other (kind_eq_separator_iff.mpr ⟨?_, separates⟩)
  exact disjoint c (List.contains_iff_mem.mp separates)

end Kinds

/-- Texts that each hold characters of one class, other than the class of what follows. -/
inductive Runs (classes : Classes) : List Text → Prop where
  | nil : Runs classes []
  | cons {run : Text} {rest : List Text} (kind : Kind) (some : run ≠ [])
      (each : ∀ c ∈ run, classes.kind c = kind)
      (differs : ∀ c ∈ rest.flatten.head?, classes.kind c ≠ kind)
      (tail : Runs classes rest) : Runs classes (run :: rest)

/-- Characters of which neighbours are of one class are all of the class of the last. -/
theorem kind_eq_of_isChain {classes : Classes} {run : Text} (some : run ≠ [])
    (chain : run.IsChain fun c d => (classes.kind c == classes.kind d) = true) :
    ∀ c ∈ run, classes.kind c = classes.kind (run.getLast some) := by
  induction run with
  | nil => exact absurd rfl some
  | cons c rest ih =>
      cases rest with
      | nil => simp
      | cons d rest =>
          obtain ⟨same, others⟩ := List.isChain_cons_cons.mp chain
          have behind := ih (List.cons_ne_nil d rest) others
          rw [List.getLast_cons (List.cons_ne_nil d rest)]
          refine List.forall_mem_cons.mpr ⟨?_, behind⟩
          rw [eq_of_beq same]
          exact behind d List.mem_cons_self

theorem Runs.eq_nil {classes : Classes} {runs : List Text} (each : Runs classes runs)
    (none : runs.flatten = []) : runs = [] := by
  cases each with
  | nil => rfl
  | cons kind some => exact absurd (List.append_eq_nil_iff.mp none).1 some

/-- The maximal runs of a text are such texts. -/
theorem runs_runs (classes : Classes) (text : Text) : Runs classes (classes.runs text) := by
  have filled := List.nil_notMem_splitBy (fun c d => classes.kind c == classes.kind d) text
  have chains (run : Text) (member : run ∈ classes.runs text) :
      run.IsChain fun c d => (classes.kind c == classes.kind d) = true :=
    List.isChain_of_mem_splitBy member
  have turns := List.isChain_getLast_head_splitBy (fun c d => classes.kind c == classes.kind d) text
  change [] ∉ classes.runs text at filled
  change List.IsChain _ (classes.runs text) at turns
  generalize classes.runs text = runs at filled chains turns
  induction runs with
  | nil => exact .nil
  | cons run rest ih =>
      rw [List.mem_cons, not_or] at filled
      obtain ⟨first, others⟩ := List.forall_mem_cons.mp chains
      obtain ⟨turn, turns⟩ := List.isChain_cons.mp turns
      have some : run ≠ [] := Ne.symm filled.1
      refine .cons _ some (kind_eq_of_isChain some first) ?_ (ih filled.2 others turns)
      intro c head
      cases rest with
      | nil => cases head
      | cons next rest =>
          obtain ⟨_, nonempty, differs⟩ := turn next rfl
          have same : c = next.head nonempty := by
            rw [List.flatten_cons, List.head?_append_of_ne_nil _ nonempty,
              List.head?_eq_some_head nonempty] at head
            exact (Option.some.inj head).symm
          rw [same]
          exact fun equal => by simp [equal] at differs

/-! ## Runs are words -/

section Words

variable {classes : Classes} {run text : Text} {c : Char}

/-- A run of separators is absorbed, and a character that separates no more ends it. -/
theorem absorbs_separators (some : run ≠ [])
    (each : ∀ c ∈ run, classes.kind c = .separator) :
    Scan.Absorbs classes Scan.start run ⟨.word, [], .separators⟩ := by
  obtain ⟨c, rest, rfl⟩ := List.exists_cons_of_ne_nil some
  obtain ⟨first, others⟩ := List.forall_mem_cons.mp each
  obtain ⟨noDelimiter, separates⟩ := Classes.kind_eq_separator_iff.mp first
  refine .cons (Scan.Begins.separator noDelimiter separates).move (.separators ?_)
  exact fun d member => (Classes.kind_eq_separator_iff.mp (others d member)).2

/-- Other characters are absorbed by a word, which leaves no more than a lone dollar open. -/
theorem exists_absorbs_others (unquoted : Unquoted run) (each : ∀ c ∈ run, classes.kind c = .other) :
    ∃ pending, Scan.Absorbs classes ⟨.word, [], .nothing⟩ run ⟨.word, [], pending⟩ ∧
      ∀ c, Unquoted (run ++ [c]) → pending.Idle c := by
  induction run using List.reverseRecOn with
  | nil => exact ⟨.nothing, .nil _, fun _ _ => .nothing⟩
  | append_singleton run c ih =>
      obtain ⟨front, last⟩ := List.forall_mem_append.mp each
      obtain ⟨pending, absorbed, idle⟩ := ih (unquoted.of_infix (List.prefix_append _ _).isInfix) front
      have ordinary := Classes.kind_eq_other_iff.mp (last c (List.mem_singleton_self c))
      have made := Scan.move_ordinary (idle c unquoted) ordinary.1 ordinary.2
      have member : c ∈ run ++ [c] := List.mem_append_right run (List.mem_singleton_self c)
      by_cases dollar : c = '$'
      · subst dollar
        refine ⟨.dollar, absorbed.append (.single made), fun d longer => .dollar ?_⟩
        have within : ['$', d] <:+: run ++ ['$'] ++ [d] := ⟨run, [], by simp⟩
        refine ofBracket?_eq_none ?_ ?_
        · rintro rfl
          exact longer.noParen within
        · rintro rfl
          exact longer.noBrace within
      · have plain : Region.word.Plain classes c := by
          refine ⟨?_, fun _ => ordinary⟩
          have noQuote := unquoted.noQuote c member
          have noEscape : c ≠ '\\' := fun same => unquoted.noEscape (same ▸ member)
          simp only [isQuoteOpener, Bool.or_eq_false_iff, beq_eq_false_iff_ne] at noQuote
          simp [Region.special, dollar, noEscape, noQuote]
        rw [show Scan.take ⟨.word, [], .nothing⟩ c = _ from plain.take []] at made
        exact ⟨.nothing, absorbed.append (.single made), fun _ _ => .nothing⟩

/-- Every run but one of delimiters is absorbed as one word, and a character of another class ends it. -/
theorem exists_absorbs_run {kind : Kind} (disjoint : classes.Disjoint) (unquoted : Unquoted run)
    (some : run ≠ []) (each : ∀ c ∈ run, classes.kind c = kind) (noGap : kind ≠ .delimiter) :
    ∃ scan, Scan.Absorbs classes Scan.start run scan ∧
      ∀ c, Unquoted (run ++ [c]) → classes.kind c ≠ kind →
        ∃ keeps next, Scan.Begins classes c keeps next ∧ scan.move classes c = ⟨true, keeps, next⟩ := by
  cases kind with
  | delimiter => exact absurd rfl noGap
  | separator =>
      refine ⟨_, absorbs_separators some each, fun c _ differs => ?_⟩
      obtain ⟨keeps, next, begins⟩ := Scan.exists_begins classes c
      exact ⟨keeps, next, begins, Scan.move_endsRun (disjoint.noSeparator differs) begins⟩
  | other =>
      obtain ⟨pending, absorbed, idle⟩ := exists_absorbs_others unquoted each
      refine ⟨_, absorbed.of_word some, fun c longer differs => ?_⟩
      obtain ⟨keeps, next, begins⟩ := Scan.exists_begins classes c
      refine ⟨keeps, next, begins, Scan.move_ends (idle c longer) ?_ begins⟩
      rw [Ne, Classes.kind_eq_other_iff, not_and_or, Bool.not_eq_false, Bool.not_eq_false] at differs
      exact differs

theorem isGap_of_kind {kind : Kind} (some : run ≠ []) (each : ∀ c ∈ run, classes.kind c = kind) :
    classes.isGap run = decide (kind = .delimiter) := by
  obtain ⟨c, rest, rfl⟩ := List.exists_cons_of_ne_nil some
  by_cases gap : kind = .delimiter
  · subst gap
    simpa [Classes.isGap, Classes.kind_eq_delimiter_iff] using each
  · have first := each c List.mem_cons_self
    have noDelimiter : classes.isDelimiter c = false := by
      rw [← first, Classes.kind_eq_delimiter_iff, Bool.not_eq_true] at gap
      exact gap
    simp [Classes.isGap, gap, noDelimiter]

/-! ## The empty word at the end -/

theorem openWord_append_cons (front : Text) (c : Char) (rest : Text) :
    classes.openWord (front ++ c :: rest) = classes.openWord (c :: rest) := by
  rw [Classes.openWord, List.getLast?_append_cons]
  rfl

theorem openWord_of_isGap (gap : classes.isGap run = true) : classes.openWord run = [[]] := by
  refine if_pos ?_
  cases last : run.getLast? with
  | none => rfl
  | some c => exact List.all_eq_true.mp gap c (List.mem_of_getLast? last)

theorem openWord_gap_append (gap : classes.isGap run = true) (text : Text) :
    classes.openWord (run ++ text) = classes.openWord text := by
  cases text with
  | nil =>
      rw [List.append_nil, openWord_of_isGap gap]
      rfl
  | cons c rest => exact openWord_append_cons run c rest

theorem openWord_of_kind {kind : Kind} (some : run ≠ []) (each : ∀ c ∈ run, classes.kind c = kind)
    (noGap : kind ≠ .delimiter) : classes.openWord run = [] := by
  refine if_neg ?_
  have last := each _ (List.getLast_mem some)
  rw [List.getLast?_eq_some_getLast some, Option.all_some, ← Classes.kind_eq_delimiter_iff, last]
  exact noGap

end Words

/-! ## Unquoted texts -/

section Texts

variable {classes : Classes} {runs : List Text}

/-- The words of an unquoted text, run by run. -/
theorem words_flatten (disjoint : classes.Disjoint) (each : Runs classes runs)
    (unquoted : Unquoted runs.flatten) :
    words classes runs.flatten =
      runs.filter (fun run => !classes.isGap run) ++ classes.openWord runs.flatten := by
  induction each with
  | nil => rfl
  | @cons run rest kind some each differs tail ih =>
      have gap := isGap_of_kind some each
      have behind := ih (unquoted.of_infix (List.suffix_append run _).isInfix)
      rw [List.flatten_cons]
      by_cases delimits : kind = .delimiter
      · rw [decide_eq_true delimits] at gap
        rw [words_gap_append (List.all_eq_true.mp gap), openWord_gap_append gap, behind]
        simp [gap]
      · rw [decide_eq_false delimits] at gap
        rw [List.flatten_cons] at unquoted
        obtain ⟨scan, absorbed, ends⟩ := exists_absorbs_run disjoint
          (unquoted.of_infix (List.prefix_append run _).isInfix) some each delimits
        have kept : (run :: rest).filter (fun run => !classes.isGap run) =
            run :: rest.filter (fun run => !classes.isGap run) := by simp [gap]
        cases following : rest.flatten with
        | nil =>
            rw [tail.eq_nil following, List.append_nil, words_of_absorbed absorbed,
              openWord_of_kind some each delimits]
            simp [gap]
        | cons c text =>
            rw [following] at unquoted differs behind
            have longer : run ++ [c] <:+: run ++ c :: text := ⟨[], text, by simp⟩
            obtain ⟨keeps, next, begins, made⟩ :=
              ends c (unquoted.of_infix longer) (differs c rfl)
            rw [words, absorbed.wordsFrom_append, wordsFrom_cons_of_ends made begins, behind, kept,
              openWord_append_cons]
            simp [prependFirst]

/-- Without separators the words are the pieces between the delimiters. -/
theorem filledFields_flatten (each : Runs classes runs)
    (free : ∀ c ∈ runs.flatten, classes.isSeparator c = false) :
    Text.filledFields classes.isDelimiter runs.flatten =
      runs.filter fun run => !classes.isGap run := by
  induction each with
  | nil => rfl
  | @cons run rest kind some each differs tail ih =>
      have gap := isGap_of_kind some each
      rw [List.flatten_cons] at free ⊢
      obtain ⟨here, others⟩ := List.forall_mem_append.mp free
      have behind := ih others
      by_cases delimits : kind = .delimiter
      · rw [decide_eq_true delimits] at gap
        rw [Text.filledFields_gap_append (List.all_eq_true.mp gap), behind]
        simp [gap]
      · rw [decide_eq_false delimits] at gap
        have ordinary : ∀ c ∈ run, classes.isDelimiter c = false := by
          intro c member
          rw [Bool.eq_false_iff, Ne, ← Classes.kind_eq_delimiter_iff, each c member]
          exact delimits
        have kept : (run :: rest).filter (fun run => !classes.isGap run) =
            run :: rest.filter (fun run => !classes.isGap run) := by simp [gap]
        rw [kept]
        cases following : rest.flatten with
        | nil =>
            rw [tail.eq_nil following, List.append_nil, Text.filledFields_of_free some ordinary]
            rfl
        | cons c text =>
            rw [following] at others differs behind
            obtain ⟨d, member⟩ := List.exists_mem_of_ne_nil run some
            have isOther := Classes.kind_eq_other_iff.mpr ⟨ordinary d member, here d member⟩
            have breaks : classes.isDelimiter c = true := by
              rw [← Bool.not_eq_false]
              intro noDelimiter
              refine differs c rfl ?_
              rw [← each d member, isOther]
              exact Classes.kind_eq_other_iff.mpr ⟨noDelimiter, others c List.mem_cons_self⟩
            rw [Text.filledFields_append_of_free some ordinary breaks, behind]

end Texts

/--
A text without quotes, escapes and expansions is split by classes alone.  When
no character delimits and separates, its words are its maximal runs of equal
class in order, without those of delimiters, and an empty word behind them when
the text is empty or ends in a delimiter.  When it holds no separator either,
they are the pieces between the delimiters that are not empty.
-/
theorem split_unquoted {classes : Classes} (disjoint : classes.Disjoint) {text : Text}
    (unquoted : Unquoted text) :
    split classes text text.byteLength =
        (classes.runs text).filter (fun run => !classes.isGap run) ++ classes.openWord text ∧
      ((∀ c ∈ text, classes.isSeparator c = false) →
        split classes text text.byteLength =
          (text.splitOnP classes.isDelimiter).filter (fun field => !field.isEmpty) ++
            classes.openWord text) := by
  have each := runs_runs classes text
  have whole : (classes.runs text).flatten = text := List.flatten_splitBy _ text
  have read : words classes text =
      (classes.runs text).filter (fun run => !classes.isGap run) ++ classes.openWord text := by
    have behind := words_flatten disjoint each (by rwa [whole])
    rwa [whole] at behind
  rw [split_byteLength]
  refine ⟨read, fun free => ?_⟩
  have pieces := filledFields_flatten each (by rwa [whole])
  rw [whole] at pieces
  rw [read, ← pieces]
  rfl

/-- Runs next to one another with a lone dollar, and a text that ends in a delimiter. -/
theorem split_unquoted_dollar :
    let line : Text := "\t a$=>b (c $<"
    let spaced : Text := " a$  (b\n"
    Classes.standard.Disjoint ∧ Unquoted line ∧
      Classes.standard.runs line = ["\t ", "a$", "=>", "b", " ", "(c", " ", "$", "<"] ∧
      split .standard line line.byteLength = ["a$", "=>", "b", "(c", "$", "<"] ∧
      Unquoted spaced ∧ split .standard spaced spaced.byteLength = ["a$", "(b", ""] := by
  intro line spaced
  have disjoint : Classes.standard.Disjoint := by decide
  have lineUnquoted : Unquoted line :=
    ⟨by simp [line, isQuoteOpener], by decide +kernel, by decide +kernel, by decide +kernel⟩
  have spacedUnquoted : Unquoted spaced :=
    ⟨by simp [spaced, isQuoteOpener], by decide +kernel, by decide +kernel, by decide +kernel⟩
  have noSeparator : ∀ c ∈ spaced, Classes.standard.isSeparator c = false := by
    simp [spaced, Classes.isSeparator, Classes.standard]
  have runs : Classes.standard.runs line =
      ["\t ", "a$", "=>", "b", " ", "(c", " ", "$", "<"] := by decide +kernel
  have read := (split_unquoted disjoint lineUnquoted).1
  have pieces := (split_unquoted disjoint spacedUnquoted).2 noSeparator
  rw [runs] at read
  exact ⟨disjoint, lineUnquoted, runs, read.trans (by decide +kernel), spacedUnquoted,
    pieces.trans (by decide +kernel)⟩

end SerialCompletion.Line
