import SerialCompletion.Proofs.Completion.Candidates
import SerialCompletion.Proofs.Line.Cursor
import SerialCompletion.Proofs.Word.Entries

/-!
# Offers that a character narrows

The candidates of the picocom source are the texts of a pool that begin with
the matched text.  A character that is typed behind a line joins the word under
the cursor and reads as itself, so it is one more character of the matched
text and leaves the pool alone.  The offer for the longer line is therefore
found among the candidates that were offered before it.
-/

namespace SerialCompletion.Completion

open Catalogue Line

namespace Context

def matched : Context → Text
  | .optionName typed | .value _ typed | .device typed => typed
  | .mapList raw => (Text.cutAfterLast ',' raw).1 ++ Word.literal (Text.cutAfterLast ',' raw).2
  | .file | .command | .nothing => []

/-- The texts from which the picocom source takes the candidates of a context. -/
def pool (devices : List Text) : Context → List Text
  | .optionName _ => optionNames
  | .value kind _ => kind.fixedValues?.getD []
  | .mapList raw =>
      let head := (Text.cutAfterLast ',' raw).1
      (Word.remaining head mapNames).map (head ++ ·)
  | .device _ => devices
  | .file | .command | .nothing => []

end Context

section Offers

variable (source : Source) (devices : List Text) (start : Nat)

@[simp] theorem offerFor_device_candidates (typed : Text) :
    (offerFor source start (.device typed)).candidates = source.devices typed := by
  simp only [offerFor]
  split
  case h_1 none => exact none.symm
  case h_2 => rfl

/-- Files are left to the host exactly where no device is offered. -/
theorem offerFor_device_files_iff (typed : Text) :
    (offerFor source start (.device typed)).hints.fallback = some .files ↔
      (offerFor source start (.device typed)).candidates = [] := by
  rw [offerFor_device_candidates]
  simp only [offerFor]
  split
  case h_1 none => exact ⟨fun _ => none, fun _ => rfl⟩
  case h_2 some =>
    constructor
    · intro fallback
      cases fallback
    · intro none
      exact absurd none some

theorem offerFor_candidates (context : Context) :
    (offerFor (.picocom devices) start context).candidates =
      Text.beginningWith context.matched (context.pool devices) := by
  cases context with
  | optionName | value | file | command | nothing => rfl
  | mapList raw => exact (beginningWith_map_append _ _ _).symm
  | device typed => exact offerFor_device_candidates _ start typed

end Offers

/-! ## One more character -/

/--
A context that a character narrows, and what the character makes of it, for a
word under the cursor at a position.  Where the literal value is matched, the
word must leave no escape open.  A comma begins another entry of a list, and a
dash in front of a device begins an option.
-/
inductive Narrows (position : Position) (current : Text) (c : Char) : Context → Context → Prop where
  | optionName (typed : Text) :
      Narrows position current c (.optionName typed) (.optionName (typed ++ [c]))
  | value (kind : ArgumentKind) (typed : Text)
      (calm : (Word.Reading.start.run current).escaped = false) :
      Narrows position current c (.value kind typed) (.value kind (typed ++ [c]))
  | mapList (raw : Text) (noComma : c ≠ ',')
      (calm : (Word.Reading.start.run (Text.cutAfterLast ',' raw).2).escaped = false) :
      Narrows position current c (.mapList raw) (.mapList (raw ++ [c]))
  | device (typed : Text) (calm : (Word.Reading.start.run current).escaped = false)
      (noOption : ¬ (position = .arguments ∧ current = [] ∧ c = '-')) :
      Narrows position current c (.device typed) (.device (typed ++ [c]))

namespace Narrows

variable {position : Position} {current : Text} {c : Char} {context next : Context}

theorem matched_eq (narrows : Narrows position current c context next)
    (bare : Word.isBare c = true) : next.matched = context.matched ++ [c] := by
  cases narrows with
  | optionName | value | device => rfl
  | mapList raw noComma calm =>
      simp only [Context.matched, Text.cutAfterLast_concat_of_ne noComma,
        Word.literal_concat calm bare, List.append_assoc]

theorem pool_eq (narrows : Narrows position current c context next) (devices : List Text) :
    next.pool devices = context.pool devices := by
  cases narrows with
  | optionName | value | device => rfl
  | mapList raw noComma => simp only [Context.pool, Text.cutAfterLast_concat_of_ne noComma]

theorem argument_eq {kind : ArgumentKind} (bare : Word.isBare c = true)
    (narrows : Narrows position current c
      (.ofArgument kind current (Word.literal current)) next) :
    Context.ofArgument kind (current ++ [c]) (Word.literal (current ++ [c])) = next := by
  cases kind with
  | mapList =>
      cases narrows
      rfl
  | baud | flow | parity | dataBits | stopBits =>
      cases narrows with
      | value kind typed calm =>
          rw [Word.literal_concat calm bare]
          rfl
  | flag | free | file | command => cases narrows

theorem device_eq (bare : Word.isBare c = true)
    (narrows : Narrows position current c (.device (Word.literal current)) next) :
    Context.device (Word.literal (current ++ [c])) = next := by
  cases narrows with
  | device typed calm noOption => rw [Word.literal_concat calm bare]

/-- Among the arguments a word stays an option, and a device becomes none but by a first dash. -/
theorem head?_concat (narrows : Narrows .arguments current c (.device (Word.literal current)) next)
    (noDash : current.head? ≠ some '-') : (current ++ [c]).head? ≠ some '-' := by
  cases narrows with
  | device typed calm noOption =>
      cases current with
      | nil =>
          intro dash
          exact noOption ⟨rfl, rfl, Option.some.inj dash⟩
      | cons d rest => exact noDash

theorem context_eq {before : List Text} {offset other : Nat} (bare : Word.isBare c = true)
    (narrows : Narrows position current c
      (.ofPosition position ⟨before, current, offset, false⟩) next) :
    Context.ofPosition position ⟨before, current ++ [c], other, false⟩ = next := by
  cases position with
  | start => cases narrows
  | operands => exact device_eq bare narrows
  | expectValue kind | afterEquals kind => exact argument_eq bare narrows
  | arguments =>
      change Narrows _ _ _
        (if current.head? = some '-' then .optionName current else .device (Word.literal current)) _
        at narrows
      change (if (current ++ [c]).head? = some '-' then Context.optionName (current ++ [c])
        else .device (Word.literal (current ++ [c]))) = next
      by_cases dash : current.head? = some '-'
      · rw [if_pos dash] at narrows
        have longer : (current ++ [c]).head? = some '-' := by rw [List.head?_append, dash]; rfl
        rw [if_pos longer]
        cases narrows
        rfl
      · rw [if_neg dash] at narrows
        rw [if_neg (narrows.head?_concat dash)]
        exact device_eq bare narrows

end Narrows

/--
Typing an ordinary character narrows the offer.  Let the word under the cursor at
the end of a line be no run of separators, and let a character follow that
neither delimits nor separates and is no quote and no backslash.  If it narrows
the context, the longer line has the narrowed context and its offer starts
where the offer before it started.  The candidates are those before it that
begin with the matched text and the character, in the same order, and where
devices are offered, files are left to the host exactly when none remains.
-/
theorem offer_narrows {classes : Classes} (devices : List Text) {line : Text} {c : Char}
    {next : Context} (noDelimiter : classes.isDelimiter c = false)
    (noSeparator : classes.isSeparator c = false) (bare : Word.isBare c = true)
    (noRun : (Cursor.ofLine classes line line.byteLength).afterSeparators = false)
    (narrows : Narrows
      (.ofWords (Cursor.ofLine classes line line.byteLength).before)
      (Cursor.ofLine classes line line.byteLength).current c
      (.ofCursor (Cursor.ofLine classes line line.byteLength)) next) :
    let completer : Completer := ⟨classes, .picocom devices⟩
    let longer := line ++ [c]
    let context := Context.ofCursor (Cursor.ofLine classes line line.byteLength)
    let before := completer.offer line line.byteLength
    let after := completer.offer longer longer.byteLength
    Context.ofCursor (Cursor.ofLine classes longer longer.byteLength) = next ∧
      after.start = before.start ∧
      after.candidates = Text.beginningWith (context.matched ++ [c]) before.candidates ∧
      ∀ typed, next = .device typed →
        (after.hints.fallback = some .files ↔ after.candidates = []) := by
  intro completer longer context before after
  obtain ⟨earlier, last, cursor, cursorAfter⟩ :=
    Cursor.exists_ofLine_concat noRun noDelimiter noSeparator
  rw [cursor] at narrows
  have contextAfter : Context.ofCursor (Cursor.ofLine classes longer longer.byteLength) = next := by
    rw [cursorAfter]
    exact narrows.context_eq bare
  have beforeEq : before = offerFor (.picocom devices) _ context := rfl
  have afterEq : after = offerFor (.picocom devices) _ next :=
    congrArg (offerFor (.picocom devices) _) contextAfter
  refine ⟨contextAfter, ?_, ?_, ?_⟩
  · rw [afterEq, beforeEq, offerFor_start, offerFor_start, cursor, cursorAfter]
    simp [Cursor.start, Cursor.typed, Nat.add_sub_add_right]
  · have contextEq : context = Context.ofCursor ⟨earlier, last, line.byteLength, false⟩ :=
      congrArg Context.ofCursor cursor
    rw [afterEq, beforeEq, offerFor_candidates, offerFor_candidates, contextEq,
      narrows.matched_eq bare, narrows.pool_eq devices]
    exact (beginningWith_append _ [c] _).symm
  · rintro typed rfl
    rw [afterEq]
    exact offerFor_device_files_iff _ _ typed

/-- A name behind a comma in an open quote, and a device of which none is left. -/
theorem offer_narrows_igncr :
    let completer : Completer := ⟨.standard, .picocom ["/dev/ttyS0"]⟩
    let list : Text := "picocom -I \"crlf,ign"
    let device : Text := "picocom /dev/tty"
    let inList := Cursor.ofLine .standard list list.byteLength
    let inDevice := Cursor.ofLine .standard device device.byteLength
    Classes.standard.isDelimiter 'c' = false ∧ Classes.standard.isSeparator 'c' = false ∧
      Narrows (.ofWords inList.before) inList.current 'c' (.ofCursor inList)
        (.mapList "\"crlf,ignc") ∧
      (completer.offer (list ++ ['c']) (list ++ ['c']).byteLength).candidates = ["\"crlf,igncr"] ∧
      Narrows (.ofWords inDevice.before) inDevice.current 'c' (.ofCursor inDevice)
        (.device "/dev/ttyc") ∧
      (completer.offer (device ++ ['c']) (device ++ ['c']).byteLength).hints.fallback =
        some .files := by
  intro completer list device inList inDevice
  have noDelimiter : Classes.standard.isDelimiter 'c' = false := by decide
  have noSeparator : Classes.standard.isSeparator 'c' = false := by decide
  have listEq : inList = ⟨["picocom", "-I"], "\"crlf,ign", 20, false⟩ := by decide +kernel
  have deviceEq : inDevice = ⟨["picocom"], "/dev/tty", 16, false⟩ := by decide +kernel
  have listContext : Context.ofCursor inList = .mapList "\"crlf,ign" := by decide +kernel
  have deviceContext : Context.ofCursor inDevice = .device "/dev/tty" := by decide +kernel
  have listNarrows : Narrows (.ofWords inList.before) inList.current 'c' (.ofCursor inList)
      (.mapList "\"crlf,ignc") := by
    rw [listContext]
    exact .mapList _ (by decide) (by decide +kernel)
  have deviceNarrows : Narrows (.ofWords inDevice.before) inDevice.current 'c' (.ofCursor inDevice)
      (.device "/dev/ttyc") := by
    rw [deviceContext, deviceEq]
    exact .device _ (by decide +kernel) (by simp)
  obtain ⟨-, -, listed, -⟩ := offer_narrows ["/dev/ttyS0"] noDelimiter noSeparator rfl
    (congrArg Cursor.afterSeparators listEq) listNarrows
  obtain ⟨-, -, none, files⟩ := offer_narrows ["/dev/ttyS0"] noDelimiter noSeparator rfl
    (congrArg Cursor.afterSeparators deviceEq) deviceNarrows
  refine ⟨noDelimiter, noSeparator, listNarrows, ?_, deviceNarrows, ?_⟩
  · rw [listed]
    decide +kernel
  · rw [files _ rfl, none]
    decide +kernel

end SerialCompletion.Completion
