import SerialCompletion.Completion.Offer
import SerialCompletion.Proofs.Catalogue.Names

/-!
# What is offered

A context tells the position and the cursor that lead to it.  An offer starts
where the cursor says, whatever is offered.  The candidates of the picocom
source are, context by context, spellings of options, fixed values, mapping
names behind the head of a list, and paths of devices.
-/

namespace SerialCompletion.Completion

open Catalogue Line

/-! ## The contexts of a position -/

def Position.WaitsFor (position : Position) (kind : ArgumentKind) : Prop :=
  position = .expectValue kind ∨ position = .afterEquals kind

/-- The contexts that a position and a cursor may have. -/
inductive Context.Arises (position : Position) (cursor : Cursor) : Context → Prop where
  | optionName (among : position = .arguments) (noRun : cursor.afterSeparators = false) :
      Arises position cursor (.optionName cursor.typed)
  | value {kind : ArgumentKind} {values : List Text} (waits : position.WaitsFor kind)
      (fixed : kind.fixedValues? = some values) :
      Arises position cursor (.value kind cursor.typedLiteral)
  | mapList (waits : position.WaitsFor .mapList) : Arises position cursor (.mapList cursor.typed)
  | device (noValue : position = .arguments ∨ position = .operands) :
      Arises position cursor (.device cursor.typedLiteral)
  | file : Arises position cursor .file
  | command : Arises position cursor .command
  | nothing : Arises position cursor .nothing

namespace Context

variable {position : Position} {cursor : Cursor}

theorem arises_ofArgument {kind : ArgumentKind} (waits : position.WaitsFor kind) :
    Arises position cursor (ofArgument kind cursor.typed cursor.typedLiteral) := by
  cases kind with
  | mapList => exact .mapList waits
  | file => exact .file
  | command => exact .command
  | flag | free => exact .nothing
  | baud | flow | parity | dataBits | stopBits => exact .value waits rfl

theorem arises {context : Context} (given : ofPosition position cursor = context) :
    Arises position cursor context := by
  subst given
  cases position with
  | start => exact .nothing
  | operands => exact .device (.inr rfl)
  | expectValue kind => exact arises_ofArgument (.inl rfl)
  | afterEquals kind => exact arises_ofArgument (.inr rfl)
  | arguments =>
      simp only [ofPosition]
      split
      case isTrue => exact .nothing
      case isFalse noRun =>
        split
        case isTrue => exact .optionName rfl (Bool.eq_false_iff.mpr noRun)
        case isFalse => exact .device (.inl rfl)

end Context

/-! ## Candidates -/

@[simp] theorem offerFor_start (source : Source) (start : Nat) (context : Context) :
    (offerFor source start context).start = start := by
  cases context with
  | device typed =>
      simp only [offerFor]
      split <;> rfl
  | optionName | value | mapList | file | command | nothing => rfl

theorem mem_of_mem_beginningWith {typed text : Text} {texts : List Text}
    (member : text ∈ Text.beginningWith typed texts) : text ∈ texts :=
  (List.mem_filter.mp member).1

theorem beginningWith_append (typed more : Text) (texts : List Text) :
    Text.beginningWith (typed ++ more) (Text.beginningWith typed texts) =
      Text.beginningWith (typed ++ more) texts := by
  rw [Text.beginningWith, Text.beginningWith, List.filter_filter]
  apply List.filter_congr
  intro text _
  apply Bool.eq_iff_iff.mpr
  rw [Bool.and_eq_true, List.isPrefixOf_iff_prefix, List.isPrefixOf_iff_prefix]
  constructor
  · exact And.left
  · intro begins
    exact ⟨begins, (List.prefix_append typed more).trans begins⟩

theorem beginningWith_map_append (head typed : Text) (texts : List Text) :
    Text.beginningWith (head ++ typed) (texts.map (head ++ ·)) =
      (Text.beginningWith typed texts).map (head ++ ·) := by
  rw [Text.beginningWith, Text.beginningWith, List.filter_map]
  congr 1
  apply List.filter_congr
  intro text _
  apply Bool.eq_iff_iff.mpr
  rw [Function.comp_apply, List.isPrefixOf_iff_prefix, List.isPrefixOf_iff_prefix]
  exact List.prefix_append_right_inj head

/-- A candidate for a list is a known name behind the head of the list. -/
theorem mem_mapListCandidates {known : List Text} {raw candidate : Text}
    (member : candidate ∈ mapListCandidates known raw) :
    ∃ name ∈ known, candidate = (Text.cutAfterLast ',' raw).1 ++ name := by
  obtain ⟨name, offered, rfl⟩ := List.mem_map.mp member
  exact ⟨name, (List.mem_filter.mp (mem_of_mem_beginningWith offered)).1, rfl⟩

def Offered (devices : List Text) (candidate : Text) : Context → Prop
  | .optionName _ => candidate ∈ optionNames
  | .value kind _ => candidate ∈ kind.fixedValues?.getD []
  | .mapList raw => ∃ name ∈ mapNames, candidate = (Text.cutAfterLast ',' raw).1 ++ name
  | .device _ => candidate ∈ devices
  | .file | .command | .nothing => False

theorem offered_of_mem {devices : List Text} {start : Nat} {context : Context} {candidate : Text}
    (member : candidate ∈ (offerFor (.picocom devices) start context).candidates) :
    Offered devices candidate context := by
  cases context with
  | optionName | value => exact mem_of_mem_beginningWith member
  | mapList => exact mem_mapListCandidates member
  | device typed =>
      simp only [offerFor] at member
      split at member
      · cases member
      · exact mem_of_mem_beginningWith member
  | file | command | nothing => cases member

end SerialCompletion.Completion
