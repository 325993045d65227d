import SerialCompletion.Completion.Offer
import SerialCompletion.Proofs.Json.Values

/-!
# Reading the JSON form

The JSON form of an offer is one object on one line.  Any reader of JSON finds
in it the start, the candidates and the hints, by the names of the members, and
no text in a candidate disturbs this.
-/

namespace SerialCompletion.Completion

open Json Text

/-! ## The reader -/

def fallbackOf? : Value → Option (Option Fallback)
  | .null => some none
  | .text name =>
      if name = "files" then some (some .files)
      else if name = "commands" then some (some .commands)
      else none
  | _ => none

def Hints.ofValue? (value : Value) : Option Hints := do
  let noSpace ← (← value.member? "no_space").boolean?
  let noSort ← (← value.member? "no_sort").boolean?
  let fallback ← fallbackOf? (← value.member? "fallback")
  return ⟨noSpace, noSort, fallback⟩

def Offer.ofValue? (value : Value) : Option Offer := do
  let start ← (← value.member? "start").size?
  let candidates ← (← value.member? "candidates").texts?
  let hints ← Hints.ofValue? (← value.member? "hints")
  return ⟨start, candidates, hints⟩

def Offer.ofJson? (text : Text) : Option Offer :=
  (Json.read? text).bind ofValue?

/-! ## Values of offers -/

def fallbackValue : Option Fallback → Value
  | none => .null
  | some .files => .text "files"
  | some .commands => .text "commands"

def Hints.value (hints : Hints) : Value :=
  .object
    [("no_space", .boolean hints.noSpace),
      ("no_sort", .boolean hints.noSort),
      ("fallback", fallbackValue hints.fallback)]

def Offer.value (offer : Offer) : Value :=
  .object
    [("start", .number (Text.ofNat offer.start)),
      ("candidates", .array (offer.candidates.map .text)),
      ("hints", offer.hints.value)]

theorem writes_fallback (fallback : Option Fallback) :
    Writes (fallbackJson fallback) (fallbackValue fallback) := by
  cases fallback with
  | none => exact writes_null
  | some fallback => cases fallback <;> exact writes_string _

theorem writes_hints (hints : Hints) : Writes hints.json hints.value := by
  refine .object (.cons ⟨rfl, ?_⟩ (.cons ⟨rfl, ?_⟩ (.cons ⟨rfl, ?_⟩ .nil)))
  · exact writes_boolean hints.noSpace
  · exact writes_boolean hints.noSort
  · exact writes_fallback hints.fallback

theorem writes_strings (texts : List Text) :
    Writes (jsonArray (texts.map jsonString)) (.array (texts.map .text)) := by
  refine .array ?_
  rw [List.forall₂_map_left_iff, List.forall₂_map_right_iff, List.forall₂_same]
  exact fun text _ => writes_string text

theorem writes_offer (offer : Offer) : Writes offer.json offer.value := by
  refine .object (.cons ⟨rfl, ?_⟩ (.cons ⟨rfl, ?_⟩ (.cons ⟨rfl, ?_⟩ .nil)))
  · exact writes_ofNat offer.start
  · exact writes_strings offer.candidates
  · exact writes_hints offer.hints

theorem Hints.ofValue?_value (hints : Hints) : Hints.ofValue? hints.value = some hints := by
  rcases hints with ⟨noSpace, noSort, _ | _ | _⟩ <;> rfl

theorem texts?_strings (texts : List Text) :
    Value.texts? (.array (texts.map .text)) = some texts := by
  have each : ∀ text ∈ texts, Value.text? (.text text) = some (id text) := fun _ _ => rfl
  have all := mapM_of_forall each
  rw [List.map_id] at all
  rw [Value.texts?, List.mapM_map]
  exact all

theorem Offer.ofValue?_value (offer : Offer) : Offer.ofValue? offer.value = some offer := by
  have start : Value.member? "start" offer.value = some (.number (Text.ofNat offer.start)) := rfl
  have candidates : Value.member? "candidates" offer.value =
      some (.array (offer.candidates.map .text)) := rfl
  have hints : Value.member? "hints" offer.value = some offer.hints.value := rfl
  have size : Value.size? (.number (Text.ofNat offer.start)) = some offer.start :=
    toNat?_ofNat offer.start
  simp only [ofValue?, start, candidates, hints, Option.bind_eq_bind, Option.bind_some, size,
    texts?_strings, Hints.ofValue?_value]
  rfl

/-! ## Lines -/

theorem lineFeed_free_flag (flag : Bool) : '\n' ∉ jsonBool flag := by
  cases flag <;> decide

theorem lineFeed_free_fallback (fallback : Option Fallback) : '\n' ∉ fallbackJson fallback := by
  cases fallback with
  | none => decide
  | some fallback => cases fallback <;> exact lineFeed_free_jsonString _

theorem lineFeed_free_hints (hints : Hints) : '\n' ∉ hints.json := by
  refine lineFeed_free_jsonObject ?_
  simp only [List.forall_mem_cons]
  exact ⟨lineFeed_free_flag hints.noSpace, lineFeed_free_flag hints.noSort,
    lineFeed_free_fallback hints.fallback, List.forall_mem_nil _⟩

theorem lineFeed_free_offer (offer : Offer) : '\n' ∉ offer.json := by
  have start : '\n' ∉ Text.ofNat offer.start := not_mem_ofNat rfl
  have candidates : '\n' ∉ jsonArray (offer.candidates.map jsonString) := by
    refine lineFeed_free_jsonArray ?_
    rw [List.forall_mem_map]
    exact fun text _ => lineFeed_free_jsonString text
  refine lineFeed_free_jsonObject ?_
  simp only [List.forall_mem_cons]
  exact ⟨start, candidates, lineFeed_free_hints offer.hints, List.forall_mem_nil _⟩

/--
The JSON form of an offer gives the offer back, whatever texts its candidates
are: the start, the candidates in their order, both flags and the fallback.  It
is one line, for no line feed stands in it.
-/
theorem Offer.ofJson?_render (offer : Offer) :
    ofJson? (offer.render .json) = some offer ∧ '\n' ∉ offer.render .json := by
  constructor
  · rw [ofJson?, render, (writes_offer offer).read?, Option.bind_some, ofValue?_value]
  · exact lineFeed_free_offer offer

end SerialCompletion.Completion
