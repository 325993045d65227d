import SerialCompletion.Proofs.Completion.Acceptance
import SerialCompletion.Proofs.Word.Entries

/-!
# Filling a list of mapping names

A list is filled in rounds: a suggestion is accepted, and a comma is typed
behind it.  Whatever quotes, escapes or expansions the list leaves open, each
round adds one name to its entries, and the next round offers what remained,
without this name.  So no name is chosen twice, and the rounds come to an end.
-/

namespace SerialCompletion.Completion

open Catalogue Files Line

abbrev Completer.standard (devices : List Text) : Completer :=
  ⟨Classes.standard, Source.picocom devices⟩

namespace Session

def opened (completer : Completer) (list : Lister) (line : Text) (offset : Nat) : Session :=
  ⟨line, offset, completer.suggest list line offset⟩

def view (classes : Classes) (session : Session) : Cursor :=
  Cursor.ofLine classes session.line session.cursor

/-- The typed list up to its last comma. -/
def listHead (classes : Classes) (session : Session) : Text :=
  (Text.cutAfterLast ',' (session.view classes).typed).1

/-- The names that the suggestions put behind the head of the typed list. -/
def offeredNames (classes : Classes) (session : Session) : List Text :=
  session.suggestions.map fun suggestion =>
    suggestion.value.drop (session.listHead classes).length

/-- One round: a suggestion is accepted, and a comma is typed behind it. -/
def addName (completer : Completer) (list : Lister) (session : Session) (index : Nat) : Session :=
  (session.next completer list (.accept index)).next completer list (.type [','])

end Session

/-- The sessions that rounds lead to, and the names that they chose. -/
inductive Fills (completer : Completer) (list : Lister) (first : Session) :
    List Text → Session → Prop where
  | start : Fills completer list first [] first
  | round {names : List Text} {session : Session} {index : Nat} {name : Text}
      (fills : Fills completer list first names session)
      (offered : (session.offeredNames completer.classes)[index]? = some name) :
      Fills completer list first (names ++ [name]) (session.addName completer list index)

theorem Fills.append {completer : Completer} {list : Lister} {first middle last : Session}
    {names more : List Text} (fills : Fills completer list first names middle)
    (others : Fills completer list middle more last) :
    Fills completer list first (names ++ more) last := by
  induction others with
  | start => rwa [List.append_nil]
  | round _ offered ih =>
      rw [← List.append_assoc]
      exact ih.round offered

/-! ## The edited line -/

namespace Session

variable {session : Session} {suggestion : Suggestion} {index : Nat}

/-- An accepted value stands in the place of its span, with the cursor behind it. -/
theorem next_accept (accepted : session.suggestions[index]? = some suggestion)
    (unspaced : suggestion.appendSpace = false) (completer : Completer) (list : Lister) :
    let before := Text.takeBytes suggestion.start session.line ++ suggestion.value
    session.next completer list (.accept index) =
      opened completer list (before ++ Text.dropBytes suggestion.stop session.line)
        before.byteLength := by
  intro before
  have edited : session.edit (.accept index) =
      around before (Text.dropBytes suggestion.stop session.line) session.suggestions := by
    simp [edit, accepted, acceptSuggestion, unspaced, before]
  rw [next, edited]
  rfl

theorem next_type_opened (completer : Completer) (list : Lister) (before behind inserted : Text) :
    (opened completer list (before ++ behind) before.byteLength).next completer list
        (.type inserted) =
      opened completer list (before ++ inserted ++ behind) (before ++ inserted).byteLength := by
  simp only [next, edit, opened, Text.takeBytes_byteLength_append,
    Text.dropBytes_byteLength_append]
  rfl

end Session

/-! ## Mapping names in a list -/

theorem isEntry_mapNames : ∀ name ∈ mapNames, Word.isEntry name = true := by
  decide +kernel

theorem passes_comma {name : Text} (known : name ∈ mapNames) :
    Classes.standard.Passes (name ++ [',']) := by
  have named := standard_sparesNames.passes (.inr (.inr known))
  refine ⟨List.concat_ne_nil _ _, fun region c member => ?_⟩
  rcases List.mem_append.mp member with inside | comma
  · exact named.plain region c inside
  · cases List.mem_singleton.mp comma
    exact ⟨by cases region <;> decide, fun _ => by decide⟩

/-! ## Where a list is expected -/

def ExpectsList (words : List Text) : Prop :=
  Position.ofWords words = .expectValue .mapList ∨ Position.ofWords words = .afterEquals .mapList

theorem mapList_of_expectsList {cursor : Cursor} (expects : ExpectsList cursor.before) :
    Context.ofCursor cursor = .mapList cursor.typed := by
  rcases expects with option | equals
  · rw [Context.ofCursor, option]
    rfl
  · rw [Context.ofCursor, equals]
    rfl

/-- Whether a run of separators under the cursor is one equals sign right behind an option. -/
def AtValue (cursor : Cursor) : Prop :=
  cursor.afterSeparators = true →
    cursor.current = ['='] ∧ ∃ option ∈ optionNames, cursor.previous? = some option

theorem expectsList_settled {cursor : Cursor} {raw : Text}
    (context : Context.ofCursor cursor = .mapList raw) (placed : AtValue cursor) :
    ExpectsList cursor.settled := by
  have expects : ExpectsList cursor.before := (Context.of_mapList context).2
  unfold Cursor.settled
  split
  case isFalse => exact expects
  case isTrue after =>
    obtain ⟨equals, option, known, previous⟩ := placed after
    have noEquals : option ≠ ['='] := by
      rintro rfl
      exact IsName.not_mem (.inl known) (by decide) List.mem_cons_self
    have waits : Position.ofWords cursor.before = .expectValue .mapList := by
      refine expects.resolve_right fun behind => noEquals ?_
      obtain ⟨earlier, before⟩ := List.getLast?_eq_some_iff.mp previous
      rw [before, Position.ofWords_concat] at behind
      exact (Position.next_eq_afterEquals_iff.mp behind).2
    refine .inr ?_
    rw [Cursor.words, equals, Position.ofWords_concat, waits]
    rfl

/-! ## One round -/

/-- A session in which a list is filled: what stands in front of it, and the list in two parts. -/
structure Filling (devices : List Text) (list : Lister) (settled : List Text)
    (head fragment : Text) (session : Session) : Prop where
  suggested : session.suggestions =
    (Completer.standard devices).suggest list session.line session.cursor
  context : Context.ofCursor (session.view .standard) = .mapList (session.view .standard).typed
  settled_eq : (session.view .standard).settled = settled
  expects : ExpectsList settled
  cut : Text.cutAfterLast ',' (session.view .standard).typed = (head, fragment)

/-- The suggestions in a list: each puts a candidate in the place of the typed list. -/
theorem suggest_mapList {completer : Completer} (list : Lister) {line raw : Text} {offset : Nat}
    (context : Context.ofCursor (Cursor.ofLine completer.classes line offset) = .mapList raw) :
    completer.suggest list line offset =
      (mapListCandidates completer.source.mapNames raw).map fun candidate =>
        ⟨candidate, (Cursor.ofLine completer.classes line offset).start,
          max (min offset line.byteLength) (Cursor.ofLine completer.classes line offset).start,
          false⟩ := by
  have offer : completer.offer line offset =
      ⟨(Cursor.ofLine completer.classes line offset).start,
        mapListCandidates completer.source.mapNames raw, ⟨true, true, none⟩⟩ := by
    rw [Completer.offer, context]
    rfl
  rw [Completer.suggest, offer]
  rfl

namespace Filling

variable {devices : List Text} {list : Lister} {settled : List Text} {head fragment name : Text}
  {session : Session} {index : Nat}

theorem suggestions_eq (filling : Filling devices list settled head fragment session) :
    ∃ stop, session.suggestions =
      (Text.beginningWith (Word.literal fragment) (Word.remaining head mapNames)).map fun name =>
        ⟨head ++ name, (session.view .standard).start, stop, false⟩ := by
  have suggested := filling.suggested.trans (suggest_mapList list filling.context)
  rw [mapListCandidates, filling.cut, List.map_map] at suggested
  exact ⟨_, suggested⟩

theorem listHead_eq (filling : Filling devices list settled head fragment session) :
    session.listHead .standard = head := by
  rw [Session.listHead, filling.cut]

theorem offeredNames_eq (filling : Filling devices list settled head fragment session) :
    session.offeredNames .standard =
      Text.beginningWith (Word.literal fragment) (Word.remaining head mapNames) := by
  obtain ⟨stop, suggestions⟩ := filling.suggestions_eq
  rw [Session.offeredNames, suggestions, filling.listHead_eq, List.map_map]
  simp [Function.comp_def]

/-- What completion sees when text stands behind the head, in the place of the fragment. -/
theorem view_opened (filling : Filling devices list settled head fragment session)
    {front text : Text} (follows : Cursor.Follows .standard session.line session.cursor front)
    (passes : Classes.standard.Passes text) (completer : Completer) (behind : Text) :
    ∃ offset, (Session.opened completer list (front ++ (head ++ text) ++ behind)
      (front ++ (head ++ text)).byteLength).view .standard =
        ⟨settled, head ++ text, offset, false⟩ := by
  have read := words_list follows filling.cut passes
  rw [← Text.takeBytes_byteLength_append (front ++ (head ++ text)) behind] at read
  rw [← passes.not_run_append head, ← filling.settled_eq]
  exact ⟨_, Cursor.ofLine_eq read⟩

theorem next_accept (filling : Filling devices list settled head fragment session)
    (offered : (session.offeredNames .standard)[index]? = some name) :
    ∃ front behind, Cursor.Follows .standard session.line session.cursor front ∧
      session.next (.standard devices) list (.accept index) =
        .opened (.standard devices) list (front ++ (head ++ name) ++ behind)
          (front ++ (head ++ name)).byteLength := by
  obtain ⟨stop, suggestions⟩ := filling.suggestions_eq
  obtain ⟨front, follows⟩ := Cursor.exists_follows .standard session.line session.cursor
  have accepted : session.suggestions[index]? =
      some ⟨head ++ name, (session.view .standard).start, stop, false⟩ := by
    rw [filling.offeredNames_eq] at offered
    rw [suggestions, List.getElem?_map, offered]
    rfl
  have start : Text.takeBytes (session.view .standard).start session.line = front :=
    follows.takeBytes_start
  refine ⟨front, Text.dropBytes stop session.line, follows, ?_⟩
  rw [Session.next_accept accepted rfl, start]

theorem remains_of_offered (filling : Filling devices list settled head fragment session)
    (offered : (session.offeredNames .standard)[index]? = some name) :
    name ∈ Word.remaining head mapNames := by
  rw [filling.offeredNames_eq] at offered
  exact mem_of_mem_beginningWith (List.mem_of_getElem? offered)

/-- An accepted name leaves the cursor in the list. -/
theorem context_accept (filling : Filling devices list settled head fragment session)
    (offered : (session.offeredNames .standard)[index]? = some name) :
    Context.ofCursor ((session.next (.standard devices) list (.accept index)).view
      .standard) = .mapList (head ++ name) := by
  have known := (Word.mem_remaining.mp (filling.remains_of_offered offered)).1
  have passes := standard_sparesNames.passes (.inr (.inr known))
  obtain ⟨front, behind, follows, accepted⟩ := filling.next_accept offered
  obtain ⟨offset, view⟩ :=
    filling.view_opened follows passes (.standard devices) behind
  rw [accepted, view]
  exact mapList_of_expectsList filling.expects

/-- A round adds the name and a comma to the head of the list. -/
theorem addName (filling : Filling devices list settled head fragment session)
    (offered : (session.offeredNames .standard)[index]? = some name) :
    Filling devices list settled (head ++ (name ++ [','])) []
      (session.addName (.standard devices) list index) := by
  have known := (Word.mem_remaining.mp (filling.remains_of_offered offered)).1
  obtain ⟨front, behind, follows, accepted⟩ := filling.next_accept offered
  obtain ⟨offset, view⟩ :=
    filling.view_opened follows (passes_comma known) (.standard devices) behind
  have after : session.addName (.standard devices) list index =
      .opened (.standard devices) list
        (front ++ (head ++ (name ++ [','])) ++ behind)
        (front ++ (head ++ (name ++ [',']))).byteLength := by
    rw [Session.addName, accepted, Session.next_type_opened]
    simp only [List.append_assoc]
  rw [← after] at view
  constructor
  case suggested => rfl
  case expects => exact filling.expects
  case context =>
    rw [view]
    exact mapList_of_expectsList filling.expects
  case settled_eq =>
    rw [view]
    rfl
  case cut =>
    rw [view]
    change Text.cutAfterLast ',' (head ++ (name ++ [','])) = _
    rw [← List.append_assoc, Text.cutAfterLast_concat]

/-! ## Rounds -/

theorem ends (filling : Filling devices list settled head fragment session) :
    Text.EndsAt ',' head := by
  have shape := Text.cutAfterLast_fst ',' (session.view .standard).typed
  rwa [filling.cut] at shape

theorem length_remaining (filling : Filling devices list settled head fragment session)
    (offered : (session.offeredNames .standard)[index]? = some name) :
    (Word.remaining (head ++ (name ++ [','])) mapNames).length + 1 =
      (Word.remaining head mapNames).length := by
  have remains := filling.remains_of_offered offered
  have entry := isEntry_mapNames name (Word.mem_remaining.mp remains).1
  exact Word.length_remaining_append_comma (nodup_of_isTable isTable_mapNames) filling.ends entry remains

/-- Rounds keep the settled words and put the chosen names behind the head of the list. -/
theorem rounds {first : Session} {names : List Text}
    (filling : Filling devices list settled head fragment first)
    (fills : Fills (.standard devices) list first names session) :
    ∃ grown rest, Filling devices list settled grown rest session ∧
      Word.Grows mapNames head names grown ∧ (names ≠ [] → rest = []) := by
  induction fills with
  | start => exact ⟨head, fragment, filling, .start _ _, absurd rfl⟩
  | round fills offered ih =>
      obtain ⟨grown, rest, before, grows, _⟩ := ih
      have remains := before.remains_of_offered offered
      have entry := isEntry_mapNames _ (Word.mem_remaining.mp remains).1
      exact ⟨_, _, before.addName offered,
        grows.round (nodup_of_isTable isTable_mapNames) before.ends entry remains, fun _ => rfl⟩

/-- Whatever was chosen, some further rounds lead to a session without suggestions. -/
theorem exists_rounds_to_end (filling : Filling devices list settled head fragment session) :
    ∃ names last, Fills (.standard devices) list session names last ∧
      last.suggestions = [] := by
  -- Each round leaves one name less, so the names that remain bound the rounds still to come.
  generalize size : (Word.remaining head mapNames).length = left
  induction left using Nat.strongRecOn generalizing head fragment session with
  | ind left ih =>
      cases offered : (session.offeredNames .standard)[0]? with
      | none =>
          have none := Nat.le_zero.mp (List.getElem?_eq_none_iff.mp offered)
          rw [Session.offeredNames, List.length_map, List.length_eq_zero_iff] at none
          exact ⟨[], session, .start, none⟩
      | some name =>
          have fewer := filling.length_remaining offered
          obtain ⟨names, last, fills, ended⟩ := ih _ (by omega) (filling.addName offered) rfl
          have once : Fills (.standard devices) list session ([] ++ [name]) _ :=
            .round .start offered
          exact ⟨_, last, once.append fills, ended⟩

/-- The list at the value of a mapping option, before the first round. -/
theorem of_context {line raw : Text} {offset : Nat}
    (context : Context.ofCursor (Cursor.ofLine .standard line offset) = .mapList raw)
    (placed : AtValue (Cursor.ofLine .standard line offset)) (devices : List Text) (list : Lister) :
    Filling devices list (Cursor.ofLine .standard line offset).settled
      (Text.cutAfterLast ',' raw).1 (Text.cutAfterLast ',' raw).2
      (Session.opened (.standard devices) list line offset) where
  suggested := rfl
  context := (Context.of_mapList context).1 ▸ context
  settled_eq := rfl
  expects := expectsList_settled context placed
  cut := congrArg (Text.cutAfterLast ',') (Context.of_mapList context).1.symm

/-- Each suggestion puts one of the offered names behind the head. -/
theorem values_eq (filling : Filling devices list settled head fragment session) :
    session.suggestions.map Suggestion.value =
      (session.offeredNames .standard).map (session.listHead .standard ++ ·) := by
  obtain ⟨stop, suggestions⟩ := filling.suggestions_eq
  rw [filling.offeredNames_eq, filling.listHead_eq, suggestions, List.map_map]
  rfl

/-- Where nothing is typed behind the head, all names that remain are offered. -/
theorem offeredNames_of_nil (filling : Filling devices list settled head [] session) :
    session.offeredNames .standard = Word.remaining head mapNames := by
  have all : Text.beginningWith (Word.literal []) (Word.remaining head mapNames) = _ :=
    List.filter_eq_self.mpr fun _ _ => List.isPrefixOf_nil_left
  rw [filling.offeredNames_eq, all]

/-- A round without a typed fragment makes the offer one name shorter. -/
theorem length_offeredNames_addName (filling : Filling devices list settled head [] session)
    (offered : (session.offeredNames .standard)[index]? = some name) :
    ((session.addName (.standard devices) list index).offeredNames .standard).length + 1 =
      (session.offeredNames .standard).length := by
  rw [(filling.addName offered).offeredNames_of_nil, filling.offeredNames_of_nil,
    filling.length_remaining offered]

end Filling

/--
Filling a list never repeats a name and always ends.  The cursor stands in the
value of a mapping option, and what is under it is no run of separators, or the
one equals sign behind the option.  Whichever names are chosen in whatever
quotes, the value stays a list and each suggestion puts a name behind its head.
Behind the first round the names are those of the table, in its order, that
are neither entries of the head that was typed at first nor chosen since; each
further round offers one name less.  So no chosen name is offered again, there
are no more rounds than names, and some rounds lead to a session that offers
nothing.
-/
theorem fills_mapList {devices : List Text} {list : Lister} {line raw : Text} {offset : Nat}
    (context : Context.ofCursor (Cursor.ofLine .standard line offset) = .mapList raw)
    (placed : AtValue (Cursor.ofLine .standard line offset)) {names : List Text} {after : Session}
    (fills : Fills (.standard devices) list
      (Session.opened (.standard devices) list line offset) names after) :
    let listed := Word.entries (Text.cutAfterLast ',' raw).1
    let offered := after.offeredNames .standard
    (∃ typed, Context.ofCursor (after.view .standard) = .mapList typed) ∧
      (∀ index name, offered[index]? = some name → ∃ typed, Context.ofCursor
        ((after.next (.standard devices) list (.accept index)).view .standard) =
          .mapList typed) ∧
      after.suggestions.map Suggestion.value = offered.map (after.listHead .standard ++ ·) ∧
      (names ≠ [] →
        (offered = mapNames.filter fun name => !listed.contains name && !names.contains name) ∧
        ∀ index name, offered[index]? = some name →
          ((after.addName (.standard devices) list index).offeredNames
            .standard).length + 1 = offered.length) ∧
      names.Nodup ∧ (∀ name ∈ names, name ∉ offered) ∧ names.length ≤ mapNames.length ∧
      ∃ more last, Fills (.standard devices) list
        (Session.opened (.standard devices) list line offset) (names ++ more) last ∧
        last.suggestions = [] := by
  intro listed offered
  obtain ⟨grown, rest, filling, grows, whole⟩ :=
    (Filling.of_context context placed devices list).rounds fills
  have later (some : names ≠ []) :
      offered = mapNames.filter fun name => !listed.contains name && !names.contains name := by
    cases whole some
    exact filling.offeredNames_of_nil.trans grows.remaining_eq
  obtain ⟨more, last, others, ended⟩ := filling.exists_rounds_to_end
  refine ⟨⟨_, filling.context⟩, fun _ _ choice => ⟨_, filling.context_accept choice⟩,
    filling.values_eq, fun some => ⟨later some, fun index name => ?_⟩,
    grows.distinct, ?_, ?_, more, last, fills.append others, ended⟩
  · cases whole some
    exact filling.length_offeredNames_addName
  · intro name chosen again
    rw [later (List.ne_nil_of_mem chosen)] at again
    have unchosen := (List.mem_filter.mp again).2
    simp [chosen] at unchosen
  · calc names.length
      _ ≤ (Word.remaining (Text.cutAfterLast ',' raw).1 mapNames).length := by
          rw [← grows.count]
          exact Nat.le_add_left _ _
      _ ≤ mapNames.length := List.length_filter_le _ _

/-- Two rounds right behind an equals sign, and two behind a head in an open quote. -/
theorem fills_mapList_twice :
    let completer := Completer.standard []
    let list : Lister := fun _ => []
    let bare := Session.opened completer list "picocom --imap=" 15
    let bareAfter := (bare.addName completer list 0).addName completer list 3
    let quoted := Session.opened completer list "picocom -I \"lfcr,8 x" 18
    let quotedAfter := (quoted.addName completer list 0).addName completer list 1
    (AtValue (bare.view .standard) ∧ Fills completer list bare ["crlf", "lfcrlf"] bareAfter ∧
      bareAfter.line = "picocom --imap=crlf,lfcrlf," ∧
      bareAfter.offeredNames .standard =
        ["crcrlf", "igncr", "lfcr", "ignlf", "delbs", "bsdel", "spchex", "tabhex", "crhex", "lfhex",
          "8bithex", "nrmhex"]) ∧
    (AtValue (quoted.view .standard) ∧
      Fills completer list quoted ["8bithex", "crcrlf"] quotedAfter ∧
      quotedAfter.line = "picocom -I \"lfcr,8bithex,crcrlf, x" ∧
      quotedAfter.offeredNames .standard =
        ["crlf", "igncr", "lfcrlf", "ignlf", "delbs", "bsdel", "spchex", "tabhex", "crhex", "lfhex",
          "nrmhex"]) := by
  intro completer list bare bareAfter quoted quotedAfter
  constructor
  · have context : Context.ofCursor (bare.view .standard) = .mapList [] := by decide +kernel
    have placed : AtValue (bare.view .standard) := by
      refine fun _ => ⟨by decide +kernel, "--imap", by decide +kernel, by decide +kernel⟩
    have fills : Fills completer list bare ["crlf", "lfcrlf"] bareAfter :=
      .round (.round .start (by decide +kernel)) (by decide +kernel)
    have offered := ((fills_mapList context placed fills).2.2.2.1 (by decide)).1
    exact ⟨placed, fills, by decide +kernel, offered.trans (by decide +kernel)⟩
  · have context : Context.ofCursor (quoted.view .standard) = .mapList "\"lfcr,8" := by
      decide +kernel
    have placed : AtValue (quoted.view .standard) := by
      intro after
      exact absurd after (by decide +kernel)
    have fills : Fills completer list quoted ["8bithex", "crcrlf"] quotedAfter :=
      .round (.round .start (by decide +kernel)) (by decide +kernel)
    have offered := ((fills_mapList context placed fills).2.2.2.1 (by decide)).1
    exact ⟨placed, fills, by decide +kernel, offered.trans (by decide +kernel)⟩

end SerialCompletion.Completion
